import Xatmi.ByteOrder
import Xatmi.Lib.Program
import Xatmi.Lib.Ring

/-!
# The switchboard's memory

The objects of `server.h`.  Every object lives at an identifier which is never given out twice, so
a reference to a freed object stays recognisable: following one is the fault `useAfterFree`.  The
queues `tpclients`, `tptransactions`, `requests` and `replies` are lists.  The wait queue of a
service is kept as the ring of links the source maintains, because a node of that ring can be
linked a second time while it is still linked, and the result is no list.
-/

namespace Xatmi
namespace Switchboard

open Program

/-- Address of a `struct tpclient`, which also names its descriptor. -/
abbrev ClientId := Nat

/-- Address of a `struct tpservice`. -/
abbrev ServiceId := Nat

/-- Address of a `struct tpadvertisement`. -/
abbrev AdvertId := Nat

/-- Address of a `struct tptransaction`. -/
abbrev TranId := Nat

/-- Address of a buffer from `tpalloc`. -/
abbrev BufId := Nat

/-- The callbacks that `svriowait` can install on a connection. -/
inductive Handler
  | command
  | svracall
  | svrgetrply
  | svradvertise
  | svrunadvertise
  | svrservice
  | svrreturn
  | sendToWorker
  | part2
  deriving DecidableEq, Repr

/-- What `wait4` can point to: a transaction, or the sentinel `global_any_transaction`. -/
inductive Wait
  | tran (t : TranId)
  | any
  deriving DecidableEq, Repr

/-- `struct tpclient`. -/
structure Client where
  /-- Number of bytes of `input` already read. -/
  used : Nat := 0
  /-- Buffer being read into. -/
  input : Option BufId := none
  /-- Callback to run when the buffer is full. -/
  handler : Option Handler := none
  /-- The tree of services this client advertises. -/
  adverts : List AdvertId := []
  /-- Unprocessed transactions. -/
  requests : List TranId := []
  /-- Completed transactions. -/
  replies : List TranId := []
  /-- Transaction we are servicing (worker) or waiting for (client). -/
  wait4 : Option Wait := none
  deriving DecidableEq

/-- `struct tpservice`; its `waitq` is the ring headed by `Node.head`. -/
structure Service where
  svcname : Bytes
  waitContainsTransactions : Bool := false
  deriving DecidableEq

/-- `struct tpadvertisement`. -/
structure Advert where
  svc : ServiceId
  client : ClientId
  /-- The function pointer passed by the client in `tpadvertise`. -/
  opaqueFunc : BitVec 64
  deriving DecidableEq

/-- `struct timeval`. -/
structure Timeval where
  sec : Nat
  usec : Nat
  deriving DecidableEq

/-- `timercmp(a, b, <)`. -/
def Timeval.before (a b : Timeval) : Bool :=
  if a.sec = b.sec then a.usec < b.usec else a.sec < b.sec

/-- `struct tptransaction`. -/
structure Transaction where
  client : ClientId
  svc : ServiceId
  arrival : Timeval
  executor : Option AdvertId := none
  cd : BitVec 16
  data : BufId
  rval : BitVec 32 := 0
  rcode : BitVec 64 := 0
  flags : BitVec 64
  deriving DecidableEq

/-- The link fields threaded through the service wait queues. -/
inductive Node
  | head (s : ServiceId)
  | adv (a : AdvertId)
  | tran (t : TranId)
  deriving DecidableEq

/-- What an outside observer can record of the switchboard besides the bytes it writes. -/
inductive Obs
  /-- A handler was called on a full buffer. -/
  | handled (c : ClientId) (handler : Handler) (buf : Bytes)
  /-- `send_to_server` handed transaction `t` to client `c` through advertisement `a`. -/
  | dispatched (a : AdvertId) (c : ClientId) (t : TranId)
  deriving DecidableEq

/-- Ways in which the switchboard process dies. -/
inductive Fault
  /-- An `assert` failed. -/
  | assertion
  /-- A null pointer was dereferenced. -/
  | nullPointer
  /-- A freed object was dereferenced. -/
  | useAfterFree
  /-- A wait queue entry was taken for an object of the other kind. -/
  | wrongType
  /-- A recursion or loop that does not end. -/
  | diverges
  deriving DecidableEq, Repr

/-- The switchboard's memory and what it has written so far. -/
structure State where
  /-- The queue `tpclients`. -/
  clients : List ClientId := []
  client : ClientId → Option Client := fun _ => none
  /-- The tree `services`. -/
  services : List ServiceId := []
  service : ServiceId → Option Service := fun _ => none
  advert : AdvertId → Option Advert := fun _ => none
  /-- The queue `tptransactions`. -/
  transactions : List TranId := []
  tran : TranId → Option Transaction := fun _ => none
  buf : BufId → Option Bytes := fun _ => none
  /-- Links of the wait queues. -/
  links : Intrusive.Links Node := .initial
  /-- Every identifier given out so far is smaller. -/
  next : Nat := 0
  /-- Bytes written to each connection. -/
  sent : ClientId → Bytes := fun _ => []
  /-- Observations, newest first. -/
  log : List Obs := []

/-- A piece of the switchboard's code. -/
abbrev M := Prog Fault State

end Switchboard
end Xatmi
