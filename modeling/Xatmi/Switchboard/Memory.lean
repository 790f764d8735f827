import Xatmi.Protocol
import Xatmi.Queue
import Xatmi.Switchboard.State

/-!
# Memory, buffers and connection output

The accesses every handler is made of: reading and assigning the fields of a live object, the tp
buffer functions, the wait queue links, and the writers and `svriowait` of `svrio.c`.  In a run
allocation succeeds for every non-negative size, and fresh memory is modelled as zero.
-/

namespace Xatmi
namespace Switchboard

open Program

/-- Replace one entry of a store. -/
def put {α : Type} (store : Nat → Option α) (key : Nat) (value : Option α) : Nat → Option α :=
  fun k => if k = key then value else store k

/-- Change one entry of a store in place. -/
def change {α : Type} (store : Nat → Option α) (key : Nat) (update : α → α) : Nat → Option α :=
  fun k => if k = key then (store k).map update else store k

namespace State

/-- Change a client in place. -/
def mapClient (σ : State) (c : ClientId) (update : Client → Client) : State :=
  { σ with client := change σ.client c update }

/-- Change a service in place. -/
def mapService (σ : State) (s : ServiceId) (update : Service → Service) : State :=
  { σ with service := change σ.service s update }

/-- Change a transaction in place. -/
def mapTran (σ : State) (t : TranId) (update : Transaction → Transaction) : State :=
  { σ with tran := change σ.tran t update }

/-- Whether the object that holds a link field is still allocated. -/
def nodeLive (σ : State) : Node → Bool
  | .head s => (σ.service s).isSome
  | .adv a => (σ.advert a).isSome
  | .tran t => (σ.tran t).isSome

end State

/-! ## Object access -/

def readClient (c : ClientId) : M Client :=
  demand .useAfterFree fun σ => σ.client c

def readService (s : ServiceId) : M Service :=
  demand .useAfterFree fun σ => σ.service s

def readAdvert (a : AdvertId) : M Advert :=
  demand .useAfterFree fun σ => σ.advert a

def readTran (t : TranId) : M Transaction :=
  demand .useAfterFree fun σ => σ.tran t

def readBuf (b : BufId) : M Bytes :=
  demand .useAfterFree fun σ => σ.buf b

def modifyClient (c : ClientId) (update : Client → Client) : M PUnit := do
  let _ ← readClient c
  modify fun σ => σ.mapClient c update

def modifyService (s : ServiceId) (update : Service → Service) : M PUnit := do
  let _ ← readService s
  modify fun σ => σ.mapService s update

def modifyTran (t : TranId) (update : Transaction → Transaction) : M PUnit := do
  let _ ← readTran t
  modify fun σ => σ.mapTran t update

/-- Record an observation. -/
def observe (o : Obs) : M PUnit :=
  modify fun σ => { σ with log := o :: σ.log }

/-! ## Buffers: `tpalloc.c`, `tprealloc.c`, `tpfree.c` -/

/-- Store a new buffer at the next free address. -/
def State.allocBuf (σ : State) (contents : Bytes) : State :=
  { σ with buf := put σ.buf σ.next (some contents), next := σ.next + 1 }

/-- Give a buffer back. -/
def State.freeBuf (σ : State) (b : BufId) : State :=
  { σ with buf := put σ.buf b none }

/-- Contents of a buffer after `realloc` to `size` bytes. -/
def resize (contents : Bytes) (size : Nat) : Bytes :=
  contents.take size ++ List.replicate (size - contents.length) 0

/-- `tpalloc`: null for a negative size. -/
def tpalloc (size : Int) : M (Option BufId) := do
  if size < 0 then
    pure none
  else do
    let σ ← get
    set (σ.allocBuf (List.replicate size.toNat 0))
    pure (some σ.next)

/-- `tprealloc`, told whether `realloc` finds memory: the old address is gone, unless the size is
negative or there is no memory.  Then null is returned and the block stays where it is. -/
def tpreallocWith (granted : Bool) (b : BufId) (size : Int) : M (Option BufId) := do
  let contents ← readBuf b
  if size < 0 then
    pure none
  else if granted then do
    let σ ← get
    set ((σ.freeBuf b).allocBuf (resize contents size.toNat))
    pure (some σ.next)
  else
    pure none

/-- `tprealloc` while there is memory. -/
def tprealloc : BufId → Int → M (Option BufId) :=
  tpreallocWith true

/-- `tpfree`. -/
def tpfree (b : BufId) : M PUnit := do
  let _ ← readBuf b
  modify fun σ => σ.freeBuf b

/-! ## Wait queues: `queue.c` on the `svc_waitq` links -/

/-- `QISEMPTY(svc->waitq)`. -/
def qisempty (s : ServiceId) : M Bool := do
  let _ ← readService s
  let σ ← get
  pure (Queue.qisempty σ.links (.head s))

/-- `QFIRST(svc->waitq)`. -/
def qfirst (s : ServiceId) : M Node := do
  let _ ← readService s
  let σ ← get
  pure (Queue.qfirst σ.links (.head s))

/-- `qappend(QLAST(svc->waitq), node)`. -/
def qappend (s : ServiceId) (node : Node) : M PUnit := do
  let σ ← get
  let last := Queue.qlast σ.links (.head s)
  if σ.nodeLive (.head s) && σ.nodeLive node && σ.nodeLive last &&
      σ.nodeLive (Queue.qnext σ.links last) then
    set { σ with links := (Queue.qappend last node σ.links).2 }
  else
    throw .useAfterFree

/-- `qdelete(node)`. -/
def qdelete (node : Node) : M PUnit := do
  let σ ← get
  if σ.nodeLive node && σ.nodeLive (Queue.qprev σ.links node) &&
      σ.nodeLive (Queue.qnext σ.links node) then
    set { σ with links := (Queue.qdelete node σ.links).2 }
  else
    throw .useAfterFree

/-- `OFFSET(q, struct tptransaction, svc_waitq)`. -/
def nodeTran : Node → M TranId
  | .tran t => pure t
  | _ => throw .wrongType

/-- `OFFSET(q, struct tpadvertisement, svc_waitq)`. -/
def nodeAdvert : Node → M AdvertId
  | .adv a => pure a
  | _ => throw .wrongType

/-! ## Connection output and input: `svrio.c` -/

/-- Bytes handed to `write` on a client's descriptor. -/
def State.write (σ : State) (c : ClientId) (bytes : Bytes) : State :=
  { σ with sent := fun k => if k = c then σ.sent c ++ bytes else σ.sent k }

def svrwrite (c : ClientId) (bytes : Bytes) : M PUnit := do
  let _ ← readClient c
  modify fun σ => σ.write c bytes

def svrwriteb (c : ClientId) (val : Byte) : M PUnit :=
  svrwrite c [val]

def svrwrites (c : ClientId) (val : BitVec 16) : M PUnit := do
  svrwriteb c ((val &&& 0xFF).setWidth 8)
  svrwriteb c (((val >>> 8) &&& 0xFF).setWidth 8)

def svrwritel (c : ClientId) (val : BitVec 64) : M PUnit := do
  svrwrites c ((val &&& 0xFFFF).setWidth 16)
  svrwrites c (((val >>> 16) &&& 0xFFFF).setWidth 16)

/-- `svriowait`: have `data` filled from the connection and then call `func`, or call it at once
when there is nothing to fill. -/
def svriowait (c : ClientId) (data : BufId) (handler : Handler)
    (func : ClientId → BufId → M PUnit) : M PUnit := do
  let x ← readClient c
  if x.handler.isSome || x.input.isSome || x.used != 0 then
    throw .assertion
  else do
    let contents ← readBuf data
    if contents.length ≠ 0 then
      modifyClient c fun x => { x with handler := some handler, input := some data, used := 0 }
    else do
      observe (.handled c handler contents)
      func c data

/-- `svr_next_command`; a buffer of one byte is never passed on at once. -/
def svrNextCommand (c : ClientId) : M PUnit := do
  match ← tpalloc 1 with
  | some data => svriowait c data .command fun _ _ => throw .diverges
  | none => throw .assertion

end Switchboard
end Xatmi
