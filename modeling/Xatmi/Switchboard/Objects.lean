import Xatmi.Switchboard.Memory

/-!
# Clients, services, advertisements and transactions

The constructors and destructors of `client.c`, `service.c`, `advert.c` and `transaction.c`, with
`snd_reply`, which `del_client` calls.  `tsearch`, `tfind` and `tdelete` keep an ordered set under
their comparator; the order in which `twalk` visits a tree is left to the environment, and the
first node visited is the root.  The descriptor that `new_transaction` draws and the clock it reads
are also the environment's.
-/

namespace Xatmi
namespace Switchboard

open Program

/-- What the outside decides while the switchboard handles one event. -/
structure Env where
  /-- Preorder of the advertisement tree with the given members. -/
  walk : List AdvertId → List AdvertId
  /-- `twalk` visits every node once. -/
  walk_perm : ∀ adverts, (walk adverts).Perm adverts
  /-- What `gettimeofday` returns. -/
  arrival : Timeval
  /-- The descriptor drawn for a new transaction. -/
  cd : BitVec 16

/-! ## Names -/

/-- The part of a name that `strncmp` looks at. -/
def cname (name : Bytes) : Bytes :=
  (name.take XATMI_SERVICE_NAME_LENGTH).takeWhile (· ≠ 0)

/-- `strncmp(a, b, XATMI_SERVICE_NAME_LENGTH) == 0`. -/
def sameName (a b : Bytes) : Bool :=
  cname a = cname b

/-- `strncpy(dest, name, XATMI_SERVICE_NAME_LENGTH)`. -/
def strncpy (name : Bytes) : Bytes :=
  cname name ++ List.replicate (XATMI_SERVICE_NAME_LENGTH - (cname name).length) 0

/-! ## Lookups -/

namespace State

/-- `fnd_service`. -/
def fndService (σ : State) (svcname : Bytes) : Option ServiceId :=
  σ.services.find? fun s => (σ.service s).any fun svc => sameName svcname svc.svcname

/-- The name of the service an advertisement offers, as `cmp_advertisement` reads it. -/
def advertName (σ : State) (a : AdvertId) : Option Bytes :=
  (σ.advert a).bind fun v => (σ.service v.svc).map Service.svcname

/-- `fnd_advertisement`. -/
def fndAdvertisement (σ : State) (c : ClientId) (svcname : Bytes) : Option AdvertId :=
  (σ.fndService svcname).bind fun s =>
    (σ.service s).bind fun svc =>
      (σ.client c).bind fun x =>
        x.adverts.find? fun a => (σ.advertName a).any (sameName svc.svcname)

/-- The scan of `tpclients` in `del_advertisement`. -/
def someoneAdvertises (σ : State) (svcname : Bytes) : Bool :=
  σ.clients.any fun c => (σ.fndAdvertisement c svcname).isSome

/-! ## Allocation and release -/

/-- Enter a new client in `tpclients`. -/
def addClient (σ : State) : State :=
  { σ with
    clients := σ.clients ++ [σ.next]
    client := put σ.client σ.next (some {})
    next := σ.next + 1 }

/-- Take a client off `tpclients` and free it. -/
def dropClient (σ : State) (c : ClientId) : State :=
  { σ with clients := σ.clients.erase c, client := put σ.client c none }

/-- Enter a new service in `services`. -/
def addService (σ : State) (svcname : Bytes) : State :=
  { σ with
    services := σ.services ++ [σ.next]
    service := put σ.service σ.next (some { svcname := strncpy svcname })
    links := σ.links.init (.head σ.next)
    next := σ.next + 1 }

/-- Take a service out of `services` and free it. -/
def dropService (σ : State) (s : ServiceId) : State :=
  { σ with services := σ.services.erase s, service := put σ.service s none }

/-- Create an advertisement; the client's tree is assigned separately. -/
def addAdvert (σ : State) (v : Advert) : State :=
  { σ with
    advert := put σ.advert σ.next (some v)
    links := σ.links.init (.adv σ.next)
    next := σ.next + 1 }

/-- Free an advertisement. -/
def dropAdvert (σ : State) (a : AdvertId) : State :=
  { σ with advert := put σ.advert a none }

/-- Create a transaction and enter it in `tptransactions`. -/
def addTran (σ : State) (v : Transaction) : State :=
  { σ with
    transactions := σ.transactions ++ [σ.next]
    tran := put σ.tran σ.next (some v)
    links := σ.links.init (.tran σ.next)
    next := σ.next + 1 }

/-- Take a transaction off `tptransactions` and free it. -/
def dropTran (σ : State) (t : TranId) : State :=
  { σ with transactions := σ.transactions.erase t, tran := put σ.tran t none }

end State

/-! ## `free` -/

/-- What `free` does with a transaction, a service and an advertisement. -/
structure Release where
  tran : TranId → M PUnit
  service : ServiceId → M PUnit
  advert : AdvertId → M PUnit

/-- `free`, whatever it is called with. -/
def Release.plain : Release where
  tran t := modify fun σ => σ.dropTran t
  service s := modify fun σ => σ.dropService s
  advert a := modify fun σ => σ.dropAdvert a

/-! ## `transaction.c` -/

/-- `new_transaction`: null without a service or with a negative length. -/
def newTransaction (env : Env) (c : ClientId) (flags : BitVec 64) (svc : Option ServiceId)
    (len : Int) : M (Option TranId) := do
  match svc with
  | none => pure none
  | some s =>
      match ← tpalloc len with
      | none => pure none
      | some data => do
          let σ ← get
          set (σ.addTran
            { client := c, svc := s, arrival := env.arrival, cd := env.cd, data, flags })
          pure (some σ.next)

/-- `if (c->wait4 == t) c->wait4 = 0`. -/
def clearWait (c : ClientId) (t : TranId) : M PUnit :=
  modifyClient c fun x => { x with wait4 := if x.wait4 = some (.tran t) then none else x.wait4 }

/-- `if (t->executor && t->executor->client->wait4 == t) t->executor->client->wait4 = 0`. -/
def clearWorker (tr : Transaction) (t : TranId) : M PUnit :=
  match tr.executor with
  | none => pure ()
  | some a => do
      let v ← readAdvert a
      clearWait v.client t

/-- `del_transaction`, given what `free` does. -/
def delTransactionWith (r : Release) (t : TranId) : M PUnit := do
  let tr ← readTran t
  modifyClient tr.client fun x =>
    { x with requests := x.requests.erase t, replies := x.replies.erase t }
  qdelete (.tran t)
  clearWait tr.client t
  clearWorker tr t
  tpfree tr.data
  r.tran t

/-- `del_transaction`. -/
def delTransaction : TranId → M PUnit :=
  delTransactionWith .plain

/-! ## `service.c` and `advert.c` -/

/-- `new_service`: the existing service of that name, if any. -/
def newService (svcname : Bytes) : M ServiceId := do
  let σ ← get
  match σ.fndService svcname with
  | some s => pure s
  | none => do
      set (σ.addService svcname)
      pure σ.next

/-- `new_advertisement`: the client's existing advertisement for that service, if any. -/
def newAdvertisement (c : ClientId) (svcname : Bytes) (opaqueFunc : BitVec 64) :
    M AdvertId := do
  let s ← newService svcname
  let σ ← get
  match σ.fndAdvertisement c svcname with
  | some a => pure a
  | none => do
      set (σ.addAdvert { svc := s, client := c, opaqueFunc })
      modifyClient c fun x => { x with adverts := x.adverts ++ [σ.next] }
      pure σ.next

/-- `del_service`, given what `free` does and the function that deletes an advertisement. -/
def delServiceWith (r : Release) (delAdvert : AdvertId → M PUnit) (s : ServiceId) : M PUnit := do
  let svc ← readService s
  let σ ← get
  if svc.waitContainsTransactions then
    whileLoop .diverges (do let empty ← qisempty s; pure !empty)
      (do let t ← nodeTran (← qfirst s); delTransactionWith r t) σ.next
  else
    whileLoop .diverges (do let empty ← qisempty s; pure !empty)
      (do let a ← nodeAdvert (← qfirst s); delAdvert a) σ.next
  r.service s

/-- `del_advertisement`, to a recursion depth of `depth`. -/
def delAdvertisementWith (r : Release) : Nat → AdvertId → M PUnit
  | 0, _ => throw .diverges
  | depth + 1, a => do
      let v ← readAdvert a
      qdelete (.adv a)
      modifyClient v.client fun x => { x with adverts := x.adverts.erase a }
      let svc ← readService v.svc
      let σ ← get
      if σ.someoneAdvertises svc.svcname then
        pure ()
      else
        delServiceWith r (delAdvertisementWith r depth) v.svc
      r.advert a

/-- `del_service`. -/
def delService : (AdvertId → M PUnit) → ServiceId → M PUnit :=
  delServiceWith .plain

/-- `del_advertisement`. -/
def delAdvertisement : Nat → AdvertId → M PUnit :=
  delAdvertisementWith .plain

/-! ## `snd_reply` and `client.c` -/

/-- `snd_reply`, given what `free` does. -/
def sndReplyWith (r : Release) (t : TranId) : M PUnit := do
  let tr ← readTran t
  let contents ← readBuf tr.data
  svrwriteb tr.client (tr.rval.setWidth 8)
  svrwrites tr.client tr.cd
  svrwritel tr.client tr.rcode
  svrwritel tr.client ((BitVec.ofNat 32 contents.length).signExtend 64)
  svrwrite tr.client contents
  svrNextCommand tr.client
  modifyClient tr.client fun x => { x with wait4 := none }
  delTransactionWith r t

/-- `snd_reply`. -/
def sndReply : TranId → M PUnit :=
  sndReplyWith .plain

/-- `qdelete(&t->clientq); qappend(QLAST(t->client->replies), &t->clientq)`. -/
def queueReply (t : TranId) : M PUnit := do
  let tr ← readTran t
  modifyClient tr.client fun x =>
    { x with requests := x.requests.erase t, replies := x.replies.erase t ++ [t] }

/-- `new_client`. -/
def newClient : M ClientId := do
  let σ ← get
  set σ.addClient
  pure σ.next

/-- The first part of `del_client`: what becomes of the transaction the client is executing.  The
`global_any_transaction` it compares with is an automatic variable of `del_client` itself, which no
client ever waits for. -/
def failTransactionWith (r : Release) (c : ClientId) (t : TranId) : M PUnit := do
  modifyClient c fun x => { x with wait4 := none }
  modifyTran t fun tr =>
    { tr with executor := none, rval := TPERRNO, rcode := BitVec.ofNat 64 TPESVCERR }
  let tr ← readTran t
  let k ← readClient tr.client
  if k.wait4 = some (.tran t) then
    sndReplyWith r t
  else
    queueReply t

def failTransaction : ClientId → TranId → M PUnit :=
  failTransactionWith .plain

/-- `if (t && t->executor && t->executor->client == c)` and what depends on it, for `t =
c->wait4`. -/
def failWorkWith (r : Release) (c : ClientId) : M PUnit := do
  let x ← readClient c
  match x.wait4 with
  | some (.tran t) => do
      let tr ← readTran t
      match tr.executor with
      | some a => do
          let v ← readAdvert a
          if v.client = c then failTransactionWith r c t else pure ()
      | none => pure ()
  -- the executor of the sentinel is null
  | some .any => pure ()
  | none => pure ()

def failWork : ClientId → M PUnit :=
  failWorkWith .plain

/-- `while (c->adverts) del_advertisement(root of c->adverts)`. -/
def delAdvertsWith (r : Release) (depth : Nat) (env : Env) (c : ClientId) (bound : Nat) : M PUnit :=
  whileLoop .diverges (do let x ← readClient c; pure (x.adverts ≠ []))
    (do
      let x ← readClient c
      match env.walk x.adverts with
      | a :: _ => delAdvertisementWith r depth a
      | [] => pure ())
    bound

def delAdverts (env : Env) (c : ClientId) (bound : Nat) : M PUnit :=
  delAdvertsWith .plain bound env c bound

/-- `while (!QISEMPTY(queue)) del_transaction(QFIRST(queue))` for a queue of client `c`. -/
def delQueueWith (r : Release) (c : ClientId) (queue : Client → List TranId) (bound : Nat) :
    M PUnit :=
  whileLoop .diverges (do let x ← readClient c; pure (queue x ≠ []))
    (do
      let x ← readClient c
      match queue x with
      | t :: _ => delTransactionWith r t
      | [] => pure ())
    bound

def delQueue : ClientId → (Client → List TranId) → Nat → M PUnit :=
  delQueueWith .plain

/-- `del_client`, given what `free` does and to what depth `del_advertisement` recurs in a memory
with a given next address. -/
def delClientBy (r : Release) (depth : Nat → Nat) (env : Env) (c : ClientId) : M PUnit := do
  failWorkWith r c
  let σ ← get
  delAdvertsWith r (depth σ.next) env c σ.next
  delQueueWith r c Client.requests σ.next
  delQueueWith r c Client.replies σ.next
  modify fun σ => σ.dropClient c

/-- `del_client`. -/
def delClient : Env → ClientId → M PUnit :=
  delClientBy .plain id

/-! ## The functions with `free` as it is -/

theorem Release.plain_tran (t : TranId) : Release.plain.tran t = modify fun σ => σ.dropTran t := rfl

theorem Release.plain_service (s : ServiceId) :
    Release.plain.service s = modify fun σ => σ.dropService s := rfl

theorem Release.plain_advert (a : AdvertId) :
    Release.plain.advert a = modify fun σ => σ.dropAdvert a := rfl

theorem delTransactionWith_plain : delTransactionWith .plain = delTransaction := rfl

theorem delServiceWith_plain : delServiceWith .plain = delService := rfl

theorem delAdvertisementWith_plain : delAdvertisementWith .plain = delAdvertisement := rfl

theorem sndReplyWith_plain : sndReplyWith .plain = sndReply := rfl

theorem failTransactionWith_plain : failTransactionWith .plain = failTransaction := rfl

theorem failWorkWith_plain : failWorkWith .plain = failWork := rfl

theorem delAdvertsWith_plain (env : Env) (c : ClientId) (bound : Nat) :
    delAdvertsWith .plain bound env c bound = delAdverts env c bound := rfl

theorem delQueueWith_plain : delQueueWith .plain = delQueue := rfl

end Switchboard
end Xatmi
