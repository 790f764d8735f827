import Xatmi.Switchboard.Execution
import Mathlib.Data.Option.Basic

/-!
# Effects

Between two events the memory of the switchboard meets its invariants; while a handler runs it does
not, because some object is in the handler's hands.  This file cuts the handlers into effects small
enough for the invariants to hold before and after each, and makes explicit what the running code
holds in between.  Every effect carries the tests the code has made, on the memory at that point and
on the event that is being handled.
-/

namespace Xatmi
namespace Switchboard

open Program

/-! ## What an event does -/

/-- The client whose buffer the event completes, with the handler called and the contents. -/
def received (σ : State) (e : Event) : Option (ClientId × Handler × Bytes) :=
  match e.happening with
  | .connect => none
  | .ready c input => do
      guard (c ∈ σ.clients)
      let x ← σ.client c
      let b ← x.input
      let handler ← x.handler
      let contents ← σ.buf b
      let piece ← input.map (List.take (contents.length - x.used))
      guard (piece ≠ [] ∧ x.used + piece.length = contents.length)
      pure (c, handler, overwrite contents x.used piece)

/-- The event completes the buffer client `c` is reading: its handler is called with the
contents. -/
def Received (σ : State) (e : Event) (c : ClientId) (handler : Handler) (filled : Bytes) : Prop :=
  received σ e = some (c, handler, filled)

theorem received_intro {σ : State} {e : Event} {c : ClientId} {input : Option Bytes} {x : Client}
    {handler : Handler} {b : BufId} {contents piece : Bytes}
    (source : e.happening = .ready c input) (connected : c ∈ σ.clients)
    (live : σ.client c = some x) (reading : x.handler = some handler) (into : x.input = some b)
    (room : σ.buf b = some contents)
    (got : input.map (List.take (contents.length - x.used)) = some piece)
    (nonempty : piece ≠ []) (full : x.used + piece.length = contents.length) :
    Received σ e c handler (overwrite contents x.used piece) := by
  simp [Received, received, source, connected, live, reading, into, room, got, nonempty, full,
    guard]

theorem received_elim {σ : State} {e : Event} {c : ClientId} {handler : Handler} {filled : Bytes}
    (received : Received σ e c handler filled) : ∃ input x b contents piece,
      e.happening = .ready c input ∧ c ∈ σ.clients ∧ σ.client c = some x ∧
      x.handler = some handler ∧ x.input = some b ∧ σ.buf b = some contents ∧
      input.map (List.take (contents.length - x.used)) = some piece ∧ piece ≠ [] ∧
      x.used + piece.length = contents.length ∧ filled = overwrite contents x.used piece := by
  unfold Received Switchboard.received at received
  cases source : e.happening with
  | connect => simp [source] at received
  | ready k input =>
      simp only [source, Option.bind_eq_bind, Option.bind_eq_some_iff] at received
      obtain ⟨_, connected, x, live, b, into, handler', reading, contents, room, piece,
        got, _, full, same⟩ := received
      simp only [Option.pure_def, Option.some.injEq, Prod.mk.injEq] at same
      obtain ⟨rfl, rfl, rfl⟩ := same
      have tested : ∀ {p : Prop} [Decidable p] {u : Unit}, guard p = some u → p := by
        intro p _ u passed
        by_contra failed
        simp [guard, failed] at passed
      exact ⟨input, x, b, contents, piece, rfl, tested connected, live, reading, into, room, got,
        (tested full).1, (tested full).2, rfl⟩

/-- The event makes the switchboard delete client `c`: it sends when nothing is read from it, its
connection ends, or its command is unknown. -/
def Closes (σ : State) (e : Event) (c : ClientId) : Prop :=
  (∃ input x, e.happening = .ready c input ∧ c ∈ σ.clients ∧ σ.client c = some x ∧
    (x.handler = none ∨ x.input = none ∨
      (∃ b contents, x.input = some b ∧ σ.buf b = some contents ∧ contents.length ≤ x.used) ∨
      input = none ∨ input = some [])) ∨
  ∃ filled, Received σ e c .command filled ∧ commands[(filled.getD 0 0).toNat]? = none

/-- The event is the command `kind` of client `c`. -/
def Commands (σ : State) (e : Event) (c : ClientId) (kind : Byte) : Prop :=
  ∃ filled, Received σ e c .command filled ∧ filled.getD 0 0 = kind

/-- `svrservice`, called for client `c` now, would hand out transaction `t` through `a`. -/
def Picks (env : Env) (σ : State) (c : ClientId) (a : AdvertId) (t : TranId) : Prop :=
  ∃ x, σ.client c = some x ∧
    (env.walk x.adverts).foldlM findEarliest none σ = .ok (some a, σ) ∧
      firstTran a σ = .ok (t, σ)

/-- The event is a `TPTADVT` of client `c` for `svcname` with the function pointer `func`. -/
def Advertises (σ : State) (e : Event) (c : ClientId) (svcname : Bytes) (func : BitVec 64) : Prop :=
  ∃ filled, Received σ e c .svradvertise filled ∧
    svcname = filled.take XATMI_SERVICE_NAME_LENGTH ∧
    func = tolong (filled.drop XATMI_SERVICE_NAME_LENGTH)

/-- The event is a `TPTUADV` of client `c` for its advertisement `a`. -/
def Unadvertises (σ : State) (e : Event) (c : ClientId) (a : AdvertId) : Prop :=
  ∃ filled, Received σ e c .svrunadvertise filled ∧
    σ.fndAdvertisement c (filled.take XATMI_SERVICE_NAME_LENGTH) = some a

/-- The event belongs to a `TPTRETN` of client `c`: its header is complete, or its data. -/
def Returns (σ : State) (e : Event) (c : ClientId) : Prop :=
  ∃ filled, Received σ e c .svrreturn filled ∨ Received σ e c .part2 filled

/-- A property of what an event has completed can be tested. -/
instance decidableReceived (σ : State) (e : Event) (c : ClientId) (handler : Handler)
    (test : Bytes → Prop) [DecidablePred test] :
    Decidable (∃ filled, Received σ e c handler filled ∧ test filled) :=
  decidable_of_iff ((received σ e).any fun found =>
      decide (found.1 = c ∧ found.2.1 = handler ∧ test found.2.2)) (by
    simp only [Received, Option.any_eq_true, decide_eq_true_eq]
    constructor
    · rintro ⟨⟨_, _, filled⟩, found, rfl, rfl, holds⟩
      exact ⟨filled, found, holds⟩
    · rintro ⟨filled, found, holds⟩
      exact ⟨_, found, rfl, rfl, holds⟩)

instance (σ : State) (e : Event) (c : ClientId) (kind : Byte) : Decidable (Commands σ e c kind) :=
  decidableReceived σ e c .command fun filled => filled.getD 0 0 = kind

instance (σ : State) (e : Event) (c : ClientId) (a : AdvertId) :
    Decidable (Unadvertises σ e c a) :=
  decidableReceived σ e c .svrunadvertise fun filled =>
    σ.fndAdvertisement c (filled.take XATMI_SERVICE_NAME_LENGTH) = some a

/-- The first disjunct of `Closes`, as a test. -/
def dropped (σ : State) (e : Event) (c : ClientId) : Bool :=
  match e.happening, σ.client c with
  | .ready k input, some x =>
      decide (k = c ∧ c ∈ σ.clients) &&
        (x.handler.isNone || (x.input.elim true fun b =>
          (σ.buf b).any fun contents => decide (contents.length ≤ x.used)) ||
          decide (input = none ∨ input = some []))
  | _, _ => false

instance (σ : State) (e : Event) (c : ClientId) : Decidable (Closes σ e c) :=
  decidable_of_iff (dropped σ e c ∨ ∃ filled, Received σ e c .command filled ∧
      commands[(filled.getD 0 0).toNat]? = none) (by
    refine or_congr ?_ Iff.rfl
    unfold dropped
    cases source : e.happening with
    | connect => simp
    | ready k input =>
        cases live : σ.client c with
        | none => simp
        | some x =>
            cases into : x.input with
            | none => simp [into]
            | some b => simp [into, Option.any_eq_true]; grind)

/-- What the switchboard keeps about a client besides what is being read. -/
def Client.tables (x : Client) : List AdvertId × List TranId × List TranId × Option Wait :=
  (x.adverts, x.requests, x.replies, x.wait4)

/-- Two memories that differ only in what is being read, buffers and observations. -/
structure SameTables (σ τ : State) : Prop where
  services : τ.services = σ.services
  service : τ.service = σ.service
  advert : τ.advert = σ.advert
  tran : τ.tran = σ.tran
  links : τ.links = σ.links
  sent : τ.sent = σ.sent
  client : ∀ c, (τ.client c).map Client.tables = (σ.client c).map Client.tables

/-! ## Composite updates -/

namespace State

/-- The queue of service `s` is meant to hold transactions. -/
def Flagged (σ : State) (s : ServiceId) : Prop :=
  ∃ svc, σ.service s = some svc ∧ svc.waitContainsTransactions = true

/-- `QISEMPTY(s->waitq)`. -/
def EmptyQueue (σ : State) (s : ServiceId) : Prop :=
  σ.links.p1 (.head s) = .head s

/-- Take the full buffer `b` from client `c`. -/
def begin (σ : State) (c : ClientId) (handler : Handler) (b : BufId) (filled : Bytes) : State :=
  (({ σ with buf := put σ.buf b (some filled) }).mapClient c fun x =>
    { x with handler := none, input := none, used := 0 }).observe (.handled c handler filled)

/-- Store a piece of input. -/
def fill (σ : State) (c : ClientId) (b : BufId) (contents : Bytes) (piece : Bytes) : State :=
  ({ σ with buf := put σ.buf b (some contents) }).mapClient c fun x =>
    { x with used := x.used + piece.length }

/-- Create the transaction `tr` with room for `len` bytes and enter it in its client's requests. -/
def submit (σ : State) (tr : Transaction) (len : Nat) : State :=
  ((σ.allocBuf (List.replicate len 0)).addTran tr).mapClient tr.client fun x =>
    { x with requests := x.requests ++ [σ.next + 1] }

/-- Put an uploaded transaction on the queue of its service. -/
def enqueue (σ : State) (s : ServiceId) (t : TranId) : State :=
  (σ.mapService s fun svc => { svc with waitContainsTransactions := true }).link s (.tran t)

/-- Put an advertisement on the queue of its service. -/
def park (σ : State) (s : ServiceId) (a : AdvertId) : State :=
  (σ.mapService s fun svc => { svc with waitContainsTransactions := false }).link s (.adv a)

/-- Wait for a transaction. -/
def block (σ : State) (c : ClientId) (w : Wait) : State :=
  σ.mapClient c fun x => { x with wait4 := some w }

/-- Store what a worker returns, with room for `len` bytes of data. -/
def setReturn (σ : State) (t : TranId) (b : BufId) (rval : BitVec 32) (rcode : BitVec 64)
    (data : Bytes) : State :=
  ((((σ.mapTran t fun tr => { tr with rval, rcode }).freeBuf b).allocBuf data).mapTran t
    fun tr => { tr with data := σ.next })

theorem setReturn_tran (σ : State) (t : TranId) (b : BufId) (rval : BitVec 32)
    (rcode : BitVec 64) (data : Bytes) :
    (σ.setReturn t b rval rcode data).tran =
      change σ.tran t fun tr => { tr with rval, rcode, data := σ.next } :=
  change_change _ _ _ _

/-- The worker is rid of its transaction, which gets `rval` and `rcode`. -/
def finish (σ : State) (c : ClientId) (t : TranId) (result : Transaction → Transaction) : State :=
  (σ.mapClient c fun x => { x with wait4 := none }).mapTran t fun tr =>
    { result tr with executor := none }

/-- Enter a new advertisement in its client's tree. -/
def offer (σ : State) (v : Advert) : State :=
  (σ.addAdvert v).mapClient v.client fun x => { x with adverts := x.adverts ++ [σ.next] }

/-- Take an advertisement off its queue and out of its client's tree. -/
def detach (σ : State) (a : AdvertId) (c : ClientId) : State :=
  (σ.unlink (.adv a)).mapClient c fun x => { x with adverts := x.adverts.erase a }

end State

/-! ## Effects -/

/-- What the running code has in its hands. -/
structure Phase where
  /-- Client whose handler is running. -/
  run : Option ClientId := none
  /-- Buffer known only to the handler. -/
  held : Option BufId := none
  /-- Transaction whose data is complete and which is neither queued nor dispatched yet. -/
  up : Option TranId := none
  /-- Finished transaction which is neither answered nor among the replies yet. -/
  fin : Option TranId := none
  /-- Client that is being put on wait queues. -/
  parked : Option ClientId := none
  /-- Client that is being deleted. -/
  closing : Option ClientId := none
  /-- The client being deleted has been rid of the transaction it was executing. -/
  settled : Bool := false
  /-- Advertisement out of its tree and not yet freed. -/
  det : Option AdvertId := none
  /-- Service that nobody advertises any more and that is not yet freed. -/
  orphan : Option ServiceId := none
  /-- Service that nobody advertises yet. -/
  made : Option ServiceId := none

/-- The memory and what the running code has in its hands. -/
structure Conf where
  phase : Phase
  state : State

/-- The handlers whose buffer is the data of a transaction. -/
def Handler.ownsData : Handler → Bool
  | .sendToWorker | .part2 => true
  | _ => false

/-- What a handler has in its hands when it is called for client `c` on buffer `b`. -/
def Phase.called (c : ClientId) (x : Client) (handler : Handler) (b : BufId) : Phase where
  run := some c
  held := if handler.ownsData then none else some b
  up := if handler = .sendToWorker then x.requests.getLast? else none

/-- The effects of handling event `e` in memory `σ₀`. -/
inductive Effect (σ₀ : State) (e : Event) : Conf → Conf → Prop
  /-- `svr_next_command(new_client(fd))`. -/
  | connect (source : e.happening = .connect) :
      Effect σ₀ e ⟨{}, σ₀⟩ ⟨{}, σ₀.addClient.nextCommand σ₀.next⟩
  /-- A read that does not complete the buffer. -/
  | fill {σ : State} {c : ClientId} {x : Client} {handler : Handler} {b : BufId}
      {contents piece : Bytes} (live : σ.client c = some x) (into : x.input = some b)
      (reading : x.handler = some handler) (room : σ.buf b = some contents)
      (short : x.used + piece.length < contents.length)
      (source : ∃ input, e.happening = .ready c input) :
      Effect σ₀ e ⟨{}, σ⟩ ⟨{}, σ.fill c b (overwrite contents x.used piece) piece⟩
  /-- A read that completes the buffer. -/
  | begin {σ : State} {c : ClientId} {x : Client} {handler : Handler} {b : BufId}
      {contents filled : Bytes} (received : Received σ₀ e c handler filled)
      (live : σ.client c = some x) (into : x.input = some b) (reading : x.handler = some handler)
      (room : σ.buf b = some contents) (length : filled.length = contents.length)
      (nonempty : filled ≠ []) :
      Effect σ₀ e ⟨{}, σ⟩ ⟨.called c x handler b, σ.begin c handler b filled⟩
  /-- `svriowait` calls a handler at once, the buffer being empty. -/
  | call {φ : Phase} {σ : State} {c : ClientId} {handler : Handler} (running : φ.run = some c)
      (later : handler = .svrservice ∨ handler = .sendToWorker ∨ handler = .part2) :
      Effect σ₀ e ⟨φ, σ⟩ ⟨φ, σ.observe (.handled c handler [])⟩
  /-- Output to a client. -/
  | write {φ : Phase} {σ : State} {c : ClientId} {x : Client} {bytes : Bytes}
      (live : σ.client c = some x) (running : φ.run = some c) :
      Effect σ₀ e ⟨φ, σ⟩ ⟨φ, σ.write c bytes⟩
  /-- `tpfree` of the handler's buffer. -/
  | release {φ : Phase} {σ : State} {b : BufId} {contents : Bytes} (held : φ.held = some b)
      (room : σ.buf b = some contents) :
      Effect σ₀ e ⟨φ, σ⟩ ⟨{ φ with held := none }, σ.freeBuf b⟩
  /-- `tprealloc` of the handler's buffer. -/
  | resize {φ : Phase} {σ : State} {b : BufId} {contents data : Bytes} (held : φ.held = some b)
      (room : σ.buf b = some contents) :
      Effect σ₀ e ⟨φ, σ⟩ ⟨{ φ with held := some σ.next }, (σ.freeBuf b).allocBuf data⟩
  /-- `command` starts reading the fixed part of a message. -/
  | armHeader {φ : Phase} {σ : State} {c : ClientId} {x : Client} {handler : Handler} {b : BufId}
      {contents : Bytes} (running : φ.run = some c) (held : φ.held = some b)
      (live : σ.client c = some x) (idle : x.Idle) (room : σ.buf b = some contents)
      (nonempty : contents ≠ []) (fixed : handler.ownsData = false)
      (long : handler ≠ .svrservice) :
      Effect σ₀ e ⟨φ, σ⟩ ⟨{ φ with run := none, held := none }, σ.arm c handler b⟩
  /-- `svr_next_command`. -/
  | next {φ : Phase} {σ : State} {c : ClientId} {x : Client} (running : φ.run = some c)
      (live : σ.client c = some x) (idle : x.Idle) :
      Effect σ₀ e ⟨φ, σ⟩ ⟨φ, σ.nextCommand c⟩
  /-- `new_transaction`, and its entry in the client's requests. -/
  | submit {φ : Phase} {σ : State} {c : ClientId} {x : Client} {svc : Service} {tr : Transaction}
      {len : Nat} (running : φ.run = some c) (noUp : φ.up = none) (live : σ.client c = some x)
      (idle : x.Idle) (service : σ.service tr.svc = some svc) (client : tr.client = c)
      (data : tr.data = σ.next) (new : tr.executor = none) (cd : tr.cd = e.env.cd)
      (noDet : φ.det = none) (asked : ∃ filled, Received σ₀ e c .svracall filled)
      (short : len < 2 ^ 31) :
      Effect σ₀ e ⟨φ, σ⟩ ⟨{ φ with up := some (σ.next + 1) }, σ.submit tr len⟩
  /-- `svracall` starts reading the data of a transaction. -/
  | armUpload {φ : Phase} {σ : State} {c : ClientId} {x : Client} {t : TranId} {tr : Transaction}
      {contents : Bytes} (running : φ.run = some c) (up : φ.up = some t)
      (live : σ.client c = some x) (idle : x.Idle) (found : σ.tran t = some tr)
      (owner : tr.client = c) (room : σ.buf tr.data = some contents) (nonempty : contents ≠ [])
      (unread : ∀ k y, σ.client k = some y → y.input ≠ some tr.data) :
      Effect σ₀ e ⟨φ, σ⟩ ⟨{ φ with run := none, up := none }, σ.arm c .sendToWorker tr.data⟩
  /-- `send_to_worker` without a worker. -/
  | enqueue {φ : Phase} {σ : State} {t : TranId} {tr : Transaction} (up : φ.up = some t)
      (found : σ.tran t = some tr) (fits : σ.EmptyQueue tr.svc ∨ σ.Flagged tr.svc)
      (linkable : σ.Linkable tr.svc (.tran t)) (noDet : φ.det = none) :
      Effect σ₀ e ⟨φ, σ⟩ ⟨{ φ with up := none }, σ.enqueue tr.svc t⟩
  /-- `send_to_worker` with a worker. -/
  | assignUp {φ : Phase} {σ : State} {a : AdvertId} {v : Advert} {x : Client} {t : TranId}
      {tr : Transaction} {svc : Service} {contents frame : Bytes} (up : φ.up = some t)
      (found : σ.tran t = some tr) (offered : σ.service tr.svc = some svc)
      (workers : svc.waitContainsTransactions = false) (nonempty : ¬σ.EmptyQueue tr.svc)
      (first : σ.links.p2 (.head tr.svc) = .adv a) (advert : σ.advert a = some v)
      (worker : σ.client v.client = some x) (idle : x.Idle)
      (dismissable : σ.Dismissable (e.env.walk x.adverts))
      (room : σ.buf tr.data = some contents) (noDet : φ.det = none) (running : φ.run ≠ none)
      (sends : frame = workFrame v tr svc.svcname contents) :
      Effect σ₀ e ⟨φ, σ⟩
        ⟨{ φ with up := none }, (σ.dismiss (e.env.walk x.adverts)).assign a v t frame⟩
  /-- `svrservice` with a transaction waiting. -/
  | assignWork {φ : Phase} {σ : State} {c : ClientId} {x : Client} {a : AdvertId} {v : Advert}
      {y : Client} {t : TranId} {tr : Transaction} {contents frame : Bytes}
      (running : φ.run = some c) (asked : Commands σ₀ e c TPTWORK)
      (picked : Picks e.env σ₀ c a t) (live : σ.client c = some x) (mine : a ∈ x.adverts)
      (advert : σ.advert a = some v) (queued : σ.Flagged v.svc)
      (nonempty : ¬σ.EmptyQueue v.svc) (first : σ.links.p2 (.head v.svc) = .tran t)
      (worker : σ.client v.client = some y) (idle : y.Idle)
      (dismissable : σ.Dismissable (e.env.walk y.adverts)) (found : σ.tran t = some tr)
      (room : σ.buf tr.data = some contents) (noDet : φ.det = none)
      (fresh : ∀ a k t, .dispatched a k t ∈ σ.log → .dispatched a k t ∈ σ₀.log)
      (sends : ∃ svc, σ.service tr.svc = some svc ∧ frame = workFrame v tr svc.svcname contents) :
      Effect σ₀ e ⟨φ, σ⟩ ⟨φ, (σ.dismiss (e.env.walk y.adverts)).assign a v t frame⟩
  /-- `svrservice` without a transaction. -/
  | rest {φ : Phase} {σ : State} {c : ClientId} {x : Client} (running : φ.run = some c)
      (asked : Commands σ₀ e c TPTWORK) (live : σ.client c = some x) (idle : x.Idle)
      (noDet : φ.det = none) :
      Effect σ₀ e ⟨φ, σ⟩ ⟨{ φ with run := none, parked := some c }, σ⟩
  /-- One visit of `add_to_waitq`. -/
  | park {φ : Phase} {σ : State} {c : ClientId} {x : Client} {a : AdvertId} {v : Advert}
      (parked : φ.parked = some c) (live : σ.client c = some x) (mine : a ∈ x.adverts)
      (advert : σ.advert a = some v) (fits : σ.Flagged v.svc → σ.EmptyQueue v.svc)
      (linkable : σ.Linkable v.svc (.adv a)) (asked : Commands σ₀ e c TPTWORK)
      (untouched : σ₀.advert a = some v ∧ σ.links.p1 (.adv a) = σ₀.links.p1 (.adv a) ∧
        σ.links.p2 (.adv a) = σ₀.links.p2 (.adv a)) :
      Effect σ₀ e ⟨φ, σ⟩ ⟨φ, σ.park v.svc a⟩
  /-- `svrgetrply` leaves its client waiting. -/
  | block {φ : Phase} {σ : State} {c : ClientId} {x : Client} {w : Wait}
      (running : φ.run = some c) (live : σ.client c = some x) (idle : x.Idle)
      (asked : ∃ filled, Received σ₀ e c .svrgetrply filled)
      (awaited : w = .any ∧ x.replies = [] ∨ ∃ t, w = .tran t ∧ t ∈ x.requests)
      (noFin : φ.fin = none) :
      Effect σ₀ e ⟨φ, σ⟩ ⟨{ φ with run := none }, σ.block c w⟩
  /-- `svrgetrply` finds a reply. -/
  | replyQueued {φ : Phase} {σ : State} {c : ClientId} {x y : Client} {t : TranId}
      {tr : Transaction} {contents : Bytes} (running : φ.run = some c)
      (asked : ∃ filled, Received σ₀ e c .svrgetrply filled) (live : σ.client c = some x)
      (queued : t ∈ x.replies) (owner : σ.client tr.client = some y) (idle : y.Idle)
      (deletable : σ.Deletable t tr) (room : σ.buf tr.data = some contents) :
      Effect σ₀ e ⟨φ, σ⟩ ⟨φ, σ.reply t tr contents⟩
  /-- A finished transaction goes to its waiting client. -/
  | replyWaiting {φ : Phase} {σ : State} {x : Client} {t : TranId} {tr : Transaction}
      {contents : Bytes} (fin : φ.fin = some t) (live : σ.client tr.client = some x)
      (idle : x.Idle) (waiting : x.wait4 = some (.tran t) ∨ φ.closing = none ∧ x.wait4 = some .any)
      (deletable : σ.Deletable t tr) (room : σ.buf tr.data = some contents) :
      Effect σ₀ e ⟨φ, σ⟩ ⟨{ φ with fin := none }, σ.reply t tr contents⟩
  /-- A finished transaction is put among the replies. -/
  | requeue {φ : Phase} {σ : State} {x : Client} {t : TranId} {tr : Transaction}
      (fin : φ.fin = some t) (found : σ.tran t = some tr) (live : σ.client tr.client = some x)
      (elsewhere : x.wait4 ≠ some (.tran t)) (noAny : φ.closing = none → x.wait4 ≠ some .any) :
      Effect σ₀ e ⟨φ, σ⟩ ⟨{ φ with fin := none }, σ.requeue t tr⟩
  /-- `svrreturn` stores the result. -/
  | setReturn {φ : Phase} {σ : State} {c : ClientId} {x : Client} {t : TranId} {tr : Transaction}
      {contents data : Bytes} {rval : BitVec 32} {rcode : BitVec 64} (running : φ.run = some c)
      (live : σ.client c = some x) (serves : x.wait4 = some (.tran t)) (found : σ.tran t = some tr)
      (room : σ.buf tr.data = some contents) (short : data.length < 2 ^ 31)
      (asked : ∃ filled, Received σ₀ e c .svrreturn filled) :
      Effect σ₀ e ⟨φ, σ⟩ ⟨φ, σ.setReturn t tr.data rval rcode data⟩
  /-- `svrreturn` starts reading the data of the result. -/
  | armReturn {φ : Phase} {σ : State} {c : ClientId} {x : Client} {t : TranId} {tr : Transaction}
      {contents : Bytes} (running : φ.run = some c) (live : σ.client c = some x) (idle : x.Idle)
      (serves : x.wait4 = some (.tran t)) (found : σ.tran t = some tr)
      (room : σ.buf tr.data = some contents) (nonempty : contents ≠ [])
      (asked : ∃ filled, Received σ₀ e c .svrreturn filled)
      (unread : ∀ k y, σ.client k = some y → y.input ≠ some tr.data) :
      Effect σ₀ e ⟨φ, σ⟩ ⟨{ φ with run := none }, σ.arm c .part2 tr.data⟩
  /-- `part2` takes the transaction from its worker. -/
  | finish {φ : Phase} {σ : State} {c : ClientId} {x : Client} {t : TranId} {tr : Transaction}
      (running : φ.run = some c) (noFin : φ.fin = none) (live : σ.client c = some x)
      (serves : x.wait4 = some (.tran t)) (found : σ.tran t = some tr) (asked : Returns σ₀ e c) :
      Effect σ₀ e ⟨φ, σ⟩ ⟨{ φ with fin := some t }, σ.finish c t id⟩
  /-- `del_client` takes the transaction from its worker. -/
  | fail {φ : Phase} {σ : State} {c : ClientId} {x : Client} {t : TranId} {tr : Transaction}
      {a : AdvertId} {v : Advert} (closing : φ.closing = some c) (noFin : φ.fin = none)
      (live : σ.client c = some x) (serves : x.wait4 = some (.tran t)) (found : σ.tran t = some tr)
      (executor : tr.executor = some a) (advert : σ.advert a = some v) (mine : v.client = c)
      (unsettled : φ.settled = false) (same : SameTables σ₀ σ) :
      Effect σ₀ e ⟨φ, σ⟩
        ⟨{ φ with fin := some t, settled := true }, σ.finish c t fun tr =>
          { tr with rval := TPERRNO, rcode := BitVec.ofNat 64 TPESVCERR }⟩
  /-- `del_client` finds that its client is executing nothing. -/
  | spare {φ : Phase} {σ : State} {c : ClientId} {x : Client} (closing : φ.closing = some c)
      (unsettled : φ.settled = false) (noFin : φ.fin = none) (live : σ.client c = some x)
      (nothing : ∀ t tr a v, x.wait4 = some (.tran t) → σ.tran t = some tr →
        tr.executor = some a → σ.advert a = some v → v.client ≠ c) (same : SameTables σ₀ σ) :
      Effect σ₀ e ⟨φ, σ⟩ ⟨{ φ with settled := true }, σ⟩
  /-- `new_service` makes a service. -/
  | found {φ : Phase} {σ : State} {c : ClientId} {svcname : Bytes} (running : φ.run = some c)
      (absent : σ.fndService svcname = none) (noDet : φ.det = none) (noMade : φ.made = none) :
      Effect σ₀ e ⟨φ, σ⟩ ⟨{ φ with made := some σ.next }, σ.addService svcname⟩
  /-- `new_advertisement` makes an advertisement. -/
  | offer {φ : Phase} {σ : State} {c : ClientId} {x : Client} {v : Advert} {svcname : Bytes}
      (running : φ.run = some c) (noDet : φ.det = none) (noOrphan : φ.orphan = none)
      (live : σ.client c = some x) (client : v.client = c)
      (service : σ.fndService svcname = some v.svc)
      (absent : σ.fndAdvertisement c svcname = none)
      (first : ∀ s, φ.made = some s → v.svc = s)
      (asked : Advertises σ₀ e c svcname v.opaqueFunc) :
      Effect σ₀ e ⟨φ, σ⟩ ⟨{ φ with made := none }, σ.offer v⟩
  /-- `del_client` is called. -/
  | close {φ : Phase} {σ : State} {c : ClientId} {x : Client} (closes : Closes σ₀ e c)
      (quiet : φ = {} ∨ φ = { run := some c }) (live : σ.client c = some x) :
      Effect σ₀ e ⟨φ, σ⟩ ⟨{ closing := some c }, σ⟩
  /-- `del_advertisement` unlinks an advertisement. -/
  | detach {φ : Phase} {σ : State} {c : ClientId} {x : Client} {a : AdvertId} {v : Advert}
      (noDet : φ.det = none) (noOrphan : φ.orphan = none) (live : σ.client c = some x)
      (mine : a ∈ x.adverts)
      (reason : φ.closing = some c ∧ φ.settled = true ∨
        φ.run = some c ∧ Unadvertises σ₀ e c a ∧ SameTables σ₀ σ)
      (advert : σ.advert a = some v) (unlinkable : σ.Unlinkable (.adv a)) (noFin : φ.fin = none) :
      Effect σ₀ e ⟨φ, σ⟩ ⟨{ φ with det := some a }, σ.detach a v.client⟩
  /-- `del_advertisement` finds no other advertisement. -/
  | orphan {φ : Phase} {σ : State} {a : AdvertId} {v : Advert} {svc : Service}
      (det : φ.det = some a) (noOrphan : φ.orphan = none) (advert : σ.advert a = some v)
      (service : σ.service v.svc = some svc) (alone : σ.someoneAdvertises svc.svcname = false) :
      Effect σ₀ e ⟨φ, σ⟩ ⟨{ φ with orphan := some v.svc }, σ⟩
  /-- `del_service` deletes a waiting transaction. -/
  | sweep {φ : Phase} {σ : State} {s : ServiceId} {t : TranId} {tr : Transaction}
      (orphan : φ.orphan = some s) (queued : σ.Flagged s) (nonempty : ¬σ.EmptyQueue s)
      (first : σ.links.p2 (.head s) = .tran t) (deletable : σ.Deletable t tr) :
      Effect σ₀ e ⟨φ, σ⟩ ⟨φ, σ.delTran t tr⟩
  /-- `del_service` frees the service. -/
  | dropService {φ : Phase} {σ : State} {s : ServiceId} (orphan : φ.orphan = some s)
      (empty : σ.EmptyQueue s) :
      Effect σ₀ e ⟨φ, σ⟩ ⟨{ φ with orphan := none }, σ.dropService s⟩
  /-- `del_advertisement` frees the advertisement. -/
  | dropAdvert {φ : Phase} {σ : State} {a : AdvertId} (det : φ.det = some a)
      (noOrphan : φ.orphan = none)
      (others : ∀ v svc, σ.advert a = some v → σ.service v.svc = some svc →
        ∃ b w, b ≠ a ∧ σ.advert b = some w ∧ w.svc = v.svc) :
      Effect σ₀ e ⟨φ, σ⟩ ⟨{ φ with det := none }, σ.dropAdvert a⟩
  /-- `del_client` deletes a transaction of its client. -/
  | purge {φ : Phase} {σ : State} {c : ClientId} {x : Client} {t : TranId} {tr : Transaction}
      (closing : φ.closing = some c) (noDet : φ.det = none) (noFin : φ.fin = none)
      (noUp : φ.up = none) (live : σ.client c = some x) (withdrawn : x.adverts = [])
      (mine : t ∈ x.requests ∨ t ∈ x.replies) (deletable : σ.Deletable t tr) :
      Effect σ₀ e ⟨φ, σ⟩ ⟨φ, σ.delTran t tr⟩
  /-- `del_client` frees the client. -/
  | dropClient {φ : Phase} {σ : State} {c : ClientId} {x : Client} (closing : φ.closing = some c)
      (noDet : φ.det = none) (noFin : φ.fin = none) (live : σ.client c = some x)
      (withdrawn : x.adverts = []) (noRequests : x.requests = []) (noReplies : x.replies = []) :
      Effect σ₀ e ⟨φ, σ⟩ ⟨{ φ with closing := none, settled := false }, σ.dropClient c⟩
  /-- A handler returns. -/
  | done {φ : Phase} {σ : State} (quiet : φ = {} ∨ (∃ c, φ = { run := some c }) ∨
        ∃ c, φ = { parked := some c }) :
      Effect σ₀ e ⟨φ, σ⟩ ⟨{}, σ⟩

/-- A sequence of effects of one event. -/
abbrev Trace (σ₀ : State) (e : Event) : Conf → Conf → Prop :=
  Relation.ReflTransGen (Effect σ₀ e)

end Switchboard
end Xatmi
