import Xatmi.Switchboard.Buffers

/-!
# The invariant of the switchboard

What holds in every reachable memory and between any two effects of a handler.
-/

namespace Xatmi
namespace Switchboard

theorem WaitQueues.reply {σ : State} (inv : WaitQueues σ) {t : TranId} {tr : Transaction}
    (found : σ.tran t = some tr) (contents : Bytes) : WaitQueues (σ.reply t tr contents) := by
  have armed : WaitQueues (((σ.write tr.client (replyFrame tr contents)).nextCommand
      tr.client).mapClient tr.client fun x => { x with wait4 := none }) :=
    inv.congr rfl rfl rfl (fun _ => rfl) (Nat.le_succ _)
  exact armed.delTran found

theorem WaitQueues.submit {σ : State} (inv : WaitQueues σ) (tr : Transaction) (len : Nat) :
    WaitQueues (σ.submit tr len) := by
  have roomy : WaitQueues (σ.allocBuf (List.replicate len 0)) :=
    inv.congr rfl rfl rfl (fun _ => rfl) (Nat.le_succ _)
  exact (roomy.addTran tr).congr rfl rfl rfl (fun _ => rfl) (Nat.le_refl _)

theorem WaitQueues.setReturn {σ : State} (inv : WaitQueues σ) (t : TranId) (b : BufId)
    (rval : BitVec 32) (rcode : BitVec 64) (data : Bytes) :
    WaitQueues (σ.setReturn t b rval rcode data) := by
  have stored : WaitQueues (σ.mapTran t fun tr => { tr with rval, rcode }) :=
    inv.congr rfl rfl rfl (fun _ => change_map fun _ => rfl) (Nat.le_refl _)
  exact stored.congr rfl rfl rfl (fun _ => change_map fun _ => rfl) (Nat.le_succ _)

theorem WaitQueues.effect {σ₀ : State} {e : Event} {φ φ' : Phase} {σ τ : State}
    (inv : WaitQueues σ) (dispatches : Dispatches φ σ) (eff : Effect σ₀ e ⟨φ, σ⟩ ⟨φ', τ⟩) :
    WaitQueues τ := by
  cases eff with
  | fill | begin | call | write | release | armHeader | armUpload | block | requeue | armReturn
  | dropClient => exact inv.congr rfl rfl rfl (fun _ => rfl) (Nat.le_refl _)
  | connect =>
      exact inv.congr rfl rfl rfl (fun _ => rfl) ((Nat.le_succ _).trans (Nat.le_succ _))
  | resize | next => exact inv.congr rfl rfl rfl (fun _ => rfl) (Nat.le_succ _)
  | finish | fail => exact inv.congr rfl rfl rfl (fun _ => change_map fun _ => rfl) (Nat.le_refl _)
  | setReturn => exact inv.setReturn _ _ _ _ _
  | rest | spare | close | orphan | done => exact inv
  | submit => exact inv.submit _ _
  | enqueue up found fits linkable =>
      obtain ⟨svc, current⟩ := Option.isSome_iff_exists.mp linkable.1
      obtain ⟨_, _, uploading, _⟩ := dispatches.uploaded _ up
      exact inv.enqueue found current uploading.alone fits
  | assignUp _ _ _ _ _ _ _ _ _ dismissable =>
      exact (inv.dismiss dismissable).congr rfl rfl rfl (fun _ => change_map fun _ => rfl)
        (Nat.le_succ _)
  | assignWork _ _ _ _ _ _ _ _ _ _ _ dismissable =>
      exact (inv.dismiss dismissable).congr rfl rfl rfl (fun _ => change_map fun _ => rfl)
        (Nat.le_succ _)
  | park _ _ _ advert fits linkable => exact inv.park advert fits linkable
  | replyQueued _ _ _ _ _ _ deletable => exact inv.reply deletable.live _
  | replyWaiting _ _ _ _ deletable => exact inv.reply deletable.live _
  | found => exact inv.addService _
  | offer => exact (inv.addAdvert _).congr rfl rfl rfl (fun _ => rfl) (Nat.le_refl _)
  | detach _ _ _ _ _ advert unlinkable =>
      exact (inv.unlink_adv advert unlinkable).congr rfl rfl rfl (fun _ => rfl) (Nat.le_refl _)
  | sweep _ _ _ _ deletable => exact inv.delTran deletable.live
  | purge _ _ _ _ _ _ _ deletable => exact inv.delTran deletable.live
  | dropService _ empty => exact inv.dropService empty
  | dropAdvert => exact inv.dropAdvert _

/-! ## Connections -/

/-- The fields that say what is being read agree, and a `TPTWORK`, which has no fixed part, is never
waited for. -/
structure Client.Proper (x : Client) : Prop where
  idle : x.handler = none → x.Idle
  reading : x.input = none → x.handler = none
  service : x.handler ≠ some .svrservice

/-- Every connection is in order. -/
def Readers (σ : State) : Prop :=
  ∀ c x, σ.client c = some x → x.Proper

namespace Readers

variable {φ φ' : Phase} {σ τ : State}

theorem start : Readers .start := by
  simp [Readers, State.start]

theorem congr (inv : Readers σ) (client : τ.client = σ.client) : Readers τ :=
  fun c x live => inv c x (client ▸ live)

theorem mapClient (inv : Readers σ) {c : ClientId} {update : Client → Client}
    (proper : ∀ x, σ.client c = some x → x.Proper → (update x).Proper) :
    Readers (σ.mapClient c update) := by
  intro k y live
  obtain ⟨x, live', rfl⟩ := change_eq_some_iff.mp live
  split
  · rename_i same
    subst same
    exact proper x live' (inv k x live')
  · exact inv k x live'

/-- Effects on what a client has and waits for. -/
theorem keep (inv : Readers σ) {c : ClientId} {update : Client → Client}
    (same : ∀ x, (update x).handler = x.handler ∧ (update x).input = x.input ∧
      (update x).used = x.used) : Readers (σ.mapClient c update) := by
  refine inv.mapClient fun x _ proper => ?_
  obtain ⟨handler, input, used⟩ := same x
  obtain ⟨idle, reading, service⟩ := proper
  constructor
  · rw [handler, Client.Idle, handler, input, used]
    exact idle
  · rw [handler, input]
    exact reading
  · rw [handler]
    exact service

theorem arm (inv : Readers σ) {c : ClientId} {handler : Handler} {b : BufId}
    (long : handler ≠ .svrservice) : Readers (σ.arm c handler b) := by
  refine inv.mapClient fun x _ _ => ⟨by simp, by simp, ?_⟩
  exact fun same => long (Option.some.inj same)

theorem nextCommand (inv : Readers σ) (c : ClientId) : Readers (σ.nextCommand c) :=
  arm (inv.congr rfl) (by decide)

theorem delTran (inv : Readers σ) (t : TranId) (tr : Transaction) : Readers (σ.delTran t tr) := by
  intro k y live
  obtain ⟨x, live', rfl⟩ := Option.map_eq_some_iff.mp live
  exact ⟨(inv k x live').idle, (inv k x live').reading, (inv k x live').service⟩

theorem reply (inv : Readers σ) (t : TranId) (tr : Transaction) (contents : Bytes) :
    Readers (σ.reply t tr contents) := by
  have written : Readers (σ.write tr.client (replyFrame tr contents)) := inv.congr rfl
  refine delTran ?_ t tr
  refine keep ?_ fun _ => ⟨rfl, rfl, rfl⟩
  exact written.nextCommand tr.client

theorem assign (inv : Readers σ) (a : AdvertId) (v : Advert) (t : TranId) (frame : Bytes) :
    Readers (σ.assign a v t frame) := by
  have serving : Readers (σ.mapClient v.client fun x => { x with wait4 := some (.tran t) }) :=
    inv.keep fun _ => ⟨rfl, rfl, rfl⟩
  refine nextCommand ?_ v.client
  exact serving.congr rfl

theorem begin (inv : Readers σ) (c : ClientId) (handler : Handler) (b : BufId) (filled : Bytes) :
    Readers (σ.begin c handler b filled) := by
  have resting : Readers (σ.mapClient c fun x =>
      { x with handler := none, input := none, used := 0 }) :=
    inv.mapClient fun x _ _ => ⟨fun _ => ⟨rfl, rfl, rfl⟩, fun _ => rfl, by simp⟩
  exact resting.congr rfl

theorem finish (inv : Readers σ) (c : ClientId) (t : TranId) (result : Transaction → Transaction) :
    Readers (σ.finish c t result) := by
  have free : Readers (σ.mapClient c fun x => { x with wait4 := none }) :=
    inv.keep fun _ => ⟨rfl, rfl, rfl⟩
  exact free.congr rfl

theorem effect {σ₀ : State} {e : Event} (inv : Readers σ) (eff : Effect σ₀ e ⟨φ, σ⟩ ⟨φ', τ⟩) :
    Readers τ := by
  cases eff with
  | connect =>
      refine nextCommand ?_ _
      intro c x live
      rcases put_eq_some_iff.mp live with ⟨_, made⟩ | ⟨_, live⟩
      · rw [← Option.some.inj made]
        exact ⟨fun _ => ⟨rfl, rfl, rfl⟩, fun _ => rfl, by simp⟩
      · exact inv c x live
  | fill live _ reading =>
      refine mapClient (inv.congr rfl) fun x live' proper => ?_
      obtain rfl := Option.some.inj (live.symm.trans live')
      exact ⟨by simp [reading], proper.reading, proper.service⟩
  | begin => exact inv.begin _ _ _ _
  | call | write | release | resize | enqueue | park | setReturn | found | dropService
  | dropAdvert => exact inv.congr rfl
  | rest | spare | close | orphan | done => exact inv
  | armHeader _ _ _ _ _ _ _ long => exact inv.arm long
  | next => exact inv.nextCommand _
  | submit | offer | detach =>
      refine keep ?_ fun _ => ⟨rfl, rfl, rfl⟩
      exact inv.congr rfl
  | block | requeue => exact inv.keep fun _ => ⟨rfl, rfl, rfl⟩
  | armUpload | armReturn => exact inv.arm (by decide)
  | assignUp | assignWork =>
      refine assign ?_ _ _ _ _
      exact inv.congr rfl
  | replyQueued | replyWaiting => exact inv.reply _ _ _
  | finish | fail => exact inv.finish _ _ _
  | sweep | purge => exact inv.delTran _ _
  | dropClient =>
      intro k x live
      rcases put_eq_some_iff.mp live with ⟨_, impossible⟩ | ⟨_, live⟩
      · cases impossible
      · exact inv k x live

end Readers

/-! ## Phases -/

/-- What can be in the hands of the running code at the same time. -/
structure Phase.Ok (φ : Phase) : Prop where
  closing : ∀ c, φ.closing = some c → φ.run = none ∧ φ.up = none ∧ φ.held = none ∧ φ.parked = none
  parked : ∀ c, φ.parked = some c → φ.run = none ∧ φ.det = none
  settled : φ.settled = true → ∃ c, φ.closing = some c
  orphan : ∀ s, φ.orphan = some s → ∃ a, φ.det = some a

theorem Phase.Ok.effect {σ₀ : State} {e : Event} {φ φ' : Phase} {σ τ : State} (ok : φ.Ok)
    (eff : Effect σ₀ e ⟨φ, σ⟩ ⟨φ', τ⟩) : φ'.Ok := by
  obtain ⟨closing, parked, settled, orphan⟩ := ok
  cases eff with
  | connect | fill | call | write | next | assignWork | park | replyQueued | setReturn | found
  | offer | sweep | purge => exact ⟨closing, parked, settled, orphan⟩
  | begin => constructor <;> simp [Phase.called]
  | detach noDet noOrphan _ _ reason =>
      refine ⟨closing, ?_, settled, by simp [noOrphan]⟩
      intro c resting
      rcases reason with ⟨closed, _⟩ | ⟨running, _⟩
      · simp [(closing _ closed).2.2.2] at resting
      · simp [(parked c resting).1] at running
  | _ => constructor <;> simp_all

/-! ## The invariant -/

/-- The invariant. -/
structure Inv (κ : Conf) : Prop where
  phases : κ.phase.Ok
  waits : WaitQueues κ.state
  registry : Registry κ.phase κ.state
  own : Ownership κ.state
  fresh : Fresh κ.state
  dispatches : Dispatches κ.phase κ.state
  buffers : Buffers κ.phase κ.state
  readers : Readers κ.state

namespace Inv

variable {σ₀ : State} {e : Event} {κ κ' : Conf}

theorem start : Inv ⟨{}, .start⟩ :=
  ⟨⟨by simp, by simp, by simp, by simp⟩, .start, .start, .start, .start, .start, .start, .start⟩

theorem effect (inv : Inv κ) (eff : Effect σ₀ e κ κ') : Inv κ' := by
  obtain ⟨phases, waits, registry, own, fresh, dispatches, buffers, readers⟩ := inv
  have freshClient := fresh.client_next registry
  exact ⟨phases.effect eff, waits.effect dispatches eff,
    registry.effect freshClient waits.fresh_service waits.fresh_advert eff,
    own.effect freshClient (waits.fresh_tran (Nat.le_succ _)) eff,
    fresh.effect waits registry eff, dispatches.effect fresh waits registry own eff,
    buffers.effect fresh eff, readers.effect eff⟩

theorem trace (inv : Inv κ) (trace : Trace σ₀ e κ κ') : Inv κ' := by
  induction trace with
  | refl => exact inv
  | tail _ eff ih => exact ih.effect eff

end Inv

end Switchboard
end Xatmi
