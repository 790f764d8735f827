import Xatmi.Lib.Paths
import Xatmi.Switchboard.Handover
import Xatmi.Switchboard.Turns
import Xatmi.Switchboard.Survival
import Xatmi.Switchboard.Scenario

/-!
# The switchboard as a broker

A broker leads each request through one life: its data arrives, it waits for a worker or is assigned
to one at once, the worker finishes it or fails, and the result is handed to the client that
submitted it. In an orderly run every event the switchboard handles is some steps of the broker,
each with its cause.
-/

namespace Xatmi
namespace Switchboard

open Intrusive Transitions

/-! ## The broker -/

/-- How far a request has come. -/
inductive Stage
  | uploading
  | waiting
  | executing (worker : ClientId)
  | finished
  deriving DecidableEq

/-- A request and the client that submitted it. -/
structure Request where
  client : ClientId
  stage : Stage
  deriving DecidableEq

/-- What happens to a request. -/
inductive Action
  | submit (client : ClientId)
  | store (client : ClientId)
  | assign (client worker : ClientId)
  | fetch (worker : ClientId)
  | finish (worker : ClientId)
  | fail (worker : ClientId)
  | answer (client : ClientId)
  | lose
  deriving DecidableEq

/-- The life of a request. -/
inductive Life : Option Request → Action → Option Request → Prop
  | submit (c : ClientId) : Life none (.submit c) (some ⟨c, .uploading⟩)
  | store (c : ClientId) : Life (some ⟨c, .uploading⟩) (.store c) (some ⟨c, .waiting⟩)
  | assign (c w : ClientId) : Life (some ⟨c, .uploading⟩) (.assign c w) (some ⟨c, .executing w⟩)
  | fetch (c w : ClientId) : Life (some ⟨c, .waiting⟩) (.fetch w) (some ⟨c, .executing w⟩)
  | finish (c w : ClientId) : Life (some ⟨c, .executing w⟩) (.finish w) (some ⟨c, .finished⟩)
  | fail (c w : ClientId) : Life (some ⟨c, .executing w⟩) (.fail w) (some ⟨c, .finished⟩)
  | answer (c : ClientId) : Life (some ⟨c, .finished⟩) (.answer c) none
  | lose (r : Request) : Life (some r) .lose none

/-- Requests by number, and a bound on the numbers in use. -/
structure Broker where
  next : TranId
  request : TranId → Option Request

/-- One request moves on.  A new one has a number that was never in use. -/
structure Broker.Step (b : Broker) (act : TranId × Action) (b' : Broker) : Prop where
  life : Life (b.request act.1) act.2 (b'.request act.1)
  others : ∀ t, t ≠ act.1 → b'.request t = b.request t
  next_le : b.next ≤ b'.next
  new : ∀ c, act.2 = .submit c → b.next ≤ act.1 ∧ act.1 < b'.next

/-! ### Lives -/

/-- The actions lead to the answer to client `c`, as far as they go, or end with a loss. -/
def Leads (c : ClientId) (whole actions : List Action) : Prop :=
  (∃ later, actions ++ later = whole ++ [.answer c]) ∨
    ∃ done later, done ++ later = whole ∧ actions = done ++ [.lose]

namespace Leads

variable {c : ClientId} {whole actions : List Action}

theorem nil : Leads c whole [] :=
  .inl ⟨whole ++ [.answer c], rfl⟩

theorem lost : Leads c whole [.lose] :=
  .inr ⟨[], whole, rfl, rfl⟩

theorem cons (leads : Leads c whole actions) (action : Action) :
    Leads c (action :: whole) (action :: actions) := by
  rcases leads with ⟨later, same⟩ | ⟨done, later, same, rfl⟩
  · exact .inl ⟨later, congrArg (action :: ·) same⟩
  · exact .inr ⟨action :: done, later, congrArg (action :: ·) same, rfl⟩

end Leads

/-- The actions are about a request that has been submitted before. -/
def Submitted (actions : List Action) : Prop :=
  ∀ c, .submit c ∉ actions

theorem Submitted.tail {action : Action} {actions : List Action}
    (submitted : Submitted (action :: actions)) :
    Submitted actions :=
  fun c member => submitted c (List.mem_cons_of_mem action member)

namespace Life

variable {c w : ClientId} {actions : List Action} {r : Option Request}

end Life

namespace Broker

variable {b b' : Broker} {t : TranId} {acts : List (TranId × Action)}

theorem life_of_path (path : Path Step b acts b') (t : TranId) :
    Path Life (b.request t) (labelsOf t acts) (b'.request t) :=
  path.member (fun _ _ _ moved => ⟨moved.life, moved.others⟩) t

end Broker

/-! ## Requests of the switchboard -/

instance (links : Links Node) (n : Node) : Decidable (links.Alone n) :=
  inferInstanceAs (Decidable (_ ∧ _))

namespace State

/-- How far transaction `t` has come. -/
def stage (σ : State) (t : TranId) (tr : Transaction) : Stage :=
  match σ.worker tr with
  | some w => .executing w
  | none =>
      if t ∈ σ.handedOut then .finished
      else if σ.links.Alone (.tran t) then .uploading
      else .waiting

/-- The request of number `t`. -/
def request (σ : State) (t : TranId) : Option Request :=
  (σ.tran t).map fun tr => ⟨tr.client, σ.stage t tr⟩

end State

variable {σ₀ σ τ : State} {e : Event} {φ φ' : Phase} {t : TranId} {tr : Transaction}

theorem State.worker_eq_none_of_executor (new : tr.executor = none) : σ.worker tr = none := by
  simp [State.worker, new]

theorem State.request_of_worker {w : ClientId} (found : σ.tran t = some tr)
    (works : σ.worker tr = some w) :
    σ.request t = some ⟨tr.client, .executing w⟩ := by
  simp [State.request, State.stage, found, works]

theorem State.executor_of_request {c w : ClientId}
    (executing : σ.request t = some ⟨c, .executing w⟩) :
    ∃ tr a, σ.tran t = some tr ∧ tr.executor = some a := by
  obtain ⟨tr, found, same⟩ := Option.map_eq_some_iff.mp executing
  obtain ⟨_, stage⟩ := Request.mk.inj same
  cases executor : tr.executor with
  | some a => exact ⟨tr, a, found, executor⟩
  | none =>
      simp only [State.stage, State.worker_eq_none_of_executor executor] at stage
      split_ifs at stage

theorem State.request_of_finished (found : σ.tran t = some tr) (idle : tr.executor = none)
    (given : σ.Dispatched t) :
    σ.request t = some ⟨tr.client, .finished⟩ := by
  simp [State.request, State.stage, found, State.worker_eq_none_of_executor idle,
    State.mem_handedOut_iff, given]

theorem State.request_of_alone (found : σ.tran t = some tr) (idle : tr.executor = none)
    (new : ¬σ.Dispatched t) (alone : σ.links.Alone (.tran t)) :
    σ.request t = some ⟨tr.client, .uploading⟩ := by
  simp [State.request, State.stage, found, State.worker_eq_none_of_executor idle,
    State.mem_handedOut_iff, new, alone]

theorem State.request_of_linked (found : σ.tran t = some tr) (idle : tr.executor = none)
    (new : ¬σ.Dispatched t) (linked : ¬σ.links.Alone (.tran t)) :
    σ.request t = some ⟨tr.client, .waiting⟩ := by
  simp [State.request, State.stage, found, State.worker_eq_none_of_executor idle,
    State.mem_handedOut_iff, new, linked]

theorem State.request_of_absent (gone : σ.tran t = none) : σ.request t = none := by
  simp [State.request, gone]

/-! ### Finished transactions -/

/-- Transaction `t` has a result, which is on its way to the client or among the replies. -/
def Completed (φ : Phase) (σ : State) (t : TranId) : Prop :=
  φ.fin = some t ∨ ∃ c x, σ.client c = some x ∧ t ∈ x.replies

theorem dispatched_of_completed (dispatches : Dispatches φ σ) (completed : Completed φ σ t) :
    σ.Dispatched t := by
  rcases completed with fin | ⟨c, x, live, member⟩
  · exact dispatches.finished t fin
  · exact dispatches.replied c x t live member

/-- Nobody executes a transaction that has a result. -/
def Concluded (φ : Phase) (σ : State) : Prop :=
  ∀ t tr, Completed φ σ t → σ.tran t = some tr → tr.executor = none

namespace Concluded

theorem mono (inv : Concluded φ σ) (completed : ∀ t, Completed φ' τ t → Completed φ σ t)
    (tran : ∀ t tr, τ.tran t = some tr → Completed φ σ t →
      ∃ tr', σ.tran t = some tr' ∧ (tr'.executor = none → tr.executor = none)) :
        Concluded φ' τ := by
  intro t tr done found
  have done' := completed t done
  obtain ⟨tr', found', same⟩ := tran t tr found done'
  exact same (inv t tr' done' found')

/-- What touches neither executors nor replies. -/
theorem congr (inv : Concluded φ σ) (fin : φ'.fin = φ.fin)
    (client : ∀ c, (τ.client c).map Client.replies = (σ.client c).map Client.replies)
    (tran : ∀ t, (τ.tran t).map Transaction.executor = (σ.tran t).map Transaction.executor) :
    Concluded φ' τ := by
  refine inv.mono ?_ ?_
  · rintro t (done | ⟨c, x, live, member⟩)
    · exact .inl (fin ▸ done)
    · obtain ⟨x', live', same⟩ := exists_of_map_eq (client c) live
      exact .inr ⟨c, x', live', same ▸ member⟩
  · intro t tr found _
    obtain ⟨tr', found', same⟩ := exists_of_map_eq (tran t) found
    exact ⟨tr', found', fun none => same.symm.trans none⟩

theorem delTran (inv : Concluded φ σ) (t : TranId) (tr : Transaction) :
    Concluded φ (σ.delTran t tr) := by
  refine inv.mono ?_ fun _ tr found _ => ⟨tr, (put_none_eq_some_iff.mp found).2, id⟩
  rintro t' (done | ⟨c, y, live, member⟩)
  · exact .inl done
  · obtain ⟨x, live', rfl⟩ := Option.map_eq_some_iff.mp live
    refine .inr ⟨c, x, live', ?_⟩
    simp only [State.bereave] at member
    split at member
    · exact List.mem_of_mem_erase member
    · exact member

theorem reply (inv : Concluded φ σ) (t : TranId) (tr : Transaction) (contents : Bytes) :
    Concluded φ (σ.reply t tr contents) := by
  apply delTran
  refine inv.congr rfl (fun c => ?_) fun _ => rfl
  exact (congrArg _ (congrFun (change_change _ _ _ _) c)).trans (change_map fun _ => rfl)

/-- A transaction without a result is given a worker. -/
theorem assign (inv : Concluded φ σ) {a : AdvertId} {v : Advert} {frame : Bytes}
    (unfinished : ¬Completed φ σ t) : Concluded φ (σ.assign a v t frame) := by
  have kept : ∀ t', Completed φ (σ.assign a v t frame) t' → Completed φ σ t' := by
    rintro t' (done | ⟨c, y, live, member⟩)
    · exact .inl done
    · rw [show (σ.assign a v t frame).client = change σ.client v.client _ from change_change _ _ _
        _] at live
      obtain ⟨x, live', rfl⟩ := change_eq_some_iff.mp live
      refine .inr ⟨c, x, live', ?_⟩
      split at member <;> exact member
  refine inv.mono kept ?_
  intro t' tr found done
  obtain ⟨tr', found', rfl⟩ := change_eq_some_iff.mp found
  refine ⟨tr', found', ?_⟩
  rw [if_neg]
  · exact id
  · rintro rfl
    exact unfinished done

/-- The transaction is taken from its worker. -/
theorem finish (inv : Concluded φ σ) {c : ClientId} {result : Transaction → Transaction}
    (fin : ∀ t', φ'.fin = some t' → t' = t) : Concluded φ' (σ.finish c t result) := by
  intro t' tr done found
  obtain ⟨tr', found', rfl⟩ := change_eq_some_iff.mp found
  by_cases same : t' = t
  · rw [if_pos same]
  · rw [if_neg same]
    refine inv t' tr' (.inr ?_) found'
    rcases done with done | ⟨k, y, live, member⟩
    · exact absurd (fin t' done) same
    · obtain ⟨x, live', rfl⟩ := change_eq_some_iff.mp live
      refine ⟨k, x, live', ?_⟩
      split at member <;> exact member

theorem effect (inv : Concluded φ σ) (sound : Sound ⟨φ, σ⟩) (new : PicksNew σ₀ e)
    (eff : Effect σ₀ e ⟨φ, σ⟩ ⟨φ', τ⟩) : Concluded φ' τ := by
  have dispatches : Dispatches φ σ := sound.all.dispatches
  have dismissed : ∀ adverts, Concluded φ (σ.dismiss adverts) :=
    fun _ => inv.congr rfl (fun _ => rfl) fun _ => rfl
  have phase : ∀ {ψ : Phase} {ρ : State}, ψ.fin = φ.fin → Concluded φ ρ → Concluded ψ ρ :=
    fun fin inv => inv.congr fin (fun _ => rfl) fun _ => rfl
  have deleted : ∀ {ψ : Phase} {ρ : State}, ψ.fin = none → Concluded φ ρ → Concluded ψ ρ := by
    intro ψ ρ fin inv
    refine inv.mono ?_ fun _ tr found _ => ⟨tr, found, id⟩
    rintro t' (done | done)
    · cases fin.symm.trans done
    · exact .inr done
  cases eff with
  | connect =>
      refine inv.mono ?_ fun _ tr found _ => ⟨tr, found, id⟩
      rintro t (done | ⟨c, y, live, member⟩)
      · cases done
      · obtain ⟨z, live', rfl⟩ := change_eq_some_iff.mp live
        have member' : t ∈ z.replies := by
          split at member <;> exact member
        rcases put_eq_some_iff.mp live' with ⟨_, made⟩ | ⟨_, before⟩
        · simp [← Option.some.inj made] at member'
        · exact .inr ⟨c, z, before, member'⟩
  | begin => exact deleted rfl (inv.congr rfl (fun _ => change_map fun _ => rfl) fun _ => rfl)
  | fill | armHeader | next | armUpload | armReturn | offer | detach | block =>
      exact inv.congr rfl (fun _ => change_map fun _ => rfl) fun _ => rfl
  | submit _ _ _ _ _ _ _ noExecutor =>
      intro t' tr' done found
      rcases put_eq_some_iff.mp found with ⟨_, made⟩ | ⟨_, before⟩
      · rw [← Option.some.inj made, noExecutor]
      · refine inv t' tr' ?_ before
        rcases done with done | ⟨c, y, live, member⟩
        · exact .inl done
        · obtain ⟨x, live', rfl⟩ := change_eq_some_iff.mp live
          refine .inr ⟨c, x, live', ?_⟩
          split at member <;> exact member
  | assignUp up =>
      obtain ⟨_, _, uploading, _⟩ := dispatches.uploaded _ up
      exact phase rfl ((dismissed _).assign fun done => uploading.new
        (dispatched_of_completed dispatches done))
  | assignWork _ asked picks _ _ _ _ _ _ _ _ _ _ _ _ fresh =>
      refine (dismissed _).assign fun done => ?_
      obtain ⟨b, k, seen⟩ := dispatched_of_completed dispatches done
      exact new.undispatched asked picks ⟨b, k, fresh b k _ seen⟩
  | finish | fail => exact inv.finish fun _ same => (Option.some.inj same).symm
  | @requeue _ _ y t₀ tr₀ fin =>
      refine inv.mono ?_ fun _ tr found _ => ⟨tr, found, id⟩
      rintro t (done | ⟨c, y, live, member⟩)
      · cases done
      · obtain ⟨x, live', rfl⟩ := change_eq_some_iff.mp live
        split at member
        · rcases List.mem_append.mp member with old | new
          · exact .inr ⟨c, x, live', List.mem_of_mem_erase old⟩
          · exact .inl (List.mem_singleton.mp new ▸ fin)
        · exact .inr ⟨c, x, live', member⟩
  | setReturn =>
      refine inv.congr rfl (fun _ => rfl) fun t => ?_
      rw [State.setReturn_tran]
      exact change_map fun _ => rfl
  | replyQueued => exact inv.reply _ _ _
  | replyWaiting => exact deleted rfl (inv.reply _ _ _)
  | sweep | purge => exact inv.delTran _ _
  | dropClient =>
      refine inv.mono ?_ fun _ tr found _ => ⟨tr, found, id⟩
      rintro t (done | ⟨c, y, live, member⟩)
      · exact .inl done
      · exact .inr ⟨c, y, (put_none_eq_some_iff.mp live).2, member⟩
  | close | done => exact deleted rfl inv
  | _ => exact inv.congr rfl (fun _ => rfl) fun _ => rfl

end Concluded

/-! ### Steps of the broker -/

/-- Client `c` completes a request: its fixed part, or its data. -/
def Uploads (σ : State) (e : Event) (c : ClientId) : Prop :=
  ∃ filled, Received σ e c .svracall filled ∨ Received σ e c .sendToWorker filled

/-- The event that makes the broker do something. -/
def Action.Caused (σ : State) (e : Event) : Action → Prop
  | .submit c => ∃ filled, Received σ e c .svracall filled
  | .store c | .assign c _ => Uploads σ e c
  | .fetch w => Commands σ e w TPTWORK
  | .finish w => Returns σ e w
  | .fail w => Closes σ e w
  | .answer c => (∃ filled, Received σ e c .svrgetrply filled) ∨ ∃ w, Returns σ e w ∨ Closes σ e w
  | .lose => Deletes σ e

theorem uploads_of_up {κ : Conf} (start : Inv ⟨{}, σ⟩) (trace : Trace σ e ⟨{}, σ⟩ κ)
    (up : κ.phase.up = some t) (found : κ.state.tran t = some tr) : Uploads σ e tr.client := by
  induction trace generalizing tr with
  | refl => cases up
  | @tail κ κ' sofar eff ih =>
      have changed : ∀ {key update}, change κ.state.tran key update t = some tr →
          κ.phase.up = some t → (∀ x, (update x).client = x.client) → Uploads σ e tr.client := by
        intro key update found up same
        obtain ⟨old, found', rfl⟩ := change_eq_some_iff.mp found
        have client : (if t = key then update old else old).client = old.client := by
          split
          · exact same old
          · rfl
        rw [client]
        exact ih up found'
      cases eff with
      | connect | fill | enqueue | assignUp | armUpload | close | done => cases up
      | @begin _ c x handler _ _ filled received live =>
          simp only [Phase.called] at up
          split at up
          · rename_i uploads
            subst uploads
            have inv := start.trace sofar
            obtain ⟨tr', found', owner⟩ :=
              inv.own.mine c x t live (List.mem_append_left _ (List.mem_of_getLast? up))
            obtain rfl := Option.some.inj (found'.symm.trans found)
            exact owner ▸ ⟨filled, .inr received⟩
          · cases up
      | submit _ _ _ _ _ client _ _ _ _ asked =>
          obtain rfl := Option.some.inj up
          obtain rfl := Option.some.inj ((if_pos rfl).symm.trans found)
          obtain ⟨filled, asked⟩ := asked
          exact client ▸ ⟨filled, .inl asked⟩
      | assignWork | finish | fail => exact changed found up fun _ => rfl
      | setReturn =>
          rw [State.setReturn_tran] at found
          exact changed found up fun _ => rfl
      | replyQueued | replyWaiting | sweep | purge => exact ih up (put_none_eq_some_iff.mp found).2
      | _ => exact ih up found

theorem advert_of_effect (all : Inv ⟨φ, σ⟩) (eff : Effect σ₀ e ⟨φ, σ⟩ ⟨φ', τ⟩) {a : AdvertId}
    {v v' : Advert} (advert : σ.advert a = some v) (advert' : τ.advert a = some v') : v' = v := by
  have kept : σ.advert a = some v' → v' = v := fun same => Option.some.inj (same.symm.trans advert)
  cases eff with
  | offer =>
      rcases put_eq_some_iff.mp advert' with ⟨rfl, _⟩ | ⟨_, same⟩
      · cases all.waits.fresh_advert.symm.trans advert
      · exact kept same
  | dropAdvert => exact kept (put_none_eq_some_iff.mp advert').2
  | _ => exact kept advert'

theorem linked_stays_of_effect (all : Inv ⟨φ, σ⟩) (eff : Effect σ₀ e ⟨φ, σ⟩ ⟨φ', τ⟩)
    (found : σ.tran t = some tr) (stays : τ.tran t ≠ none) (linked : ¬σ.links.Alone (.tran t)) :
    ¬τ.links.Alone (.tran t) := by
  obtain ⟨waiting, queue, member⟩ := (all.waits.tran t tr found).resolve_left linked
  obtain ⟨waiting', queue', rfl | ⟨u, _, rfl, _⟩ | ⟨u, gone, rfl⟩⟩ :=
    queue_of_effect all eff queue (List.ne_nil_of_mem member)
  · exact WaitQueues.not_alone_of_queued ⟨_, queue', member⟩
  · exact WaitQueues.not_alone_of_queued ⟨_, queue', List.mem_append_left _ member⟩
  · have other : t ≠ u := fun same => stays (same ▸ gone)
    exact WaitQueues.not_alone_of_queued ⟨_, queue', (List.mem_erase_of_ne other).mpr member⟩

theorem request_kept (inOrder : InOrder ⟨φ, σ⟩) (inOrder' : InOrder ⟨φ', τ⟩)
    (eff : Effect σ₀ e ⟨φ, σ⟩ ⟨φ', τ⟩)
    (tran : (τ.tran t).map Transaction.parties = (σ.tran t).map Transaction.parties)
    (log : τ.Dispatched t ↔ σ.Dispatched t)
    (enters : φ.up = some t → φ'.up = some t ∨ τ.links = σ.links) : τ.request t = σ.request t := by
  have all : Inv ⟨φ, σ⟩ := inOrder.sound.all
  cases found : σ.tran t with
  | none =>
      rw [found, Option.map_none, Option.map_eq_none_iff] at tran
      rw [State.request_of_absent found, State.request_of_absent tran]
  | some tr =>
      obtain ⟨tr', found', same⟩ := exists_of_map_eq tran.symm found
      simp only [Transaction.parties, Prod.mk.injEq] at same
      obtain ⟨client, executor⟩ := same
      cases gives : tr.executor with
      | some a =>
          obtain ⟨_, v, advert⟩ := inOrder.executors.current t tr a found gives
          obtain ⟨_, v', advert'⟩ :=
            inOrder'.executors.current t tr' a found' (executor.trans gives)
          obtain rfl := advert_of_effect all eff advert advert'
          rw [State.request_of_worker found (State.worker_eq_some_iff.mpr ⟨a, v', gives,
            advert, rfl⟩), State.request_of_worker found'
              (State.worker_eq_some_iff.mpr ⟨a, v', executor.trans gives, advert', rfl⟩), client]
      | none =>
          have idle := executor.trans gives
          by_cases given : σ.Dispatched t
          · rw [State.request_of_finished found gives given,
              State.request_of_finished found' idle (log.mpr given), client]
          · have given' : ¬τ.Dispatched t := fun later => given (log.mp later)
            by_cases alone : σ.links.Alone (.tran t)
            · have old := (all.waits.old (.tran t) (Option.isSome_of_eq_some found)).1
              rw [State.request_of_alone found gives given alone,
                State.request_of_alone found' idle given' (alone_stays_of_effect all eff old enters
                  alone), client]
            · have linked := linked_stays_of_effect all eff found (by simp [found']) alone
              rw [State.request_of_linked found gives given alone,
                State.request_of_linked found' idle given' linked, client]

/-- At most one request moves on, for a reason. -/
def Moves (σ₀ : State) (e : Event) (σ τ : State) : Prop :=
  τ.request = σ.request ∨ ∃ t action, Life (σ.request t) action (τ.request t) ∧
    (∀ u, u ≠ t → τ.request u = σ.request u) ∧ action.Caused σ₀ e ∧
    ∀ c, action = .submit c → σ.next ≤ t ∧ t < τ.next

section

variable (inOrder : InOrder ⟨φ, σ⟩) (inOrder' : InOrder ⟨φ', τ⟩) (eff : Effect σ₀ e ⟨φ, σ⟩ ⟨φ', τ⟩)

include inOrder inOrder' eff

theorem others_kept
    (tran : ∀ u, u ≠ t → (τ.tran u).map Transaction.parties = (σ.tran u).map Transaction.parties)
    (log : ∀ u, u ≠ t → (τ.Dispatched u ↔ σ.Dispatched u))
    (enters : ∀ u, φ.up = some u → φ'.up = some u ∨ u = t) :
    ∀ u, u ≠ t → τ.request u = σ.request u := by
  intro u different
  refine request_kept inOrder inOrder' eff (tran u different) (log u different) fun up => ?_
  exact .inl ((enters u up).resolve_right different)

theorem moves_assign {before : Stage} {action : Action} {a : AdvertId} {v : Advert}
    (stage : σ.request t = some ⟨tr.client, before⟩)
    (life : Life (some ⟨tr.client, before⟩) action (some ⟨tr.client, .executing v.client⟩))
    (caused : action.Caused σ₀ e) (found : σ.tran t = some tr) (advert : σ.advert a = some v)
    (tran : τ.tran = change σ.tran t fun tr => { tr with executor := some a })
    (same : τ.advert = σ.advert) (log : τ.log = .dispatched a v.client t :: σ.log)
    (enters : ∀ u, φ.up = some u → φ'.up = some u ∨ u = t) :
    Moves σ₀ e σ τ := by
  have given : τ.tran t = some { tr with executor := some a } :=
    tran ▸ change_eq_some_iff.mpr ⟨tr, found, (if_pos rfl).symm⟩
  have after := State.request_of_worker given
    (State.worker_eq_some_iff.mpr ⟨a, v, rfl, same ▸ advert, rfl⟩)
  refine .inr ⟨t, action, ?_, others_kept inOrder inOrder' eff (fun u different => ?_)
    (fun u different => ?_) enters, caused, ?_⟩
  · rw [stage, after]
    exact life
  · simp [tran, change, different]
  · simp [State.Dispatched, log, different]
  · rintro c rfl
    cases life

theorem moves_delete {r : Request} {action : Action} (stage : σ.request t = some r)
    (life : Life (some r) action none) (caused : action.Caused σ₀ e)
    (tran : τ.tran = put σ.tran t none) (log : τ.log = σ.log) (up : φ'.up = φ.up) :
    Moves σ₀ e σ τ := by
  refine .inr ⟨t, action, ?_, others_kept inOrder inOrder' eff (fun u different => ?_)
    (fun u _ => ?_) ?_, caused, ?_⟩
  · rw [stage, State.request_of_absent (tran ▸ if_pos rfl)]
    exact life
  · rw [tran]
    exact congrArg _ (if_neg different)
  · rw [State.Dispatched, log]
    rfl
  · rw [up]
    exact fun _ => .inl
  · rintro c rfl
    cases life

theorem moves_finish {action : Action} (result : Transaction → Transaction) {w : ClientId}
    (keeps : ∀ tr, (result tr).client = tr.client) (found : σ.tran t = some tr)
    (works : σ.worker tr = some w) (given : σ.Dispatched t)
    (life : Life (some ⟨tr.client, .executing w⟩) action (some ⟨tr.client, .finished⟩))
    (caused : action.Caused σ₀ e)
    (tran : τ.tran = change σ.tran t fun tr => { result tr with executor := none })
    (log : τ.log = σ.log) (up : φ'.up = φ.up) :
      Moves σ₀ e σ τ := by
  have taken : τ.tran t = some { result tr with executor := none } :=
    tran ▸ change_eq_some_iff.mpr ⟨tr, found, (if_pos rfl).symm⟩
  have given' : τ.Dispatched t := by
    rw [State.Dispatched, log]
    exact given
  refine .inr ⟨t, action, ?_, others_kept inOrder inOrder' eff (fun u different => ?_)
    (fun u _ => ?_) ?_, caused, ?_⟩
  · rw [State.request_of_worker found works, State.request_of_finished taken rfl given', keeps]
    exact life
  · simp [tran, change, different]
  · rw [State.Dispatched, log]
    rfl
  · rw [up]
    exact fun _ => .inl
  · rintro c rfl
    cases life

end

theorem moves_of_effect (start : Inv ⟨{}, σ₀⟩) (sofar : Trace σ₀ e ⟨{}, σ₀⟩ ⟨φ, σ⟩)
    (new : PicksNew σ₀ e) (inOrder : InOrder ⟨φ, σ⟩) (inOrder' : InOrder ⟨φ', τ⟩)
    (concluded : Concluded φ σ) (eff : Effect σ₀ e ⟨φ, σ⟩ ⟨φ', τ⟩) : Moves σ₀ e σ τ := by
  have all : Inv ⟨φ, σ⟩ := inOrder.sound.all
  have dispatches : Dispatches φ σ := all.dispatches
  have kept := fun u => request_kept (t := u) inOrder inOrder' eff
  have same : τ.tran = σ.tran → (∀ u, τ.Dispatched u ↔ σ.Dispatched u) →
      (∀ u, φ.up = some u → φ'.up = some u ∨ τ.links = σ.links) → Moves σ₀ e σ τ :=
    fun tran log enters => .inl (funext fun u => kept u (by rw [tran]) (log u) (enters u))
  have answered : ∀ {t tr}, Completed φ σ t → σ.tran t = some tr →
      σ.request t = some ⟨tr.client, .finished⟩ :=
    fun done found => State.request_of_finished found (concluded _ _ done found)
      (dispatched_of_completed dispatches done)
  have lost : ∀ {t tr}, σ.tran t = some tr → Deletes σ₀ e → τ.tran = put σ.tran t none →
      τ.log = σ.log → φ'.up = φ.up → Moves σ₀ e σ τ := by
    intro t tr found deletes
    exact moves_delete inOrder inOrder' eff (congrArg _ found) (.lose _) deletes
  cases step : eff with
  | begin =>
      refine same rfl (fun u => ?_) fun _ up => ?_
      · simp [State.Dispatched, State.begin, State.observe, State.mapClient]
      · cases up
  | call =>
      refine same rfl (fun u => ?_) fun _ => .inl
      simp [State.Dispatched, State.observe]
  | connect | fill => exact same rfl (fun _ => Iff.rfl) fun _ up => by cases up
  | armUpload | close | done => exact same rfl (fun _ => Iff.rfl) fun _ _ => .inr rfl
  | write | release | resize | armHeader | next | rest | park | block | requeue | armReturn
  | spare | found | offer | detach | orphan | dropService | dropAdvert | dropClient =>
      exact same rfl (fun _ => Iff.rfl) fun _ => .inl
  | setReturn =>
      refine .inl (funext fun u => kept u ?_ Iff.rfl .inl)
      rw [State.setReturn_tran]
      exact change_map fun _ => rfl
  | @submit _ _ c _ _ tr' len _ noUp _ _ _ client _ noExecutor _ _ asked =>
      have absent := all.waits.fresh_tran (Nat.le_succ σ.next)
      have unseen : ¬σ.Dispatched (σ.next + 1) := by
        rintro ⟨a, k, seen⟩
        exact absurd (all.fresh.log a k _ seen).2.2 (Nat.not_lt.mpr (Nat.le_succ _))
      have added : (σ.submit tr' len).request (σ.next + 1) = _ :=
        State.request_of_alone (if_pos rfl) noExecutor unseen (WaitQueues.init_alone _ _)
      have others := others_kept inOrder inOrder' eff (t := σ.next + 1) (fun u different =>
        congrArg _ (if_neg different)) (fun _ _ => Iff.rfl) fun u up => by cases noUp.symm.trans up
      refine .inr ⟨σ.next + 1, .submit tr'.client, ?_, others, client ▸ asked, ?_⟩
      · rw [State.request_of_absent absent, added]
        exact .submit _
      · intro _ _
        exact ⟨Nat.le_succ _, Nat.lt_succ_self _⟩
  | @enqueue _ _ t tr up found fits linkable =>
      obtain ⟨tr', x, uploading, _⟩ := dispatches.uploaded t up
      obtain rfl := Option.some.inj (found.symm.trans uploading.found)
      obtain ⟨svc, current⟩ := Option.isSome_iff_exists.mp linkable.1
      obtain ⟨waiting, ring, _, _⟩ := all.waits.ring_of_fits current fits
      have noExecutor := dispatches.executor_eq_none_of_uploading uploading
      have queued : (σ.enqueue tr.svc t).Queued tr.svc t :=
        ⟨_, WaitQueues.enqueue_last current ring uploading.alone, by simp⟩
      have before := State.request_of_alone found noExecutor uploading.new uploading.alone
      have after : (σ.enqueue tr.svc t).request t = _ :=
        State.request_of_linked found noExecutor uploading.new
          (WaitQueues.not_alone_of_queued queued)
      have others := others_kept inOrder inOrder' eff (t := t) (fun _ _ => rfl) (fun _ _ => Iff.rfl)
        fun u up' => .inr (Option.some.inj (up'.symm.trans up))
      refine .inr ⟨t, .store tr.client, ?_, others, uploads_of_up start sofar up found, ?_⟩
      · rw [before, after]
        exact .store _
      · rintro c impossible
        cases impossible
  | @assignUp _ _ a v _ t tr _ _ _ up found _ _ _ _ advert =>
      obtain ⟨tr', x, uploading, _⟩ := dispatches.uploaded t up
      obtain rfl := Option.some.inj (found.symm.trans uploading.found)
      have before := State.request_of_alone found (dispatches.executor_eq_none_of_uploading
        uploading) uploading.new uploading.alone
      exact moves_assign inOrder inOrder' eff before (.assign _ _)
        (uploads_of_up start sofar up found) found advert rfl rfl rfl fun u up' =>
        .inr (Option.some.inj (up'.symm.trans up))
  | @assignWork _ _ c x a v _ t tr _ _ _ asked picked live mine advert flagged _ first _ _ _ found _
        _ fresh =>
      have unseen : ¬σ.Dispatched t := by
        rintro ⟨b, k, seen⟩
        exact new.undispatched asked picked ⟨b, k, fresh b k t seen⟩
      have noExecutor : tr.executor = none := by
        by_contra executor
        obtain ⟨b, executor⟩ := Option.ne_none_iff_exists'.mp executor
        obtain ⟨k, seen, _⟩ := dispatches.executor t tr b found executor
        exact unseen ⟨b, k, seen⟩
      obtain ⟨_, v', advert', owner, _⟩ := all.registry.tree c x a live mine
      obtain rfl := Option.some.inj (advert.symm.trans advert')
      have before := State.request_of_linked found noExecutor unseen
        (WaitQueues.not_alone_of_queued (all.waits.queued_of_first flagged first))
      exact moves_assign inOrder inOrder' eff before (.fetch _ _) (owner ▸ asked) found advert rfl
        rfl rfl fun _ => .inl
  | @replyQueued _ _ c x _ t tr _ _ asked live queued _ _ deletable =>
      have owner := all.own.owner_eq live (List.mem_append_right _ queued) deletable.live
      exact moves_delete inOrder inOrder' eff (answered (.inr ⟨c, x, live, queued⟩) deletable.live)
        (.answer _) (.inl (owner ▸ asked)) rfl rfl rfl
  | @replyWaiting _ _ _ t tr _ fin _ _ _ deletable =>
      have cause : ∃ w, Returns σ₀ e w ∨ Closes σ₀ e w := by
        rcases fin_of_trace sofar fin with ⟨w, closing⟩ | ⟨w, returns⟩
        · exact ⟨w, .inr (closes_of_trace sofar closing)⟩
        · exact ⟨w, .inl returns⟩
      exact moves_delete inOrder inOrder' eff (answered (.inl fin) deletable.live) (.answer _)
        (.inr cause) rfl rfl rfl
  | sweep orphan _ _ _ deletable =>
      have deletes : Deletes σ₀ e := by
        obtain ⟨a, det⟩ := all.phases.orphan _ orphan
        rcases det_of_trace sofar det with ⟨c, closing⟩ | unadvertises
        · exact .inl ⟨c, closes_of_trace sofar closing⟩
        · exact .inr unadvertises
      exact lost deletable.live deletes rfl rfl rfl
  | purge closing _ _ _ _ _ _ deletable =>
      exact lost deletable.live (.inl ⟨_, closes_of_trace sofar closing⟩) rfl rfl rfl
  | @finish _ _ c x t tr running _ live serves found asked =>
      obtain ⟨a, seen⟩ := (dispatches.active c x live (.inr running)).2 t serves
      cases executor : tr.executor with
      | none =>
          refine .inl (funext fun u => kept u ?_ Iff.rfl .inl)
          by_cases here : u = t
          · subst here
            simp [State.finish, State.mapTran, State.mapClient, change, found, Transaction.parties,
              executor]
          · simp [State.finish, State.mapTran, State.mapClient, change, here]
      | some b =>
          obtain ⟨_, v, advert⟩ := inOrder.executors.current t tr b found executor
          obtain ⟨k, seen', owner⟩ := dispatches.executor t tr b found executor
          have mine : v.client = c :=
            (owner v advert).trans (worker_unique inOrder.sound.parking.once seen' seen).2
          exact moves_finish inOrder inOrder' eff id (fun _ => rfl) found
            (State.worker_eq_some_iff.mpr ⟨b, v, executor, advert, mine⟩) ⟨a, c, seen⟩ (.finish _ _)
            asked rfl rfl rfl
  | @fail _ _ c x t tr a v closing _ _ _ found executor advert mine =>
      obtain ⟨k, seen, _⟩ := dispatches.executor t tr a found executor
      exact moves_finish inOrder inOrder' eff
        (fun tr => { tr with rval := TPERRNO, rcode := BitVec.ofNat 64 TPESVCERR })
        (fun _ => rfl) found (State.worker_eq_some_iff.mpr ⟨a, v, executor, advert, mine⟩)
        ⟨a, k, seen⟩ (.fail _ _) (closes_of_trace sofar closing) rfl rfl rfl

/-! ## Refinement -/

theorem concluded_of_reachable (reach : Reachable Orderly σ) : Concluded {} σ := by
  refine Reachable.induction (motive := fun κ => Concluded κ.phase κ.state) ?_ ?_ reach
  · simp [Concluded, State.start]
  · rintro σ₀ e ⟨φ, σ⟩ ⟨φ', τ⟩ reach orderly _ trace _ concluded eff
    exact concluded.effect ((inOrder_of_reachable reach).trace orderly trace).sound orderly.1 eff

/-- The broker has the requests of the switchboard. -/
structure State.Shows (σ : State) (b : Broker) : Prop where
  request : b.request = σ.request
  next_le : b.next ≤ σ.next

theorem broker_of_step {b : Broker} (reach : Reachable Orderly σ) (orderly : Orderly σ e)
    (done : step σ e = .ok τ) (shows : σ.Shows b) :
    ∃ acts b', Path Broker.Step b acts b' ∧ τ.Shows b' ∧ ∀ act ∈ acts, act.2.Caused σ e := by
  have inOrder := inOrder_of_reachable reach
  have start := inOrder.sound.all
  let shown : Conf → Broker → Prop := fun κ b => Trace σ e ⟨{}, σ⟩ κ ∧ Concluded κ.phase κ.state ∧
    κ.state.Shows b
  have matched : ∀ κ κ' b, shown κ b → Effect σ e κ κ' →
      ∃ acts b', Path Broker.Step b acts b' ∧ shown κ' b' ∧ ∀ act ∈ acts, act.2.Caused σ e := by
    rintro ⟨φ, μ⟩ ⟨φ', ν⟩ b ⟨sofar, concluded, request, next_le⟩ eff
    have now := inOrder.trace orderly sofar
    have later := inOrder.trace orderly (sofar.tail eff)
    have concluded' := concluded.effect now.sound orderly.1 eff
    rcases moves_of_effect start sofar orderly.1 now later concluded eff with same |
      ⟨t, action, moves⟩
    · exact ⟨[], b, .nil b, ⟨sofar.tail eff, concluded', request.trans same.symm,
        next_le.trans eff.next_le⟩, by simp⟩
    · obtain ⟨life, others, caused, new⟩ := moves
      refine ⟨[(t, action)], ⟨ν.next, ν.request⟩, .single ⟨?_, ?_, next_le.trans eff.next_le, ?_⟩,
        ⟨sofar.tail eff, concluded', rfl, Nat.le_refl _⟩, by simpa using caused⟩
      · exact request ▸ life
      · exact request ▸ others
      · intro c submits
        exact ⟨next_le.trans (new c submits).1, (new c submits).2⟩
  obtain ⟨acts, b', path, ⟨_, _, shows'⟩, caused⟩ :=
    Path.simulates matched (step_trace start done) ⟨.refl, concluded_of_reachable reach, shows⟩
  exact ⟨acts, b', path, shows', caused⟩

/-- A run of the broker led by a run of the switchboard. `acts` is what the broker does: what it
does meanwhile is caused by each event, and leaves the requests that are in the memory after it. -/
inductive Led : State → Broker → List Event → List (TranId × Action) → State → Broker → Prop
  | nil (σ : State) (b : Broker) : Led σ b [] [] σ b
  | cons {σ μ τ : State} {b b' b'' : Broker} {e : Event} {events : List Event}
      {acts more : List (TranId × Action)} (done : step σ e = .ok μ)
      (path : Path Broker.Step b acts b') (shows : μ.Shows b')
      (caused : ∀ act ∈ acts, act.2.Caused σ e) (rest : Led μ b' events more τ b'') :
      Led σ b (e :: events) (acts ++ more) τ b''

section Led

variable {b b' : Broker} {events : List Event} {acts : List (TranId × Action)}

theorem exists_led (reach : Reachable Orderly σ) (meets : Meets Orderly σ events)
    (execution : run σ events = .ok τ) (shows : σ.Shows b) :
    ∃ acts b', Led σ b events acts τ b' ∧ τ.Shows b' := by
  induction events generalizing σ b with
  | nil =>
      obtain rfl := Except.ok.inj execution
      exact ⟨[], b, .nil σ b, shows⟩
  | cons e events ih =>
      obtain ⟨μ, done, execution⟩ := run_cons_ok_iff.mp execution
      obtain ⟨orderly, meets⟩ := meets
      obtain ⟨acts, b', path, shows', caused⟩ := broker_of_step reach orderly done shows
      obtain ⟨more, b'', led, shows''⟩ :=
        ih (reach.next orderly done) (meets μ done) execution shows'
      exact ⟨acts ++ more, b'', .cons done path shows' caused led, shows''⟩

namespace Led

theorem path (led : Led σ b events acts τ b') : Path Broker.Step b acts b' := by
  induction led with
  | nil => exact .nil _
  | cons _ path _ _ _ ih => exact path.append ih

theorem shows (led : Led σ b events acts τ b') (shown : σ.Shows b) : τ.Shows b' := by
  induction led with
  | nil => exact shown
  | cons _ _ shown' _ _ ih => exact ih shown'

end Led

/-- Every orderly run of the switchboard is, event by event, a run of the broker. -/
theorem refines_broker (reach : Reachable Orderly σ) (meets : Meets Orderly σ events)
    (execution : run σ events = .ok τ) (shows : σ.Shows b) :
    ∃ acts b', Led σ b events acts τ b' ∧ τ.Shows b' :=
  exists_led reach meets execution shows

open Scenario in
/-- Client 2 submits request 10, which waits until client 0 asks for work. -/
theorem refines_broker_fetched : ∃ τ b events acts, Led .start ⟨0, fun _ => none⟩ events acts τ b ∧
    b.request 10 = some ⟨2, .executing 0⟩ := by
  let events := [connect, connect] ++ advertise 0 65 ++ call 2 65 0 9 ++ work 0
  have steps : permitted Orderly .start events = true := by decide +kernel
  have shown : outcome events (fun σ => σ.request 10) = some (some ⟨2, .executing 0⟩) := by
    decide +kernel
  obtain ⟨τ, execution, stage⟩ := outcome_eq_some_iff.mp shown
  obtain ⟨acts, b, led, shows⟩ := refines_broker .start (.of_permitted steps) execution
    (show State.start.Shows ⟨0, fun _ => none⟩ from ⟨rfl, Nat.le_refl 0⟩)
  exact ⟨τ, b, events, acts, led, shows.request ▸ stage⟩

/-! ## Lives -/

theorem Life.taken_of_path {c w : ClientId} {actions : List Action} {r r' : Option Request}
    (path : Path Life r actions r') (executing : r' = some ⟨c, .executing w⟩)
    (before : ∀ c, r ≠ some ⟨c, .executing w⟩) :
    .fetch w ∈ actions ∨ ∃ c, .assign c w ∈ actions := by
  induction path with
  | nil => exact absurd executing (before c)
  | @cons r μ r' action actions first rest ih =>
      by_cases now : ∃ c, μ = some ⟨c, .executing w⟩
      · obtain ⟨c, rfl⟩ := now
        cases first with
        | assign => exact .inr ⟨c, List.mem_cons_self ..⟩
        | fetch => exact .inl (List.mem_cons_self ..)
      · simp only [not_exists] at now
        rcases ih executing now with fetched | ⟨c, assigned⟩
        · exact .inl (List.mem_cons_of_mem _ fetched)
        · exact .inr ⟨c, List.mem_cons_of_mem _ assigned⟩

theorem request_of_dispatched {a : AdvertId} {w : ClientId} (reach : Reachable Orderly σ)
    (orderly : Orderly σ e) (done : step σ e = .ok τ) (seen : .dispatched a w t ∈ τ.log)
    (fresh : .dispatched a w t ∉ σ.log) :
    (∃ c, τ.request t = some ⟨c, .executing w⟩) ∧ ∀ c, σ.request t ≠ some ⟨c, .executing w⟩ := by
  have inv := (inOrder_of_reachable reach).sound.all
  have once := (inOrder_of_reachable (reach.next orderly done)).sound.parking.once
  obtain ⟨new, log, sends⟩ := step_sends inv done
  constructor
  · have now : .dispatched a w t ∈ new := by
      rw [log] at seen
      exact (List.mem_append.mp seen).resolve_right fresh
    obtain ⟨v, tr, svc, data, handed⟩ := sends a w t now
    have works : τ.worker tr = some w :=
      State.worker_eq_some_iff.mpr ⟨a, v, handed.executor, handed.kept, handed.owner⟩
    exact ⟨tr.client, State.request_of_worker handed.found works⟩
  · intro c executing
    obtain ⟨tr, a', found, executor⟩ := State.executor_of_request executing
    obtain ⟨k, before, _⟩ := inv.dispatches.executor t tr a' found executor
    have before' : .dispatched a' k t ∈ τ.log := by
      rw [log]
      exact List.mem_append_right new before
    obtain ⟨rfl, rfl⟩ := worker_unique once before' seen
    exact fresh before

/-- Whoever is given a transaction in the run is the worker of an act. -/
theorem Led.taken (led : Led σ b events acts τ b') (reach : Reachable Orderly σ)
    (meets : Meets Orderly σ events) (shown : σ.Shows b) {a : AdvertId} {w : ClientId}
    (seen : .dispatched a w t ∈ τ.log) (fresh : .dispatched a w t ∉ σ.log) :
    .fetch w ∈ labelsOf t acts ∨ ∃ c, .assign c w ∈ labelsOf t acts := by
  induction led with
  | nil => exact absurd seen fresh
  | @cons σ μ τ b b' b'' e events acts more done path shown' caused rest ih =>
      obtain ⟨orderly, meets⟩ := meets
      rw [labelsOf_append]
      by_cases now : .dispatched a w t ∈ μ.log
      · obtain ⟨⟨c, executing⟩, before⟩ := request_of_dispatched reach orderly done now fresh
        have life := Broker.life_of_path path t
        rw [shown.request, shown'.request] at life
        rcases Life.taken_of_path life executing before with fetched | ⟨c, assigned⟩
        · exact .inl (List.mem_append_left _ fetched)
        · exact .inr ⟨c, List.mem_append_left _ assigned⟩
      · rcases ih (reach.next orderly done) (meets μ done) shown' seen now with
          fetched | ⟨c, assigned⟩
        · exact .inl (List.mem_append_right _ fetched)
        · exact .inr ⟨c, List.mem_append_right _ assigned⟩

end Led

end Switchboard
end Xatmi
