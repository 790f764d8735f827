import Xatmi.Switchboard.Handling
import Xatmi.Switchboard.Scenario

/-!
# How often a transaction is dispatched

`send_to_server` takes the worker's advertisements off the wait queues, but not the transaction.  A
transaction that `send_to_worker` hands over has never been on a queue; one that `svrservice` takes
from the front of a queue stays there, and the next worker that asks gets it once more.
-/

namespace Xatmi
namespace Switchboard

open Intrusive

/-- A link of another object leads to transaction `t`. -/
def State.OnWaitq (σ : State) (t : TranId) : Prop :=
  ∃ n, σ.nodeLive n = true ∧ n ≠ .tran t ∧ (σ.links.p1 n = .tran t ∨ σ.links.p2 n = .tran t)

/-- No worker asks for work while transactions wait for a service it advertises. -/
def LeavesQueues (σ : State) (e : Event) : Prop :=
  ∀ c ∈ σ.clients, Commands σ e c TPTWORK → ∀ x ∈ σ.client c, ∀ a ∈ x.adverts, ¬σ.Waits a

instance (σ : State) (s : ServiceId) : Decidable (σ.Flagged s) :=
  inferInstanceAs (Decidable (∃ svc ∈ σ.service s, svc.waitContainsTransactions = true))

instance (σ : State) (s : ServiceId) : Decidable (σ.EmptyQueue s) :=
  inferInstanceAs (Decidable (σ.links.p1 (.head s) = .head s))

instance (σ : State) (a : AdvertId) : Decidable (σ.Waits a) :=
  inferInstanceAs (Decidable (∃ v ∈ σ.advert a, σ.Flagged v.svc ∧ ¬σ.EmptyQueue v.svc))

instance (σ : State) (e : Event) : Decidable (LeavesQueues σ e) :=
  inferInstanceAs (Decidable (∀ c ∈ σ.clients, Commands σ e c TPTWORK → ∀ x ∈ σ.client c,
    ∀ a ∈ x.adverts, ¬σ.Waits a))

theorem alone_stays_of_effect {φ φ' : Phase} {σ τ σ₀ : State} {e : Event} (all : Inv ⟨φ, σ⟩)
    (eff : Effect σ₀ e ⟨φ, σ⟩ ⟨φ', τ⟩) {t : TranId} (old : t < σ.next)
    (enters : φ.up = some t → φ'.up = some t ∨ τ.links = σ.links)
    (alone : σ.links.Alone (.tran t)) :
    τ.links.Alone (.tran t) := by
  have waits : WaitQueues σ := all.waits
  have same : ∀ {links : Links Node}, links.p1 (.tran t) = σ.links.p1 (.tran t) ∧
      links.p2 (.tran t) = σ.links.p2 (.tran t) → links.Alone (.tran t) :=
    fun same => ⟨same.1.trans alone.1, same.2.trans alone.2⟩
  cases eff with
  | submit =>
      refine (Links.init_alone_iff fun this => ?_).mpr alone
      obtain rfl := Node.tran.inj this
      exact absurd old (Nat.not_lt.mpr (Nat.le_succ _))
  | @enqueue _ _ t' _ up found fits linkable =>
      obtain ⟨svc, current⟩ := Option.isSome_iff_exists.mp linkable.1
      by_cases this : t = t'
      · subst this
        rcases enters up with impossible | links
        · cases impossible
        · exact links ▸ alone
      · exact waits.alone_enqueue current fits this alone
  | assignUp _ _ _ _ _ _ _ _ _ dismissable => exact same (waits.dismiss_tran dismissable t)
  | assignWork _ _ _ _ _ _ _ _ _ _ _ dismissable => exact same (waits.dismiss_tran dismissable t)
  | park _ _ _ _ fits linkable => exact same (waits.park_tran fits linkable t)
  | detach _ _ _ _ _ advert => exact same (waits.unlink_adv_tran advert t)
  | found | offer => exact (Links.init_alone_iff (by simp)).mpr alone
  | replyQueued _ _ _ _ _ _ deletable => exact waits.alone_unlink_tran deletable.live alone
  | replyWaiting _ _ _ _ deletable => exact waits.alone_unlink_tran deletable.live alone
  | sweep _ _ _ _ deletable => exact waits.alone_unlink_tran deletable.live alone
  | purge _ _ _ _ _ _ _ deletable => exact waits.alone_unlink_tran deletable.live alone
  | _ => exact alone

theorem alone_of_effect {φ φ' : Phase} {σ τ σ₀ : State} {e : Event} (all : Inv ⟨φ, σ⟩)
    (eff : Effect σ₀ e ⟨φ, σ⟩ ⟨φ', τ⟩) {t : TranId} (dispatched : σ.Dispatched t)
    (alone : σ.links.Alone (.tran t)) : τ.links.Alone (.tran t) := by
  obtain ⟨a, c, seen⟩ := dispatched
  have old : t < σ.next := (all.fresh.log a c t seen).2.2
  refine alone_stays_of_effect all eff old (fun up => ?_) alone
  obtain ⟨_, _, uploading, _⟩ := all.dispatches.uploaded t up
  exact absurd ⟨a, c, seen⟩ uploading.new

/-- Nothing is dispatched twice, and nothing that was dispatched is on a queue. -/
structure Once (σ : State) : Prop where
  nodup : σ.handedOut.Nodup
  alone : ∀ t tr, σ.Dispatched t → σ.tran t = some tr → σ.links.Alone (.tran t)

namespace Once

variable {φ φ' : Phase} {σ τ : State} {σ₀ : State} {e : Event}

/-- An effect that dispatches nothing. -/
theorem keep (inv : Once σ) (all : Inv ⟨φ, σ⟩) (eff : Effect σ₀ e ⟨φ, σ⟩ ⟨φ', τ⟩)
    (handedOut : τ.handedOut = σ.handedOut)
    (tran : ∀ t tr, τ.tran t = some tr → σ.Dispatched t → ∃ tr', σ.tran t = some tr') : Once τ := by
  refine ⟨handedOut ▸ inv.nodup, ?_⟩
  intro t tr dispatched found
  rw [← State.mem_handedOut_iff, handedOut, State.mem_handedOut_iff] at dispatched
  obtain ⟨tr', found'⟩ := tran t tr found dispatched
  exact alone_of_effect all eff dispatched (inv.alone t tr' dispatched found')

theorem not_picks (start : Inv ⟨{}, σ₀⟩) (leaves : LeavesQueues σ₀ e) {c : ClientId} {a : AdvertId}
    {t : TranId} (asked : Commands σ₀ e c TPTWORK) : ¬Picks e.env σ₀ c a t := by
  rintro ⟨x, live, walked, _⟩
  have chooses := (foldlM_findEarliest_ok_iff.mp walked).1
  rcases chooses.waits rfl with impossible | ⟨member, work⟩
  · cases impossible
  · exact leaves c ((start.registry.mem_clients c).mpr ⟨x, live⟩) asked x live a
      ((e.env.walk_perm _).mem_iff.mp member) work

theorem effect (inv : Once σ) (all : Inv ⟨φ, σ⟩) (start : Inv ⟨{}, σ₀⟩)
    (leaves : LeavesQueues σ₀ e) (eff : Effect σ₀ e ⟨φ, σ⟩ ⟨φ', τ⟩) : Once τ := by
  have keep := fun handedOut tran => inv.keep all eff handedOut tran
  have stays : ∀ {t}, σ.Dispatched t → σ.links.Alone (.tran t) → τ.links.Alone (.tran t) :=
    alone_of_effect all eff
  cases eff with
  | submit =>
      refine keep rfl ?_
      intro t tr current dispatched
      rcases put_eq_some_iff.mp current with ⟨rfl, _⟩ | ⟨_, found⟩
      · obtain ⟨a, c, seen⟩ := dispatched
        have given : σ.next + 1 < σ.next := (all.fresh.log a c _ seen).2.2
        omega
      · exact ⟨tr, found⟩
  | @assignUp _ _ a v x t _ _ _ frame up _ _ _ _ _ _ _ _ dismissable =>
      obtain ⟨_, _, uploading, _⟩ := all.dispatches.uploaded t up
      have handedOut : ((σ.dismiss (e.env.walk x.adverts)).assign a v t frame).handedOut =
          t :: σ.handedOut := rfl
      constructor
      · rw [handedOut]
        refine List.nodup_cons.mpr ⟨fun member => uploading.new ?_, inv.nodup⟩
        exact State.mem_handedOut_iff.mp member
      · intro t' tr' dispatched current
        rw [← State.mem_handedOut_iff, handedOut, List.mem_cons] at dispatched
        rcases dispatched with rfl | member
        · have same := all.waits.dismiss_tran dismissable t'
          exact ⟨same.1.trans uploading.alone.1, same.2.trans uploading.alone.2⟩
        · have dispatched := State.mem_handedOut_iff.mp member
          obtain ⟨tr, found, _⟩ := change_eq_some_iff.mp current
          exact stays dispatched (inv.alone t' tr dispatched found)
  | assignWork _ asked picked => exact absurd picked (not_picks start leaves asked)
  | setReturn =>
      refine keep rfl ?_
      intro t tr' current _
      exact exists_change_eq_some_iff.mp (exists_change_eq_some_iff.mp ⟨tr', current⟩)
  | finish | fail =>
      exact keep rfl fun _ tr' current _ => exists_change_eq_some_iff.mp ⟨tr', current⟩
  | replyQueued | replyWaiting | sweep | purge =>
      refine keep rfl ?_
      intro t tr' current _
      exact ⟨tr', (put_none_eq_some_iff.mp current).2⟩
  | _ => exact keep rfl fun _ tr' current _ => ⟨tr', current⟩

end Once

theorem once_of_reachable {σ : State} (reach : Reachable LeavesQueues σ) : Once σ := by
  refine Reachable.induction (motive := fun κ => Once κ.state) ?_ ?_ reach
  · constructor <;> simp [State.start, State.handedOut]
  · rintro σ₀ e ⟨φ, σ⟩ ⟨φ', τ⟩ reach leaves _ _ all inv eff
    exact inv.effect all (inv_of_reachable reach) leaves eff

/-- While nobody asks for work that is already waiting, every transaction is dispatched at most
once, and no link leads to one that has been dispatched. -/
theorem dispatched_at_most_once {σ : State} (reach : Reachable LeavesQueues σ) :
    σ.handedOut.Nodup ∧ ∀ t ∈ σ.handedOut, ¬σ.OnWaitq t := by
  have inv := once_of_reachable reach
  have waits := (inv_of_reachable reach).waits
  refine ⟨inv.nodup, ?_⟩
  rintro t member ⟨n, live, different, points⟩
  have away : ∀ s, ¬σ.Queued s t := by
    intro s queued
    obtain ⟨tr, found, _⟩ := waits.tran_of_queued queued
    exact WaitQueues.not_alone_of_queued queued
      (inv.alone t tr (State.mem_handedOut_iff.mp member) found)
  have ⟨before, after⟩ := waits.not_linked_of_not_queued away live different
  exact points.elim before after

open Scenario in
theorem dispatched_at_most_once_waiting : ∃ σ, Reachable LeavesQueues σ ∧ σ.handedOut = [11] ∧
    σ.handedOut.Nodup ∧ ∀ t ∈ σ.handedOut, ¬σ.OnWaitq t := by
  obtain ⟨σ, reach, seen⟩ := reachable_of_permitted
    ([connect, connect] ++ advertise 0 65 ++ work 0 ++ call 2 65 0 9) State.handedOut [11]
    (show permitted LeavesQueues _ _ = true by decide +kernel) (by decide +kernel)
  exact ⟨σ, reach, seen, dispatched_at_most_once reach⟩

open Scenario in
/-- Two workers that ask one after the other get the same transaction. -/
theorem dispatched_twice : ∃ σ,
    run .start ([connect, connect, connect] ++ advertise 0 65 ++ advertise 2 65 ++ call 4 65 0 9 ++
      work 0 ++ work 2) = .ok σ ∧
    Reachable anyStep σ ∧ σ.handedOut = [15, 15] :=
  reachable_of_outcome _ _ _ (by decide +kernel)

end Switchboard
end Xatmi
