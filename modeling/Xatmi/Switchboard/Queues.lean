import Xatmi.Switchboard.Faults
import Xatmi.Switchboard.Scenario

/-!
# The wait queues

What a wait queue holds as long as no transaction is dispatched twice, and what can become of one
when a transaction is.
-/

namespace Xatmi
namespace Switchboard

/-- The data of transaction `t` has been read completely. -/
def State.Uploaded (σ : State) (t : TranId) : Prop :=
  ∃ tr, σ.tran t = some tr ∧ ∀ c x, σ.client c = some x → x.handler = some .sendToWorker →
    x.input ≠ some tr.data

/-- Node `n` is a current transaction of service `s`, or a current advertisement for it. -/
def State.Entry (σ : State) (s : ServiceId) (transactions : Bool) (n : Node) : Prop :=
  if transactions then ∃ t tr, n = .tran t ∧ σ.tran t = some tr ∧ tr.svc = s
  else ∃ a v, n = .adv a ∧ σ.advert a = some v ∧ v.svc = s

/-- As long as nobody is handed a transaction that has been handed out before, wait queues hold
entries of one kind, so that no entry is ever taken for one of the other kind, and a transaction
that was uploaded and never dispatched is on the queue of its service, where no worker waits
then. -/
theorem queues_homogeneous {σ : State} (reach : Reachable PicksNew σ) :
    (∀ s svc, σ.service s = some svc → ∃ entries, σ.links.IsRing (.head s) entries ∧
      ∀ n ∈ entries, σ.Entry s svc.waitContainsTransactions n) ∧
    (∀ e, PicksNew σ e → step σ e ≠ .error .wrongType) ∧
    (∀ t, σ.Uploaded t → ¬σ.Dispatched t → ∃ tr entries, σ.tran t = some tr ∧
      σ.links.IsRing (.head tr.svc) entries ∧ .tran t ∈ entries) ∧
    ∀ s svc a t tr entries, σ.service s = some svc → σ.links.IsRing (.head s) entries →
      .adv a ∈ entries → σ.tran t = some tr → tr.svc = s → σ.Uploaded t → σ.Dispatched t := by
  obtain ⟨threaded, kind, _⟩ := (parking_of_reachable reach).rings
  have linked : ∀ t tr, σ.tran t = some tr → σ.Uploaded t → ¬σ.Dispatched t →
      ¬σ.links.Alone (.tran t) := by
    rintro t tr found ⟨tr', found', uploaded⟩ new
    obtain rfl := Option.some.inj (found.symm.trans found')
    rcases pending_of_reachable reach t tr found new with linked | up | ⟨x, live, reading, into⟩
    · exact linked
    · cases up
    · exact absurd into (uploaded _ x live reading)
  refine ⟨?_, ?_, ?_, ?_⟩
  · intro s svc service
    obtain ⟨entries, ring, members⟩ := threaded.ring (.head s) ⟨svc, service⟩
    refine ⟨entries, ring, fun n member => ?_⟩
    have at_ := members n member
    rw [kind n s svc at_ (ring.not_alone member) service]
    cases n with
    | head s' => cases at_
    | adv a =>
        obtain ⟨v, advert, same⟩ := Option.map_eq_some_iff.mp at_
        exact ⟨a, v, rfl, advert, Node.head.inj same⟩
    | tran t =>
        obtain ⟨tr, found, same⟩ := Option.map_eq_some_iff.mp at_
        exact ⟨t, tr, rfl, found, Node.head.inj same⟩
  · intro e new faults
    cases (misuse_of_step (sound_of_reachable reach) new (.inr rfl) faults).1
  · intro t uploaded new
    obtain ⟨tr, found⟩ : ∃ tr, σ.tran t = some tr := uploaded.imp fun _ => And.left
    obtain ⟨_, entries, ring, member⟩ :=
      (threaded.node _ _ (State.home_tran found)).resolve_left (linked t tr found uploaded new)
    exact ⟨tr, entries, found, ring, member⟩
  · rintro s svc a t tr entries service ring member found rfl uploaded
    by_contra new
    have transactions := kind (.tran t) tr.svc svc (State.home_tran found)
      (linked t tr found uploaded new) service
    have head : σ.isHead (.head tr.svc) := ⟨svc, service⟩
    have workers := kind (.adv a) tr.svc svc (threaded.home_of_mem head ring member)
      (ring.not_alone member) service
    rw [workers] at transactions
    cases transactions

open Scenario in
/-- A transaction waits for service 5, and is then handed out. -/
theorem queues_homogeneous_waiting : ∃ σ svc entries, Reachable PicksNew σ ∧ σ.handedOut = [10] ∧
    σ.service 5 = some svc ∧ σ.links.IsRing (.head 5) entries ∧
    ∀ n ∈ entries, σ.Entry 5 svc.waitContainsTransactions n := by
  obtain ⟨σ, reach, seen⟩ := reachable_of_permitted
    ([connect, connect] ++ advertise 0 65 ++ call 2 65 0 9 ++ work 0)
    (fun σ => (σ.handedOut, (σ.service 5).isSome)) ([10], true)
    (show permitted PicksNew _ _ = true by decide +kernel) (by decide +kernel)
  simp only [Prod.mk.injEq] at seen
  obtain ⟨svc, service⟩ := Option.isSome_iff_exists.mp seen.2
  obtain ⟨entries, ring, members⟩ := (queues_homogeneous reach).1 5 svc service
  exact ⟨σ, svc, entries, reach, seen.1, service, ring, members⟩

open Scenario in
/-- Client 0 executes its own transaction and asks for work once more; the transaction is dispatched
again, and its reply makes client 0 readable while it waits. When it asks for work a third time and
goes away, the queue of service 12 is left with an advertisement that has been freed. -/
theorem queue_entry_freed : ∃ σ,
    run .start ([connect, connect] ++ advertise 0 65 ++ advertise 2 65 ++ advertise 2 66 ++
      call 0 65 0 9 ++ work 0 ++ unadvertise 0 65 ++ advertise 0 66 ++ work 0 ++ work 2 ++
      giveBack 2 2 0 ++ work 0 ++ [hangUp 0]) = .ok σ ∧ Reachable anyStep σ ∧
    ((σ.service 12).map Service.waitContainsTransactions, σ.links.p2 (.head 12), σ.advert 24) =
      (some false, .adv 24, none) :=
  reachable_of_outcome _ _ _ (by decide +kernel)

end Switchboard
end Xatmi
