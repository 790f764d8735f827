import Xatmi.Switchboard.Requests
import Xatmi.Switchboard.Scenario

/-!
# Requests take turns

A request that finds no worker is put at the end of the queue of its service, and `svrservice` hands
out what is first. It does not take it off the queue, so that a request further back has its turn
only when those before it have been deleted: answered, or lost. This holds in every run.
-/

namespace Xatmi
namespace Switchboard

open Program Intrusive

variable {σ₀ σ τ : State} {e : Event} {φ φ' : Phase} {s : ServiceId} {t u : TranId}

/-! ## What becomes of a queue -/

theorem State.Queue.unique {waiting waiting' : List TranId} (queue : σ.Queue s waiting)
    (queue' : σ.Queue s waiting') : waiting = waiting' := by
  have same := queue.2.unique queue'.2
  rwa [List.map_inj_right fun _ _ => Node.tran.inj] at same

theorem State.Queue.congr {waiting : List TranId} (queue : σ.Queue s waiting)
    (service : τ.service s = σ.service s) (links : τ.links = σ.links) : τ.Queue s waiting := by
  obtain ⟨⟨svc, current, flag⟩, ring⟩ := queue
  exact ⟨⟨svc, service.trans current, flag⟩, links ▸ ring⟩

/-- `remove_from_waitq` takes no transaction off a queue. -/
theorem State.Queue.dismiss {waiting : List TranId} {adverts : List AdvertId}
    (queue : σ.Queue s waiting) (waits : WaitQueues σ) (dismissable : σ.Dismissable adverts) :
    (σ.dismiss adverts).Queue s waiting := by
  induction adverts generalizing σ with
  | nil => exact queue
  | cons a adverts ih =>
      obtain ⟨unlinkable, rest⟩ := dismissable
      obtain ⟨v, current⟩ := Option.isSome_iff_exists.mp unlinkable.1
      exact ih (waits.queue_unlink_adv current queue) (waits.unlink_adv current unlinkable) rest

/-- `add_to_waitq` links an advertisement on a queue without transactions only. -/
theorem State.Queue.park {waiting : List TranId} {a : AdvertId} {v : Advert}
    (queue : σ.Queue s waiting) (waits : WaitQueues σ) (nonempty : waiting ≠ [])
    (advert : σ.advert a = some v) (fits : σ.Flagged v.svc → σ.EmptyQueue v.svc)
    (linkable : σ.Linkable v.svc (.adv a)) :
    (σ.park v.svc a).Queue s waiting := by
  have different : s ≠ v.svc := by
    rintro rfl
    have empty := queue.2.p1_head_eq_iff.mp (fits queue.1)
    exact nonempty (List.map_eq_nil_iff.mp empty)
  obtain ⟨⟨svc, current, flag⟩, ring⟩ := queue
  refine ⟨⟨svc, (if_neg different).trans current, flag⟩, ring.congr fun n member => ?_⟩
  refine waits.park_far advert fits linkable fun near => ?_
  simp only [List.mem_cons, List.mem_map] at member
  rcases member with rfl | ⟨t, _, rfl⟩
  · exact different near
  · exact near

theorem queue_of_effect (all : Inv ⟨φ, σ⟩) (eff : Effect σ₀ e ⟨φ, σ⟩ ⟨φ', τ⟩)
    {waiting : List TranId} (queue : σ.Queue s waiting) (nonempty : waiting ≠ []) :
      ∃ waiting', τ.Queue s waiting' ∧ (waiting' = waiting ∨
        (∃ t, φ.up = some t ∧ waiting' = waiting ++ [t] ∧ τ.log = σ.log) ∨
        ∃ t, τ.tran t = none ∧ waiting' = waiting.erase t) := by
  have waits : WaitQueues σ := all.waits
  have same : τ.service = σ.service → τ.links = σ.links → ∃ waiting', τ.Queue s waiting' ∧
      (waiting' = waiting ∨ (∃ t, φ.up = some t ∧ waiting' = waiting ++ [t] ∧ τ.log = σ.log) ∨
        ∃ t, τ.tran t = none ∧ waiting' = waiting.erase t) :=
    fun service links => ⟨waiting, queue.congr (congrFun service s) links, .inl rfl⟩
  have deleted : ∀ {t tr}, σ.tran t = some tr → τ.service = σ.service →
      τ.links = (σ.unlink (.tran t)).links → τ.tran t = none → ∃ waiting', τ.Queue s waiting' ∧
      (waiting' = waiting ∨ (∃ t, φ.up = some t ∧ waiting' = waiting ++ [t] ∧ τ.log = σ.log) ∨
        ∃ t, τ.tran t = none ∧ waiting' = waiting.erase t) := by
    intro t tr current service links gone
    have shorter := waits.queue_unlink_tran current queue
    exact ⟨waiting.erase t, shorter.congr (congrFun service s) links, .inr (.inr ⟨t, gone, rfl⟩)⟩
  cases eff with
  | @submit _ _ _ _ _ tr len =>
      have allocated : WaitQueues (σ.allocBuf (List.replicate len 0)) :=
        waits.congr rfl rfl rfl (fun _ => rfl) (Nat.le_succ _)
      have ring := allocated.init_queue (show (Node.tran (σ.next + 1)).id = _ from rfl)
        (queue.congr rfl rfl)
      exact ⟨waiting, ⟨queue.1, ring⟩, .inl rfl⟩
  | @enqueue _ _ t tr up found fits linkable =>
      obtain ⟨svc, current⟩ := Option.isSome_iff_exists.mp linkable.1
      obtain ⟨tr', x, uploading, _⟩ := all.dispatches.uploaded t up
      obtain ⟨waiting', ring, members, unique⟩ := waits.ring_of_fits current fits
      by_cases here : s = tr.svc
      · subst here
        obtain rfl := unique waiting queue
        exact ⟨waiting ++ [t], WaitQueues.enqueue_last current ring uploading.alone,
          .inr (.inl ⟨t, up, rfl, rfl⟩)⟩
      · exact ⟨waiting, waits.enqueue_other ring members uploading.alone here queue, .inl rfl⟩
  | assignUp _ _ _ _ _ _ _ _ _ dismissable =>
      exact ⟨waiting, (queue.dismiss waits dismissable).congr rfl rfl, .inl rfl⟩
  | assignWork _ _ _ _ _ _ _ _ _ _ _ dismissable =>
      exact ⟨waiting, (queue.dismiss waits dismissable).congr rfl rfl, .inl rfl⟩
  | park _ _ _ advert fits linkable =>
      exact ⟨waiting, queue.park waits nonempty advert fits linkable, .inl rfl⟩
  | replyQueued _ _ _ _ _ _ deletable => exact deleted deletable.live rfl rfl (if_pos rfl)
  | replyWaiting _ _ _ _ deletable => exact deleted deletable.live rfl rfl (if_pos rfl)
  | sweep _ _ _ _ deletable => exact deleted deletable.live rfl rfl (if_pos rfl)
  | purge _ _ _ _ _ _ _ deletable => exact deleted deletable.live rfl rfl (if_pos rfl)
  | found =>
      have ring := waits.init_queue (show (Node.head σ.next).id = _ from rfl) queue
      obtain ⟨⟨svc, current, flag⟩, _⟩ := queue
      refine ⟨waiting, ⟨⟨svc, (if_neg ?_).trans current, flag⟩, ring⟩, .inl rfl⟩
      rintro rfl
      cases waits.fresh_service.symm.trans current
  | offer => exact ⟨waiting, ⟨queue.1, waits.init_queue (show (Node.adv σ.next).id = _ from rfl)
    queue⟩, .inl rfl⟩
  | detach _ _ _ _ _ advert =>
      exact ⟨waiting, (waits.queue_unlink_adv advert queue).congr rfl rfl, .inl rfl⟩
  | dropService _ empty =>
      refine ⟨waiting, queue.congr (if_neg ?_) rfl, .inl rfl⟩
      rintro rfl
      exact nonempty (List.map_eq_nil_iff.mp (queue.2.p1_head_eq_iff.mp empty))
  | _ => exact same rfl rfl

/-! ## Turns -/

/-- Transaction `t` is before transaction `u` on the queue of service `s`. -/
def State.Ahead (σ : State) (s : ServiceId) (t u : TranId) : Prop :=
  ∃ waiting, σ.Queue s waiting ∧ List.Sublist [t, u] waiting

namespace State.Ahead

variable (ahead : σ.Ahead s t u)

include ahead

theorem queued : σ.Queued s t ∧ σ.Queued s u := by
  obtain ⟨waiting, queue, order⟩ := ahead
  exact ⟨⟨waiting, queue, order.subset (by simp)⟩, waiting, queue, order.subset (by simp)⟩

theorem not_first : σ.links.p2 (.head s) ≠ .tran u := by
  intro first
  obtain ⟨waiting, queue, order⟩ := ahead
  have distinct : waiting.Nodup := List.Nodup.of_map _ (List.nodup_cons.mp queue.2.nodup).2
  cases waiting with
  | nil => cases order
  | cons v rest =>
      obtain rfl : v = u := Node.tran.inj (queue.2.linked_first.1.symm.trans first)
      cases order with
      | cons _ later => exact (List.nodup_cons.mp distinct).1 (later.subset (by simp))
      | cons_cons _ later => exact (List.nodup_cons.mp distinct).1 (later.subset (by simp))

theorem effect (all : Inv ⟨φ, σ⟩) (eff : Effect σ₀ e ⟨φ, σ⟩ ⟨φ', τ⟩)
    (first : τ.tran t ≠ none) (second : τ.tran u ≠ none) : τ.Ahead s t u := by
  obtain ⟨waiting, queue, order⟩ := ahead
  have nonempty : waiting ≠ [] := by
    rintro rfl
    cases order
  obtain ⟨waiting', queue', rfl | ⟨v, _, rfl, _⟩ | ⟨v, gone, rfl⟩⟩ :=
    queue_of_effect all eff queue nonempty
  · exact ⟨waiting', queue', order⟩
  · exact ⟨_, queue', order.trans (List.sublist_append_left _ _)⟩
  · refine ⟨_, queue', ?_⟩
    have kept : [t, u].erase v = [t, u] := by
      refine List.erase_of_not_mem ?_
      simp only [List.mem_cons, List.not_mem_nil, or_false, not_or]
      exact ⟨fun same => first (same ▸ gone), fun same => second (same ▸ gone)⟩
    rw [← kept]
    exact order.erase v

/-- What waits behind something is not handed out. -/
theorem undispatched (all : Inv ⟨φ, σ⟩) (eff : Effect σ₀ e ⟨φ, σ⟩ ⟨φ', τ⟩) (new : ¬σ.Dispatched u) :
    ¬τ.Dispatched u := by
  rintro ⟨a, w, seen⟩
  have unseen : .dispatched a w u ∉ σ.log := fun seen => new ⟨a, w, seen⟩
  cases eff with
  | begin | call =>
      simp only [State.begin, State.observe, State.mapClient, List.mem_cons, reduceCtorEq,
        false_or] at seen
      exact unseen seen
  | assignUp up =>
      rcases List.mem_cons.mp seen with same | seen
      · obtain ⟨_, _, rfl⟩ := Obs.dispatched.inj same
        obtain ⟨_, _, uploading, _⟩ := all.dispatches.uploaded u up
        exact WaitQueues.not_alone_of_queued ahead.queued.2 uploading.alone
      · exact unseen seen
  | @assignWork _ _ _ _ _ v _ _ _ _ _ _ _ _ _ _ _ flagged _ first =>
      rcases List.mem_cons.mp seen with same | seen
      · obtain ⟨_, _, rfl⟩ := Obs.dispatched.inj same
        obtain ⟨tr, found, service⟩ := all.waits.tran_of_queued ahead.queued.2
        obtain ⟨tr', found', service'⟩ :=
          all.waits.tran_of_queued (all.waits.queued_of_first flagged first)
        obtain rfl := Option.some.inj (found.symm.trans found')
        exact ahead.not_first (service ▸ service' ▸ first)
      · exact unseen seen
  | _ => exact unseen seen

end State.Ahead

/-- The turn of `u` comes after that of `t`, if at all: `t` is gone, or `u` is, or waits behind it,
and has not been handed out. -/
def Behind (s : ServiceId) (t u : TranId) (σ : State) : Prop :=
  σ.tran t = none ∧ t < σ.next ∨ ¬σ.Dispatched u ∧ (σ.tran u = none ∧ u < σ.next ∨ σ.Ahead s t u)

theorem WaitQueues.old_of_queued (waits : WaitQueues σ) (queued : σ.Queued s t) : t < σ.next := by
  obtain ⟨tr, found, _⟩ := waits.tran_of_queued queued
  exact (waits.old (.tran t) (Option.isSome_of_eq_some found)).1

namespace Behind

theorem effect (behind : Behind s t u σ) (all : Inv ⟨φ, σ⟩) (eff : Effect σ₀ e ⟨φ, σ⟩ ⟨φ', τ⟩) :
    Behind s t u τ := by
  rcases behind with ⟨gone, old⟩ | ⟨new, ⟨gone, old⟩ | ahead⟩
  · exact .inl ⟨tran_of_effect eff gone old, old.trans_le eff.next_le⟩
  · refine .inr ⟨?_, .inl ⟨tran_of_effect eff gone old, old.trans_le eff.next_le⟩⟩
    intro dispatched
    rcases dispatched_of_effect eff dispatched with dispatched | ⟨⟨tr, found⟩, _⟩
    · exact new dispatched
    · cases gone.symm.trans found
  · by_cases first : τ.tran t = none
    · exact .inl ⟨first, (all.waits.old_of_queued ahead.queued.1).trans_le eff.next_le⟩
    · refine .inr ⟨ahead.undispatched all eff new, ?_⟩
      by_cases second : τ.tran u = none
      · exact .inl ⟨second, (all.waits.old_of_queued ahead.queued.2).trans_le eff.next_le⟩
      · exact .inr (ahead.effect all eff first second)

theorem trace {κ : Conf} (behind : Behind s t u σ) (inv : Inv ⟨{}, σ⟩)
    (trace : Trace σ e ⟨{}, σ⟩ κ) :
    Behind s t u κ.state := by
  induction trace with
  | refl => exact behind
  | tail sofar eff ih => exact ih.effect (inv.trace sofar) eff

theorem run {events : List Event} (behind : Behind s t u σ) (reach : Reachable anyStep σ)
    (execution : run σ events = .ok τ) : Behind s t u τ := by
  induction events generalizing σ with
  | nil =>
      obtain rfl : σ = τ := Except.ok.inj execution
      exact behind
  | cons e events ih =>
      obtain ⟨μ, first, rest⟩ := run_cons_ok_iff.mp execution
      have inv := inv_of_reachable reach
      exact ih (behind.trace inv (step_trace inv first)) (reach.next trivial first) rest

/-- Whatever comes to wait while `t` does comes to wait behind it. -/
theorem of_effect (waits : σ.Queued s t) (comes : ¬σ.Queued s u) (all : Inv ⟨φ, σ⟩)
    (eff : Effect σ₀ e ⟨φ, σ⟩ ⟨φ', τ⟩) : τ.Queued s t ∧ ¬τ.Queued s u ∨ Behind s t u τ := by
  obtain ⟨waiting, queue, member⟩ := waits
  have away : u ∉ waiting := fun inside => comes ⟨waiting, queue, inside⟩
  have still : ∀ {waiting'}, τ.Queue s waiting' → t ∈ waiting' → u ∉ waiting' →
      τ.Queued s t ∧ ¬τ.Queued s u ∨ Behind s t u τ := by
    intro waiting' queue' member' away'
    refine .inl ⟨⟨waiting', queue', member'⟩, ?_⟩
    rintro ⟨waiting'', queue'', inside⟩
    exact away' (queue''.unique queue' ▸ inside)
  obtain ⟨waiting', queue', rfl | ⟨v, up, rfl, log⟩ | ⟨v, gone, rfl⟩⟩ :=
    queue_of_effect all eff queue (List.ne_nil_of_mem member)
  · exact still queue' member away
  · by_cases enters : u = v
    · subst enters
      obtain ⟨_, _, uploading, _⟩ := all.dispatches.uploaded u up
      refine .inr (.inr ⟨?_, .inr ⟨_, queue', (List.singleton_sublist.mpr member).append
        (.refl [u])⟩⟩)
      simpa only [State.Dispatched, log] using uploading.new
    · exact still queue' (List.mem_append_left _ member) (by simp [away, enters])
  · by_cases leaves : t = v
    · have old := all.waits.old_of_queued ⟨waiting, queue, member⟩
      exact .inr (.inl ⟨leaves ▸ gone, old.trans_le eff.next_le⟩)
    · exact still queue' ((List.mem_erase_of_ne leaves).mpr member) fun inside =>
        away (List.mem_of_mem_erase inside)

theorem of_trace {κ : Conf} (waits : σ.Queued s t) (comes : ¬σ.Queued s u) (inv : Inv ⟨{}, σ⟩)
    (trace : Trace σ e ⟨{}, σ⟩ κ) :
    κ.state.Queued s t ∧ ¬κ.state.Queued s u ∨ Behind s t u κ.state := by
  induction trace with
  | refl => exact .inl ⟨waits, comes⟩
  | tail sofar eff ih =>
      rcases ih with ⟨waits, comes⟩ | behind
      · exact of_effect waits comes (inv.trace sofar) eff
      · exact .inr (behind.effect (inv.trace sofar) eff)

end Behind

/-- In every run, a request that finds another one on the queue of its service is not handed out as
long as that one is there, not even when that has been handed out itself, or carried out. -/
theorem requests_take_turns {events : List Event} {μ : State} (reach : Reachable anyStep σ)
    (waits : σ.Queued s t) (comes : ¬σ.Queued s u) (done : step σ e = .ok μ) (enters : μ.Queued s u)
    (execution : run μ events = .ok τ) (current : τ.tran t ≠ none) : ¬τ.Dispatched u := by
  have inv := inv_of_reachable reach
  have behind : Behind s t u μ :=
    (Behind.of_trace waits comes inv (step_trace inv done)).resolve_left fun outside =>
      outside.2 enters
  rcases behind.run (reach.next trivial done) execution with ⟨gone, _⟩ | ⟨new, _⟩
  · exact absurd gone current
  · exact new

open Scenario in
/-- Transaction 16 comes to wait behind transaction 12. Worker 0 is given transaction 12, returns a
result and asks again: it is given transaction 12 once more. -/
theorem requests_take_turns_again : ∃ σ τ : State, σ.Queued 7 12 ∧ τ.handedOut = [12, 12] ∧
    ¬τ.Dispatched 16 := by
  let comes := receive 4 (svcname 65 ++ longBytes 0 ++ longBytes 0) 10
  obtain ⟨σ, _, reach, seen⟩ := reachable_of_outcome
    ([connect, connect, connect] ++ advertise 0 65 ++ call 2 65 0 9 ++ [receive 4 [TPTCALL] 0])
    (fun σ => decide ((σ.service 7).map Service.waitContainsTransactions = some true ∧
      σ.links.p2 (.head 7) = .tran 12 ∧ (σ.tran 16).isNone) &&
      (step σ comes).toOption.any fun (μ : State) =>
        decide ((μ.tran 16).map Transaction.svc = some 7 ∧ μ.links.p1 (.tran 16) ≠ .tran 16) &&
        (run μ (work 0 ++ giveBack 0 2 0 ++ work 0)).toOption.any fun (τ : State) =>
          decide (τ.handedOut = [12, 12] ∧ (τ.tran 12).isSome)) true (by decide +kernel)
  obtain ⟨here, seen⟩ := Bool.and_eq_true_iff.mp seen
  obtain ⟨μ, done, seen⟩ := ok_of_any seen
  obtain ⟨there, seen⟩ := Bool.and_eq_true_iff.mp seen
  obtain ⟨τ, execution, seen⟩ := ok_of_any seen
  obtain ⟨flag, first, absent⟩ := of_decide_eq_true here
  obtain ⟨named, linked⟩ := of_decide_eq_true there
  obtain ⟨handed, current⟩ := of_decide_eq_true seen
  have waits : σ.Queued 7 12 :=
    (inv_of_reachable reach).waits.queued_of_first (Option.map_eq_some_iff.mp flag) first
  have outside : ¬σ.Queued 7 16 := by
    intro queued
    obtain ⟨tr, found, _⟩ := (inv_of_reachable reach).waits.tran_of_queued queued
    cases (Option.isNone_iff_eq_none.mp absent).symm.trans found
  have enters : μ.Queued 7 16 := by
    obtain ⟨tr, found, service⟩ := Option.map_eq_some_iff.mp named
    rw [← service]
    exact ((inv_of_reachable (reach.next trivial done)).waits.tran 16 tr found).resolve_left
      fun alone =>
      linked alone.1
  exact ⟨σ, τ, waits, handed, requests_take_turns reach waits outside done enters execution
    (Option.isSome_iff_ne_none.mp current)⟩

end Switchboard
end Xatmi
