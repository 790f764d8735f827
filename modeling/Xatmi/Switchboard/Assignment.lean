import Xatmi.Switchboard.Handover
import Xatmi.Switchboard.Waking

/-!
# What a worker works on

`send_to_server` enters the transaction in the worker and the worker's advertisement in the
transaction. Both entries are there when the worker returns, unless the transaction has been deleted
in between, or the worker has waited for a reply itself: `wait4` is one field for what a client
executes and for what it waits for.
-/

namespace Xatmi
namespace Switchboard

open Program

variable {σ₀ σ τ : State} {e : Event} {φ φ' : Phase} {w k : ClientId} {a : AdvertId} {t : TranId}
  {tr : Transaction}

/-! ## The assignment -/

/-- Worker `w` executes transaction `t` through its advertisement `a`. -/
structure Assigned (w : ClientId) (a : AdvertId) (t : TranId) (tr : Transaction) (φ : Phase)
    (σ : State) : Prop where
  worker : ∃ x, σ.client w = some x ∧ x.wait4 = some (.tran t)
  found : σ.tran t = some tr
  executor : tr.executor = some a
  advert : ∃ v, σ.advert a = some v ∧ v.client = w ∧ v.svc = tr.svc
  attached : φ.det ≠ some a
  away : ¬Waiting φ σ w
  unfinished : φ.fin ≠ some t
  unanswered : ∀ k y, σ.client k = some y → t ∉ y.replies

/-- The event leaves worker `w` what it executes through `a` for client `k`: nothing is dispatched
twice, neither client is deleted, and the worker withdraws nothing, asks for nothing and returns
nothing. -/
structure LeavesWork (σ : State) (e : Event) (w : ClientId) (a : AdvertId) (k : ClientId) :
    Prop where
  new : PicksNew σ e
  worker : ¬Closes σ e w
  owner : ¬Closes σ e k
  offers : ¬Unadvertises σ e w a
  busy : ¬Commands σ e w TPTWORK
  silent : ¬∃ request, Received σ e w .svrgetrply request
  executes : ¬Returns σ e w

namespace Assigned

theorem mono (assigned : Assigned w a t tr φ σ)
    (worker : ∀ x, σ.client w = some x → x.wait4 = some (.tran t) →
      ∃ y, τ.client w = some y ∧ y.wait4 = some (.tran t))
    (found : σ.tran t = some tr → τ.tran t = some tr)
    (advert : ∀ v, σ.advert a = some v → τ.advert a = some v)
    (attached : φ'.det ≠ some a) (away : ¬Waiting φ' τ w)
    (unfinished : φ'.fin ≠ some t)
    (replies : ∀ k y, τ.client k = some y → t ∈ y.replies →
      ∃ x, σ.client k = some x ∧ t ∈ x.replies) :
    Assigned w a t tr φ' τ where
  worker := by
    obtain ⟨x, live, serves⟩ := assigned.worker
    exact worker x live serves
  found := found assigned.found
  executor := assigned.executor
  advert := by
    obtain ⟨v, current, rest⟩ := assigned.advert
    exact ⟨v, advert v current, rest⟩
  attached := attached
  away := away
  unfinished := unfinished
  unanswered := by
    intro k y live member
    obtain ⟨x, live', member'⟩ := replies k y live member
    exact assigned.unanswered k x live' member'

/-- Whoever may finish the transaction is its worker. -/
theorem unique (assigned : Assigned w a t tr φ σ) (sound : Sound ⟨φ, σ⟩) {c : ClientId} {x : Client}
    (live : σ.client c = some x) (running : φ.run = some c) (serves : x.wait4 = some (.tran t)) :
    c = w := by
  have dispatches : Dispatches φ σ := sound.all.dispatches
  obtain ⟨v, advert, owner, _⟩ := assigned.advert
  obtain ⟨_, seen⟩ := (dispatches.active c x live (.inr running)).2 t serves
  obtain ⟨_, seen', worker⟩ := dispatches.executor t tr a assigned.found assigned.executor
  rw [← owner, worker v advert]
  exact (worker_unique sound.parking.once seen seen').2

/-- The transaction has been handed out. -/
theorem dispatched (assigned : Assigned w a t tr φ σ) (all : Inv ⟨φ, σ⟩) : σ.Dispatched t := by
  obtain ⟨c, seen, _⟩ := all.dispatches.executor t tr a assigned.found assigned.executor
  exact ⟨a, c, seen⟩

section Effects

variable (assigned : Assigned w a t tr φ σ)

include assigned

/-- One client changes; the worker keeps what it executes, and nobody gets the reply. -/
theorem of_change {c : ClientId} {update : Client → Client}
    (client : τ.client = change σ.client c update) (wait : c = w → ∀ x, (update x).wait4 = x.wait4)
    (replies : ∀ x, t ∈ (update x).replies → t ∈ x.replies) (found : τ.tran t = σ.tran t)
    (advert : ∀ v, σ.advert a = some v → τ.advert a = some v) (attached : φ'.det ≠ some a)
    (away : ¬Waiting φ' τ w) (unfinished : φ'.fin ≠ some t) : Assigned w a t tr φ' τ := by
  refine assigned.mono ?_ (fun current => found ▸ current) advert attached away unfinished ?_
  · intro x live serves
    refine ⟨_, by rw [client]; exact change_eq_some_iff.mpr ⟨x, live, rfl⟩, ?_⟩
    split
    · rename_i same
      rw [wait same.symm, serves]
    · exact serves
  · intro k y live member
    rw [client] at live
    obtain ⟨x, live', rfl⟩ := change_eq_some_iff.mp live
    refine ⟨x, live', ?_⟩
    split at member
    · exact replies x member
    · exact member

/-- Another transaction is deleted. -/
theorem delTran {t' : TranId} {tr' : Transaction} (different : t' ≠ t)
    (away : ¬Waiting φ (σ.delTran t' tr') w) :
    Assigned w a t tr φ (σ.delTran t' tr') := by
  refine assigned.mono ?_ (fun current => put_none_eq_some_iff.mpr ⟨different.symm, current⟩)
    (fun _ => id) assigned.attached away assigned.unfinished ?_
  · intro x live serves
    refine ⟨_, Option.map_eq_some_iff.mpr ⟨x, live, rfl⟩, ?_⟩
    simp only [State.bereave, serves]
    exact if_neg fun both => different (Wait.tran.inj (Option.some.inj both.1)).symm
  · intro k y live member
    obtain ⟨x, live', rfl⟩ := Option.map_eq_some_iff.mp live
    refine ⟨x, live', ?_⟩
    simp only [State.bereave] at member
    split at member
    · exact List.mem_of_mem_erase member
    · exact member

/-- Another client is answered. -/
theorem reply {t' : TranId} {tr' : Transaction} (contents : Bytes) (different : t' ≠ t)
    (other : tr'.client ≠ w) (away : ¬Waiting φ (σ.reply t' tr' contents) w) :
    Assigned w a t tr φ (σ.reply t' tr' contents) := by
  have answered : Assigned w a t tr φ (((σ.write tr'.client (replyFrame tr' contents)).nextCommand
      tr'.client).mapClient tr'.client fun x => { x with wait4 := none }) := by
    refine assigned.of_change (change_change _ _ _ _) (fun same => absurd same other)
      (fun _ => id) rfl (fun _ => id) assigned.attached ?_ assigned.unfinished
    rintro (⟨b, v, advert, owner, linked⟩ | parked)
    · exact assigned.away (.inl ⟨b, v, advert, owner, linked⟩)
    · exact assigned.away (.inr parked)
  exact answered.delTran different away

/-- Another worker is given another transaction. -/
theorem assign {a' : AdvertId} {v' : Advert} {t' : TranId} {frame : Bytes} {adverts : List AdvertId}
    (different : t ≠ t') (other : v'.client ≠ w) (attached : φ'.det ≠ some a)
    (away : ¬Waiting φ' ((σ.dismiss adverts).assign a' v' t' frame) w)
    (unfinished : φ'.fin ≠ some t) :
    Assigned w a t tr φ' ((σ.dismiss adverts).assign a' v' t' frame) := by
  refine assigned.of_change (change_change _ _ _ _) (fun same => absurd same other) (fun _ => id) ?_
    (fun _ => id) attached away unfinished
  exact if_neg different

/-- What the event leaves alone, every effect of it leaves alone. -/
theorem effect (sound : Sound ⟨φ, σ⟩) (before : Parking {} σ₀) (trace : Trace σ₀ e ⟨{}, σ₀⟩ ⟨φ, σ⟩)
    (leaves : LeavesWork σ₀ e w a tr.client) (eff : Effect σ₀ e ⟨φ, σ⟩ ⟨φ', τ⟩) :
    Assigned w a t tr φ' τ := by
  have all : Inv ⟨φ, σ⟩ := sound.all
  have rings : Rings φ σ := sound.parking.rings
  have dispatches : Dispatches φ σ := all.dispatches
  have away : (φ'.parked = some w → φ.parked = some w) → ¬Waiting φ' τ w :=
    fun parked waits => assigned.away (rings.waiting_of_effect before.unlinked all eff parked waits)
  have closes : ∀ {c}, φ.closing = some c → c ≠ w ∧ c ≠ tr.client := fun closing => by
    have closes := closes_of_trace trace closing
    exact ⟨fun same => leaves.worker (same ▸ closes), fun same => leaves.owner (same ▸ closes)⟩
  have same : ∀ k y, σ.client k = some y → t ∈ y.replies → ∃ x, σ.client k = some x ∧
      t ∈ x.replies :=
    fun k y live member => ⟨y, live, member⟩
  obtain ⟨x, live, serves⟩ := assigned.worker
  obtain ⟨v, advert, owner, svc⟩ := assigned.advert
  have found := assigned.found
  have attached := assigned.attached
  have unfinished := assigned.unfinished
  have unanswered := assigned.unanswered
  cases eff with
  | call | write | release | resize | enqueue | park | found | dropService | spare | orphan =>
      exact assigned.mono (fun x live serves => ⟨x, live, serves⟩) id (fun _ => id) attached
        (away id) unfinished same
  | fill | next | armHeader | armUpload | armReturn =>
      exact assigned.of_change rfl (fun _ _ => rfl) (fun _ => id) rfl (fun _ => id) attached
        (away id) unfinished
  | begin =>
      exact assigned.of_change rfl (fun _ _ => rfl) (fun _ => id) rfl (fun _ => id)
        (by simp [Phase.called]) (away (by simp [Phase.called])) (by simp [Phase.called])
  | connect =>
      have old : w ≠ σ₀.next := by
        rintro rfl
        cases (all.fresh.client_next all.registry).symm.trans live
      refine assigned.mono ?_ id (fun _ => id) attached (away id) unfinished ?_
      · intro x live serves
        exact ⟨x, change_eq_some_iff.mpr ⟨x, put_eq_some_iff.mpr (.inr ⟨old, live⟩),
          (if_neg old).symm⟩, serves⟩
      · intro k y live member
        obtain ⟨z, live', rfl⟩ := change_eq_some_iff.mp live
        rcases put_eq_some_iff.mp live' with ⟨rfl, made⟩ | ⟨other, live'⟩
        · rw [if_pos rfl, ← Option.some.inj made] at member
          cases member
        · rw [if_neg other] at member
          exact ⟨z, live', member⟩
  | rest _ asked =>
      refine assigned.mono (fun x live serves => ⟨x, live, serves⟩) id (fun _ => id) attached
        (away fun parked => ?_) unfinished same
      obtain rfl := Option.some.inj parked
      exact absurd asked leaves.busy
  | submit =>
      refine assigned.of_change rfl (fun _ _ => rfl) (fun _ => id) ?_ (fun _ => id) attached
        (away id) unfinished
      have old := (all.waits.old (.tran t) (Option.isSome_of_eq_some found)).1
      exact if_neg (old.trans (Nat.lt_succ_self _)).ne
  | offer =>
      refine assigned.of_change rfl (fun _ _ => rfl) (fun _ => id) rfl (fun v current => ?_)
        attached (away id) unfinished
      refine put_eq_some_iff.mpr (.inr ⟨?_, current⟩)
      rintro rfl
      have waits : WaitQueues σ := all.waits
      simp [waits.fresh_advert] at current
  | @assignUp _ _ b u _ t' _ _ _ _ up _ offered _ nonempty first current =>
      obtain ⟨_, _, uploading, _⟩ := dispatches.uploaded _ up
      refine assigned.assign ?_ ?_ attached (away id) unfinished
      · rintro rfl
        exact uploading.new (assigned.dispatched all)
      · intro mine
        obtain ⟨_, linked⟩ := sound.rings.first_entry offered nonempty
        rw [first] at linked
        exact assigned.away (.inl ⟨b, u, current, mine, linked⟩)
  | @assignWork _ _ c y b u _ t' _ _ _ _ asked picks live' mine current _ _ _ _ _ _ _ _ _ fresh =>
      refine assigned.assign ?_ ?_ attached (away id) unfinished
      · rintro rfl
        obtain ⟨b, k, seen⟩ := assigned.dispatched all
        exact leaves.new.undispatched asked picks ⟨b, k, fresh b k t seen⟩
      · intro here
        obtain ⟨_, u', current', client, _⟩ := all.registry.tree c y b live' mine
        obtain rfl := Option.some.inj (current.symm.trans current')
        exact leaves.busy ((client.symm.trans here) ▸ asked)
  | block _ _ _ asked =>
      refine assigned.of_change rfl (fun here => ?_) (fun _ => id) rfl (fun _ => id) attached
        (away id) unfinished
      exact absurd (here ▸ asked) leaves.silent
  | @replyQueued _ _ c y _ t' tr' _ _ asked live' queued _ _ deletable =>
      have client := all.own.owner_eq live' (List.mem_append_right _ queued) deletable.live
      refine assigned.reply _ ?_ ?_ (away id)
      · rintro rfl
        exact unanswered c y live' queued
      · intro here
        exact leaves.silent ((client.symm.trans here) ▸ asked)
  | @replyWaiting _ _ y t' tr' _ fin live' _ waiting deletable =>
      have different : t' ≠ t := fun same => unfinished (same ▸ fin)
      have other : tr'.client ≠ w := by
        intro here
        rw [here] at live'
        obtain rfl := Option.some.inj (live.symm.trans live')
        rw [serves] at waiting
        rcases waiting with same | ⟨_, any⟩
        · exact different (Wait.tran.inj (Option.some.inj same)).symm
        · cases any
      have answered := assigned.reply _ different other (away id)
      exact ⟨answered.worker, answered.found, answered.executor, answered.advert, answered.attached,
        away id, by simp, answered.unanswered⟩
  | @requeue _ _ y t' tr' fin =>
      have different : t ≠ t' := fun same => unfinished (same ▸ fin)
      refine assigned.of_change rfl (fun _ _ => rfl) (fun y member => ?_) rfl (fun _ => id) attached
        (away id) (by simp)
      rcases List.mem_append.mp member with old | new
      · exact List.mem_of_mem_erase old
      · exact absurd (List.mem_singleton.mp new) different
  | @setReturn _ _ c y t' tr' _ _ _ _ running live' serves' found' _ _ asked =>
      have different : t ≠ t' := by
        rintro rfl
        obtain rfl := assigned.unique sound live' running serves'
        exact leaves.executes (asked.imp fun _ => .inl)
      refine assigned.mono (fun x live serves => ⟨x, live, serves⟩) (fun current => ?_)
        (fun _ => id) attached (away id) unfinished same
      rw [State.setReturn_tran]
      exact (if_neg different).trans current
  | @finish _ _ c y t' tr' running _ live' serves' _ asked =>
      have other : c ≠ w := fun here => leaves.executes (here ▸ asked)
      have different : t ≠ t' := by
        rintro rfl
        exact other (assigned.unique sound live' running serves')
      exact assigned.of_change rfl (fun here => absurd here other) (fun _ => id) (if_neg different)
        (fun _ => id) attached (away id) fun fin => different (Option.some.inj fin).symm
  | @fail _ _ c y t' tr' b u closing _ live' serves' found' executor' advert' mine =>
      have different : t ≠ t' := by
        rintro rfl
        obtain rfl := Option.some.inj (found.symm.trans found')
        obtain rfl := Option.some.inj (assigned.executor.symm.trans executor')
        obtain rfl := Option.some.inj (advert.symm.trans advert')
        exact (closes closing).1 (mine.symm.trans owner)
      exact assigned.of_change rfl (fun here => absurd here (closes closing).1) (fun _ => id)
        (if_neg different) (fun _ => id) attached (away id) fun fin =>
        different (Option.some.inj fin).symm
  | close =>
      exact assigned.mono (fun x live serves => ⟨x, live, serves⟩) id (fun _ => id) (by simp)
        (away (by simp)) (by simp) same
  | @detach _ _ c y b u _ _ live' mine reason advert' =>
      refine assigned.of_change rfl (fun _ _ => rfl) (fun _ => id) rfl (fun _ => id) ?_
        (away id) unfinished
      intro det
      obtain rfl := Option.some.inj det
      obtain ⟨_, u', current, client, _⟩ := all.registry.tree c y b live' mine
      obtain rfl := Option.some.inj (advert.symm.trans current)
      have here : c = w := client.symm.trans owner
      rcases reason with ⟨closing, _⟩ | ⟨_, unadvertises, _⟩
      · exact (closes closing).1 here
      · exact leaves.offers (here ▸ unadvertises)
  | @sweep _ _ s t' tr' orphan queued nonempty first deletable =>
      refine assigned.delTran ?_ (away id)
      rintro rfl
      obtain ⟨service, current, _⟩ := queued
      obtain ⟨at_, _⟩ := sound.rings.first_entry current nonempty
      rw [first, State.home_tran found] at at_
      have here : tr.svc = s := Node.head.inj (Option.some.inj at_)
      exact attached ((all.registry.orphan s orphan).2 a v advert (svc.trans here))
  | dropAdvert det =>
      refine assigned.mono (fun x live serves => ⟨x, live, serves⟩) id (fun v current => ?_)
        (by simp) (away id) unfinished same
      refine put_none_eq_some_iff.mpr ⟨?_, current⟩
      rintro rfl
      exact attached det
  | @purge _ _ c y t' tr' closing _ _ _ live' _ mine deletable =>
      refine assigned.delTran ?_ (away id)
      rintro rfl
      have client := all.own.owner_eq live' (List.mem_append.mpr mine) found
      exact (closes closing).2 client.symm
  | @dropClient _ _ c y closing =>
      refine assigned.mono ?_ id (fun _ => id) attached (away id) unfinished ?_
      · intro x live serves
        exact ⟨x, put_none_eq_some_iff.mpr ⟨(closes closing).1.symm, live⟩, serves⟩
      · intro k z live member
        exact ⟨z, (put_none_eq_some_iff.mp live).2, member⟩
  | done =>
      exact assigned.mono (fun x live serves => ⟨x, live, serves⟩) id (fun _ => id) (by simp)
        (away (by simp)) (by simp) same

end Effects

theorem trace {κ : Conf} (assigned : Assigned w a t tr {} σ) (sound : Sound ⟨{}, σ⟩)
    (leaves : LeavesWork σ e w a tr.client) (trace : Trace σ e ⟨{}, σ⟩ κ) :
    Assigned w a t tr κ.phase κ.state := by
  induction trace with
  | refl => exact assigned
  | tail sofar eff ih =>
      exact ih.effect (sound.trace sound.parking leaves.new sofar) sound.parking sofar leaves eff

theorem of_step (assigned : Assigned w a t tr {} σ) (sound : Sound ⟨{}, σ⟩)
    (leaves : LeavesWork σ e w a tr.client) (done : step σ e = .ok τ) : Assigned w a t tr {} τ :=
  assigned.trace sound leaves (step_trace sound.all done)

end Assigned

theorem assigned_of_dispatch (reach : Reachable PicksNew σ) (new : PicksNew σ e)
    (done : step σ e = .ok τ) (fresh : .dispatched a w t ∉ σ.log)
    (seen : .dispatched a w t ∈ τ.log) : ∃ tr, Assigned w a t tr {} τ := by
  have reach' : Reachable PicksNew τ := .next reach new done
  obtain ⟨given, log, sends⟩ := step_sends (inv_of_reachable reach) done
  have here : .dispatched a w t ∈ given := by
    rw [log] at seen
    exact (List.mem_append.mp seen).resolve_right fresh
  obtain ⟨v, tr, svc, data, handed⟩ := sends a w t here
  obtain ⟨x, live, reading, serves⟩ := handed.worker
  have parking : Parking {} τ := (sound_of_reachable reach').parking
  refine ⟨tr, ⟨x, live, serves⟩, handed.found, handed.executor, ⟨v, handed.kept, handed.owner,
    handed.same.symm⟩, by simp, parking.not_waiting live (.inl (by simp [reading])), by simp, ?_⟩
  intro k y live' member
  exact answered_of_reachable reach' k y t live' member w x a live serves seen

/-! ## Returning -/

/-- What a client sends is not touched by what becomes of its queues and of other buffers. -/
theorem State.Reading.congr {c : ClientId} {handler : Handler} {room : Nat} {got : Bytes}
    (reading : σ.Reading c handler room got)
    (client : ∀ x, σ.client c = some x → ∃ y, τ.client c = some y ∧ y.intake = x.intake)
    (buf : ∀ x b contents, σ.client c = some x → x.input = some b → σ.buf b = some contents →
      τ.buf b = some contents) : τ.Reading c handler room got := by
  obtain ⟨x, b, contents, live, reads, into, used, stored, rest⟩ := reading
  obtain ⟨y, live', same⟩ := client x live
  simp only [Client.intake, Prod.mk.injEq] at same
  exact ⟨y, b, contents, live', same.1.trans reads, same.2.1.trans into, same.2.2.trans used,
    buf x b contents live into stored, rest⟩

/-- Client `w` executes nothing, and its next command is read. -/
def State.AtCommand (σ : State) (w : ClientId) : Prop :=
  σ.Reading w .command 1 [] ∧ ∃ x, σ.client w = some x ∧ x.wait4 = none

/-- Transaction `t` with the result in `tr` and `data` has been sent to its client, or is among its
replies. -/
def Completes (σ τ : State) (t : TranId) (tr : Transaction) (data : Bytes) : Prop :=
  τ.tran t = none ∧ τ.sent tr.client = σ.sent tr.client ++ replyFrame tr data ∨
    τ.tran t = some { tr with executor := none } ∧ τ.buf tr.data = some data ∧
      ∃ y ∈ τ.client tr.client, t ∈ y.replies

/-- `part2` for a worker and the transaction it executes sends the reply to a client that waits for
it, and keeps it for any other. -/
theorem Finishing.outcome {c : ClientId} {data : Bytes} {μ : State}
    (finishing : Finishing σ e c t tr data μ) (sound : Sound ⟨{}, σ⟩) (new : PicksNew σ e)
    (b : BufId) :
    ∃ y, ((μ.nextCommand c).finish c t id).client tr.client = some y ∧
      (tr.client ≠ c ∧ part2 c b μ =
          .ok (⟨⟩, ((μ.nextCommand c).finish c t id).reply t { tr with executor := none } data) ∨
        part2 c b μ = .ok (⟨⟩, ((μ.nextCommand c).finish c t id).requeue t
        { tr with executor := none })) := by
  obtain ⟨x, live, idle, serves⟩ := finishing.worker
  have finished : Sound ⟨{ run := some c, fin := some t }, (μ.nextCommand c).finish c t id⟩ :=
    sound.trace sound.parking new finishing.ends
  obtain ⟨y, owner, _⟩ := finished.all.own.owned t _ finishing.current
  have owner : ((μ.nextCommand c).finish c t id).client tr.client = some y := owner
  refine ⟨y, owner, ?_⟩
  rw [part2_run live idle serves finishing.found owner]
  by_cases waiting : y.wait4 = some .any ∨ y.wait4 = some (.tran t)
  · have other : tr.client ≠ c := by
      intro same
      rw [same] at owner
      obtain ⟨_, _, rfl⟩ := change_eq_some_iff.mp owner
      rw [if_pos rfl] at waiting
      simp at waiting
    have idle' : y.Idle := finished.idle_of_finished rfl owner waiting
    refine .inl ⟨other, ?_⟩
    rw [if_pos (by simpa using waiting)]
    exact finishing.sends sound.all owner idle'
  · refine .inr ?_
    rw [if_neg (by simpa using waiting)]
    exact queueReply_ok_iff.mpr ⟨_, y, finishing.current, owner, rfl⟩

/-- The worker is sent nothing. -/
theorem Finishing.silent {c : ClientId} {data : Bytes} {μ : State}
    (finishing : Finishing σ e c t tr data μ) (sound : Sound ⟨{}, σ⟩) (new : PicksNew σ e)
    {b : BufId} (done : part2 c b μ = .ok (⟨⟩, τ)) :
    τ.sent c = σ.sent c := by
  have before : μ.sent c = σ.sent c := congrFun finishing.sent c
  obtain ⟨_, _, ⟨other, done'⟩ | done'⟩ := finishing.outcome sound new b
  · obtain ⟨_, rfl⟩ := Prod.mk.inj (Except.ok.inj (done.symm.trans done'))
    exact (if_neg other.symm).trans before
  · obtain ⟨_, rfl⟩ := Prod.mk.inj (Except.ok.inj (done.symm.trans done'))
    exact before

theorem Finishing.completes {c : ClientId} {data : Bytes} {μ : State}
    (finishing : Finishing σ e c t tr data μ) (sound : Sound ⟨{}, σ⟩) (new : PicksNew σ e)
    (b : BufId) :
    ∃ τ, part2 c b μ = .ok (⟨⟩, τ) ∧ Completes σ τ t tr data ∧ τ.AtCommand c := by
  obtain ⟨x, live, idle, serves⟩ := finishing.worker
  let ρ := (μ.nextCommand c).finish c t id
  have live' : (μ.nextCommand c).client c =
      some { x with handler := some .command, input := some μ.next, used := 0 } :=
    change_eq_some_iff.mpr ⟨x, live, by rw [if_pos rfl]⟩
  have free : ρ.client c =
      some { x with handler := some .command, input := some μ.next, used := 0, wait4 := none } :=
    change_eq_some_iff.mpr ⟨_, live', by rw [if_pos rfl]⟩
  have reading : ρ.Reading c .command 1 [] :=
    (reading_nextCommand live).congr (fun y armed =>
      ⟨_, change_eq_some_iff.mpr ⟨y, armed, rfl⟩, by split <;> rfl⟩)
      fun _ _ _ _ _ stored => stored
  obtain ⟨y, owner, ⟨other, done⟩ | done⟩ := finishing.outcome sound new b
  · have old : tr.data < μ.next := (sound.all.trace finishing.trace).fresh.buf _ data finishing.room
    have armed : ((ρ.write tr.client (replyFrame tr data)).nextCommand tr.client).client c = _ :=
      change_eq_some_iff.mpr ⟨_, free, (if_neg other.symm).symm⟩
    have answered :
        (((ρ.write tr.client (replyFrame tr data)).nextCommand tr.client).mapClient tr.client
          fun x => { x with wait4 := none }).client c = _ :=
      change_eq_some_iff.mpr ⟨_, armed, (if_neg other.symm).symm⟩
    refine ⟨ρ.reply t { tr with executor := none } data, done, .inl ⟨if_pos rfl, ?_⟩, ?_, ?_⟩
    · rw [← finishing.sent]
      exact if_pos rfl
    · refine reading.congr (fun y live => ?_) fun y d contents live into stored => ?_
      · obtain rfl := Option.some.inj (free.symm.trans live)
        exact ⟨_, Option.map_eq_some_iff.mpr ⟨_, answered, rfl⟩, rfl⟩
      · obtain rfl := Option.some.inj (free.symm.trans live)
        obtain rfl := Option.some.inj into
        refine put_none_eq_some_iff.mpr ⟨old.ne', put_eq_some_iff.mpr (.inr ⟨?_, stored⟩)⟩
        exact (Nat.lt_succ_self μ.next).ne
    · exact ⟨_, Option.map_eq_some_iff.mpr ⟨_, answered, rfl⟩, by simp [State.bereave]⟩
  · refine ⟨ρ.requeue t { tr with executor := none }, done,
      .inr ⟨finishing.current, finishing.stored sound.all, ?_⟩, ?_, ?_⟩
    · exact ⟨_, change_eq_some_iff.mpr ⟨y, owner, (if_pos rfl).symm⟩, by simp⟩
    · exact reading.congr (fun y live =>
        ⟨_, change_eq_some_iff.mpr ⟨y, live, rfl⟩, by split <;> rfl⟩)
        fun _ _ _ _ _ stored => stored
    · exact ⟨_, change_eq_some_iff.mpr ⟨_, free, rfl⟩, by split <;> rfl⟩

/-- The transaction with the result in `header`, whose data is going to be in buffer `data`. -/
def Transaction.returned (tr : Transaction) (header : Bytes) (data : BufId) : Transaction :=
  { tr with rval := (header.getD 0 0).signExtend 32, rcode := tolong (header.drop 1), data }

/-- Worker `w` is sending the data of its result. -/
def State.Returning (σ : State) (w : ClientId) (tr : Transaction) : Prop :=
  ∃ x, σ.client w = some x ∧ x.handler = some .part2 ∧ x.input = some tr.data

/-- Only a command gives out queued transactions. -/
theorem picksNew_of_received {c : ClientId} {handler : Handler} {filled : Bytes}
    (received : Received σ e c handler filled) (fixed : handler ≠ .command) : PicksNew σ e := by
  rintro k _ ⟨filled', received', _⟩
  have same := Option.some.inj (received.symm.trans received')
  exact absurd (congrArg (fun found => found.2.1) same) fixed

/-- The header of a result with data, for a worker and the transaction it executes. -/
theorem step_header {header : Bytes} {x : Client} (inv : Inv ⟨{}, σ⟩)
    (received : Received σ e w .svrreturn header) (live : σ.client w = some x)
    (serves : x.wait4 = some (.tran t)) (found : σ.tran t = some tr)
    (long : 0 < returnLength header) :
    ∃ b old,
      let τ := ((σ.begin w .svrreturn b header).returned t tr b header old).arm w .part2 σ.next
      step σ e = .ok τ ∧
        τ.client w = some { x with handler := some .part2, input := some σ.next, used := 0 } ∧
        τ.tran t = some (tr.returned header σ.next) ∧
        τ.Reading w .part2 (returnLength header).toNat [] := by
  obtain ⟨b, old, into, fresh, apart, stored, called⟩ :=
    step_of_svrreturn inv received live serves found (Int.le_of_lt long)
  let μ := σ.begin w .svrreturn b header
  let ρ := μ.returned t tr b header old
  have begun : ρ.client w = some { x with handler := none, input := none, used := 0 } :=
    change_eq_some_iff.mpr ⟨x, live, (if_pos rfl).symm⟩
  have room : ρ.buf σ.next = some (resize old (returnLength header).toNat) := by
    rw [returned_buf (show b < μ.next from fresh)]
    exact if_pos rfl
  have nonempty : resize old (returnLength header).toNat ≠ [] := by
    intro empty
    have length := congrArg List.length empty
    rw [length_resize] at length
    simp at length
    omega
  have waits : svriowait w σ.next .part2 part2 ρ = .ok (⟨⟩, ρ.arm w .part2 σ.next) :=
    svriowait_ok_iff.mpr ⟨_, _, begun, ⟨rfl, rfl, rfl⟩, room, .inl ⟨nonempty, rfl⟩⟩
  have armed : (ρ.arm w .part2 σ.next).client w =
      some { x with handler := some .part2, input := some σ.next, used := 0 } :=
    change_eq_some_iff.mpr ⟨_, begun, (if_pos rfl).symm⟩
  have reading := reading_arm .part2 begun room
  rw [length_resize] at reading
  exact ⟨b, old, by rw [called, waits]; rfl, armed, returned_tran (b := b) found, reading⟩

namespace Assigned

/-- The header of a result without data completes the transaction. -/
theorem returns {header : Bytes} (assigned : Assigned w a t tr {} σ) (sound : Sound ⟨{}, σ⟩)
    (received : Received σ e w .svrreturn header) (empty : returnLength header = 0) :
    ∃ τ, step σ e = .ok τ ∧ Completes σ τ t (tr.returned header σ.next) [] ∧ τ.AtCommand w := by
  obtain ⟨x, live, serves⟩ := assigned.worker
  obtain ⟨b, μ, finishing, called⟩ :=
    finishing_of_svrreturn sound.all received live serves assigned.found empty
  obtain ⟨τ, done, completes, ready⟩ :=
    finishing.completes sound (picksNew_of_received received (by decide)) b
  refine ⟨τ, ?_, completes, ready⟩
  rw [called, done]
  rfl

/-- After any other header the data is read into the transaction. -/
theorem header {header : Bytes} (assigned : Assigned w a t tr {} σ) (sound : Sound ⟨{}, σ⟩)
    (received : Received σ e w .svrreturn header) (long : 0 < returnLength header) :
    ∃ τ, step σ e = .ok τ ∧ Assigned w a t (tr.returned header σ.next) {} τ ∧
      τ.Returning w (tr.returned header σ.next) ∧
      τ.Reading w .part2 (returnLength header).toNat [] := by
  obtain ⟨x, live, serves⟩ := assigned.worker
  obtain ⟨b, old, done, armed, found, reading⟩ :=
    step_header sound.all received live serves assigned.found long
  refine ⟨_, done, ?_, ⟨_, armed, rfl, rfl⟩, reading⟩
  refine ⟨⟨_, armed, serves⟩, found, assigned.executor, assigned.advert, assigned.attached, ?_,
    assigned.unfinished, ?_⟩
  · rintro (⟨c, v, advert, owner, linked⟩ | parked)
    · exact assigned.away (.inl ⟨c, v, advert, owner, linked⟩)
    · exact assigned.away (.inr parked)
  · intro k y live' member
    obtain ⟨z, live₁, rfl⟩ := change_eq_some_iff.mp live'
    obtain ⟨z', live₂, rfl⟩ := change_eq_some_iff.mp live₁
    refine assigned.unanswered k z' live₂ ?_
    split at member <;> exact member

/-- While the data arrives, the worker goes on sending it. -/
theorem sending (assigned : Assigned w a t tr {} σ) (sound : Sound ⟨{}, σ⟩)
    (returning : σ.Returning w tr) (leaves : LeavesWork σ e w a tr.client)
    (done : step σ e = .ok τ) : τ.Returning w tr := by
  obtain ⟨x, live, reading, into⟩ := returning
  by_cases source : ∃ input, e.happening = .ready w input
  · obtain ⟨input, source⟩ := source
    have connected := (sound.all.registry.mem_clients w).mpr ⟨x, live⟩
    rcases ready_cases source connected live (fun b into' => by
      obtain rfl := Option.some.inj (into.symm.trans into')
      exact sound.all.buffers.data t tr assigned.found) with
    closes | ⟨handler, filled, received⟩ | ⟨b, contents, piece, done'⟩
    · exact absurd closes leaves.worker
    · obtain ⟨_, y, _, _, _, _, _, live', reading', _⟩ := received_elim received
      obtain rfl := Option.some.inj (live.symm.trans live')
      obtain rfl := Option.some.inj (reading.symm.trans reading')
      exact absurd ⟨filled, .inr received⟩ leaves.executes
    · obtain rfl := Except.ok.inj (done'.symm.trans done)
      exact ⟨_, change_eq_some_iff.mpr ⟨x, live, (if_pos rfl).symm⟩, reading, into⟩
  · obtain ⟨y, live', same, _⟩ := reading_of_trace sound.all live (by simp [reading])
      (fun input here => source ⟨input, here⟩) (step_trace sound.all done)
    simp only [Client.intake, Prod.mk.injEq] at same
    exact ⟨y, live', same.1.trans reading, same.2.1.trans into⟩

/-- The last byte of the data completes the transaction. -/
theorem completes {filled : Bytes} (assigned : Assigned w a t tr {} σ) (sound : Sound ⟨{}, σ⟩)
    (returning : σ.Returning w tr) (received : Received σ e w .part2 filled) :
    ∃ τ, step σ e = .ok τ ∧ Completes σ τ t tr filled ∧ τ.AtCommand w := by
  obtain ⟨x, live, serves⟩ := assigned.worker
  obtain ⟨y, live', _, into⟩ := returning
  obtain rfl := Option.some.inj (live.symm.trans live')
  obtain ⟨data, b, μ, finishing, called, same⟩ :=
    finishing_of_part2 sound.all received live serves assigned.found
  obtain rfl := same into
  obtain ⟨τ, done, completes, ready⟩ :=
    finishing.completes sound (picksNew_of_received received (by decide)) b
  refine ⟨τ, ?_, completes, ready⟩
  rw [called, done]
  rfl

end Assigned

end Switchboard
end Xatmi
