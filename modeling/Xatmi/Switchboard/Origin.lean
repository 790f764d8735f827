import Xatmi.Switchboard.Handling
import Xatmi.Switchboard.Scenario

/-!
# Where transactions come from and where replies go

A transaction is made when a client has sent a complete `TPTCALL`; it belongs to that client for as
long as it exists, and `snd_reply` writes to nobody else.
-/

namespace Xatmi
namespace Switchboard

open Program Relation

variable {σ₀ σ τ : State} {e : Event} {events : List Event}

/-! ## Runs -/

theorem run_concat_ok_iff : run σ (events ++ [e]) = .ok τ ↔
    ∃ middle, run σ events = .ok middle ∧ step middle e = .ok τ := by
  rw [run_append_ok_iff]
  simp only [run_cons_ok_iff]
  constructor
  · rintro ⟨middle, first, _, done, last⟩
    exact ⟨middle, first, done.trans last⟩
  · rintro ⟨middle, first, done⟩
    exact ⟨middle, first, τ, done, rfl⟩

/-- In the run of `events`, transaction `t` was made when client `c` had sent a complete
`TPTCALL`. -/
def Created (events : List Event) (t : TranId) (c : ClientId) : Prop :=
  ∃ before e after σ τ filled, events = before ++ e :: after ∧ run .start before = .ok σ ∧
    step σ e = .ok τ ∧ Received σ e c .svracall filled ∧ σ.tran t = none ∧ ∃ tr, τ.tran t = some tr

theorem created_concat_iff {t : TranId} {c : ClientId} (execution : run .start events = .ok σ)
    (done : step σ e = .ok τ) : Created (events ++ [e]) t c ↔ Created events t c ∨
      (∃ filled, Received σ e c .svracall filled) ∧ σ.tran t = none ∧ ∃ tr, τ.tran t = some tr := by
  constructor
  · rintro ⟨before, e', after, σ', τ', filled, split, execution', done', received, new, made⟩
    rcases List.eq_nil_or_concat after with rfl | ⟨after, last, rfl⟩
    · obtain ⟨rfl, same⟩ := List.append_inj' split rfl
      obtain rfl : e = e' := by simpa using same
      obtain rfl := Except.ok.inj (execution.symm.trans execution')
      obtain rfl := Except.ok.inj (done.symm.trans done')
      exact .inr ⟨⟨filled, received⟩, new, made⟩
    · have split : events ++ [e] = (before ++ e' :: after) ++ [last] := by simpa using split
      obtain ⟨rfl, _⟩ := List.append_inj' split rfl
      exact .inl ⟨before, e', after, σ', τ', filled, rfl, execution', done', received, new, made⟩
  · rintro (⟨before, e', after, σ', τ', filled, rfl, rest⟩ | ⟨⟨filled, received⟩, new, made⟩)
    · exact ⟨before, e', after ++ [e], σ', τ', filled, by simp, rest⟩
    · exact ⟨events, e, [], σ, τ, filled, rfl, execution, done, received, new, made⟩

/-! ## Steps -/

/-- A transaction the memory has while an event is handled was there before, in the same place, or
is new and comes from the `TPTCALL` that the event completes. -/
theorem tran_of_trace {κ : Conf} (trace : Trace σ₀ e ⟨{}, σ₀⟩ κ) {t : TranId} {tr : Transaction}
    (found : κ.state.tran t = some tr) :
    (∃ tr₀, σ₀.tran t = some tr₀ ∧ tr₀.place = tr.place) ∨
      σ₀.next ≤ t ∧ ∃ filled, Received σ₀ e tr.client .svracall filled := by
  induction trace generalizing t tr with
  | refl => exact .inl ⟨tr, found, rfl⟩
  | @tail κ κ' sofar eff ih =>
      have changed : ∀ {key update}, change κ.state.tran key update t = some tr →
          (∀ x, (update x).place = x.place) → (∃ tr₀, σ₀.tran t = some tr₀ ∧ tr₀.place = tr.place) ∨
            σ₀.next ≤ t ∧ ∃ filled, Received σ₀ e tr.client .svracall filled := by
        intro key update found same
        obtain ⟨old, found', rfl⟩ := change_eq_some_iff.mp found
        have place : (if t = key then update old else old).place = old.place := by
          split
          · exact same old
          · rfl
        have client := client_of_place place
        rw [place, client]
        exact ih found'
      have deleted : ∀ {key}, put κ.state.tran key none t = some tr → κ.state.tran t = some tr :=
        fun found => (put_none_eq_some_iff.mp found).2
      cases eff with
      | submit _ _ _ _ _ client _ _ _ _ asked =>
          rcases put_eq_some_iff.mp found with ⟨rfl, made⟩ | ⟨_, found⟩
          · obtain rfl := Option.some.inj made
            have old := next_le_of_trace sofar
            exact .inr ⟨old.trans (Nat.le_succ _), client ▸ asked⟩
          · exact ih found
      | assignUp | assignWork | finish => exact changed found fun _ => rfl
      | fail => exact changed found fun _ => rfl
      | setReturn =>
          rw [State.setReturn_tran] at found
          exact changed found fun _ => rfl
      | replyQueued | replyWaiting | sweep | purge => exact ih (deleted found)
      | _ => exact ih found

/-- Identifiers are given out in order. -/
theorem next_le_of_run (reach : Reachable anyStep σ) (execution : run σ events = .ok τ) :
    σ.next ≤ τ.next := by
  induction events generalizing σ with
  | nil =>
      obtain rfl := Except.ok.inj execution
      exact le_rfl
  | cons e events ih =>
      obtain ⟨μ, done, execution⟩ := run_cons_ok_iff.mp execution
      have trace := step_trace (inv_of_reachable reach) done
      exact (next_le_of_trace trace).trans (ih (.next reach trivial done) execution)

/-- Old transactions stay in their places. -/
theorem place_of_run {t : TranId} {tr : Transaction} (reach : Reachable anyStep σ)
    (execution : run σ events = .ok τ) (old : t < σ.next) (found : τ.tran t = some tr) :
    ∃ tr₀, σ.tran t = some tr₀ ∧ tr₀.place = tr.place := by
  induction events generalizing σ with
  | nil =>
      obtain rfl := Except.ok.inj execution
      exact ⟨tr, found, rfl⟩
  | cons e events ih =>
      obtain ⟨μ, done, execution⟩ := run_cons_ok_iff.mp execution
      have trace := step_trace (inv_of_reachable reach) done
      obtain ⟨tr₁, found₁, place₁⟩ :=
        ih (.next reach trivial done) execution (old.trans_le (next_le_of_trace trace))
      rcases tran_of_trace trace found₁ with ⟨tr₀, found₀, place₀⟩ | ⟨young, _⟩
      · exact ⟨tr₀, found₀, place₀.trans place₁⟩
      · exact absurd old (Nat.not_lt.mpr young)

/-- In every run, the transactions made so far have old identifiers, and those that still exist
belong to the clients that made them. -/
theorem created_of_run (execution : run .start events = .ok σ) :
    (∀ t c, Created events t c → t < σ.next ∧ ∀ tr, σ.tran t = some tr → tr.client = c) ∧
      ∀ t tr, σ.tran t = some tr → Created events t tr.client := by
  induction events using List.reverseRecOn generalizing σ with
  | nil =>
      obtain rfl := Except.ok.inj execution
      constructor
      · rintro t c ⟨before, e, after, _, _, _, split, _⟩
        simp at split
      · simp [State.start]
  | append_singleton events e ih =>
      obtain ⟨middle, execution, done⟩ := run_concat_ok_iff.mp execution
      obtain ⟨owned, made⟩ := ih execution
      have inv := inv_of_reachable (Reachable.start.run execution)
      have trace := step_trace inv done
      have later : middle.next ≤ σ.next := next_le_of_trace trace
      constructor
      · intro t c created
        rcases (created_concat_iff execution done).mp created with earlier |
          ⟨⟨filled, received⟩, new, now⟩
        · obtain ⟨old, same⟩ := owned t c earlier
          refine ⟨old.trans_le later, fun tr found => ?_⟩
          rcases tran_of_trace trace found with ⟨tr₀, found₀, place⟩ | ⟨young, _⟩
          · exact client_of_place place ▸ same tr₀ found₀
          · exact absurd old (Nat.not_lt.mpr young)
        · obtain ⟨tr, found⟩ := now
          have inv' := inv.trace trace
          refine ⟨(inv'.waits.old (.tran t) (Option.isSome_of_eq_some found)).1,
            fun tr' found' => ?_⟩
          rcases tran_of_trace trace found' with ⟨tr₀, found₀, _⟩ | ⟨_, filled', received'⟩
          · simp [new] at found₀
          · exact congrArg Prod.fst (Option.some.inj (received'.symm.trans received))
      · intro t tr found
        refine (created_concat_iff execution done).mpr ?_
        rcases tran_of_trace trace found with ⟨tr₀, found₀, place⟩ | ⟨young, asked⟩
        · exact .inl (client_of_place place ▸ made t tr₀ found₀)
        · exact .inr ⟨asked, inv.waits.fresh_tran young, tr, found⟩

/-! ## Replies -/

/-- Memory `μ` occurs while event `e` is handled in memory `σ`. -/
def Passes (σ : State) (e : Event) (μ : State) : Prop :=
  ∃ φ, Trace σ e ⟨{}, σ⟩ ⟨φ, μ⟩

theorem sndReply_sent {t : TranId} {u : PUnit} {μ μ' : State} (done : sndReply t μ = .ok (u, μ')) :
    ∃ tr contents, μ.tran t = some tr ∧
      μ'.sent tr.client = μ.sent tr.client ++ replyFrame tr contents ∧
      ∀ k, k ≠ tr.client → μ'.sent k = μ.sent k := by
  obtain ⟨tr, contents, _, deletable, _, _, _, rfl⟩ := sndReply_ok_iff.mp done
  exact ⟨tr, contents, deletable.live, if_pos rfl, fun _ other => if_neg other⟩

/-- Every current transaction is entered once in the list of all transactions and once in the queues
of the client whose `TPTCALL` made it, and nowhere else; and whenever `snd_reply` is called for it,
the reply goes to that client. -/
theorem owned_once (execution : run .start events = .ok σ) :
    (∀ t tr, σ.tran t = some tr → σ.transactions.count t = 1 ∧
      (∃ x, σ.client tr.client = some x ∧ x.outstanding.count t = 1) ∧
      (∀ c x, σ.client c = some x → c ≠ tr.client → t ∉ x.outstanding) ∧
      Created events t tr.client) ∧
    (∀ c x t, σ.client c = some x → t ∈ x.outstanding →
      c ∈ σ.clients ∧ ∃ tr, σ.tran t = some tr ∧ tr.client = c) ∧
    ∀ e μ μ' t c u, Created events t c → Passes σ e μ → sndReply t μ = .ok (u, μ') →
      (∃ tr contents, μ'.sent c = μ.sent c ++ replyFrame tr contents) ∧
        ∀ k, k ≠ c → μ'.sent k = μ.sent k := by
  have inv := inv_of_reachable (Reachable.start.run execution)
  obtain ⟨owned, made⟩ := created_of_run execution
  refine ⟨fun t tr found => ⟨?_, ?_, ?_, made t tr found⟩, fun c x t live member => ?_, ?_⟩
  · exact List.count_eq_one_of_mem inv.own.transactions_nodup
      ((inv.own.mem_transactions t).mpr ⟨tr, found⟩)
  · obtain ⟨x, live, member⟩ := inv.own.owned t tr found
    exact ⟨x, live, List.count_eq_one_of_mem (inv.own.nodup _ x live) member⟩
  · intro c x live other member
    exact other (inv.own.owner_eq live member found).symm
  · exact ⟨(inv.registry.mem_clients c).mpr ⟨x, live⟩, inv.own.mine c x t live member⟩
  · rintro e μ μ' t c u created ⟨φ, trace⟩ done
    obtain ⟨tr, contents, found, frame, others⟩ := sndReply_sent done
    obtain ⟨old, same⟩ := owned t c created
    obtain rfl : tr.client = c := by
      rcases tran_of_trace trace found with ⟨tr₀, found₀, place⟩ | ⟨young, _⟩
      · exact client_of_place place ▸ same tr₀ found₀
      · exact absurd old (Nat.not_lt.mpr young)
    exact ⟨⟨tr, contents, frame⟩, others⟩

open Scenario in
theorem owned_once_dispatched : ∃ σ tr,
    run .start ([connect, connect] ++ advertise 0 65 ++ work 0 ++ call 2 65 0 9) = .ok σ ∧
    σ.tran 11 = some tr ∧ σ.transactions.count 11 = 1 ∧
    Created ([connect, connect] ++ advertise 0 65 ++ work 0 ++ call 2 65 0 9) 11 tr.client := by
  obtain ⟨σ, execution, _, seen⟩ := reachable_of_outcome
    ([connect, connect] ++ advertise 0 65 ++ work 0 ++ call 2 65 0 9)
    (fun σ => (σ.tran 11).isSome) true (by decide +kernel)
  obtain ⟨tr, found⟩ := Option.isSome_iff_exists.mp seen
  obtain ⟨once, _, _, made⟩ := (owned_once execution).1 11 tr found
  exact ⟨σ, tr, execution, found, once, made⟩

end Switchboard
end Xatmi
