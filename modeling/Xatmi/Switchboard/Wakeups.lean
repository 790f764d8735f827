import Xatmi.Switchboard.Survival

/-!
# Clients that are woken

The step that finishes a transaction wakes the client that waits for it: the last byte of a result,
the header of a result without data, and the deletion of the worker. The deletion has to get
through, so the worker's advertisement and the buffer it reads into must still be there.
-/

namespace Xatmi
namespace Switchboard

variable {σ₀ σ τ : State} {e : Event} {φ φ' : Phase}

/-! ## Results that are being sent -/

/-- Whoever sends the data of a result sends it for the transaction it executes, unless that has
been deleted. -/
def Pledged (φ : Phase) (σ : State) : Prop :=
  ∀ c x, σ.client c = some x → x.handler = some .part2 → φ.closing ≠ some c →
    x.wait4 = none ∨ ∃ t tr, σ.Borrows c x t tr

theorem Pledged.effect (pledged : Pledged φ σ) (lent : Lent φ σ) (inOrder : InOrder ⟨φ, σ⟩)
    (after : InOrder ⟨φ', τ⟩) (new : PicksNew σ₀ e) (eff : Effect σ₀ e ⟨φ, σ⟩ ⟨φ', τ⟩) :
    Pledged φ' τ := by
  have all : Inv ⟨φ, σ⟩ := inOrder.sound.all
  intro c y live reading stays
  have stays' := closing_of_effect eff live stays
  have earlier : ∀ {x}, σ.client c = some x → x.handler = some .part2 → y.input = x.input →
      φ.run ≠ some c → y.wait4 = none ∨ ∃ t tr, τ.Borrows c y t tr := by
    intro x live' reading' input stopped
    have busy : x.handler ≠ none := by simp [reading']
    obtain ⟨y', live'', wait⟩ := wait_of_effect all eff live' busy stopped stays'
    obtain rfl := Option.some.inj (live.symm.trans live'')
    rcases wait with same | ⟨released, _⟩
    · rcases pledged c x live' reading' stays' with idle | ⟨t, tr, found, into, purpose⟩
      · exact .inl (same.trans idle)
      · have serves : x.wait4 = some (.tran t) := by
          rcases purpose with ⟨uploads, _⟩ | ⟨_, serves⟩
          · cases uploads.symm.trans reading'
          · exact serves
        have serves' : y.wait4 = some (.tran t) := same.trans serves
        obtain ⟨tr', found', _⟩ := after.serving c y t live serves'
        rcases executed_of_effect inOrder.sound new live' busy stopped stays' serves found eff with
          kept | ⟨gone, _⟩
        · exact .inr ⟨t, tr, kept, input.trans into, .inr ⟨reading, serves'⟩⟩
        · cases gone.symm.trans found'
    · exact .inl released
  cases Outcome.of_effect all eff live with
  | kept live' intake =>
      simp only [Client.intake, Prod.mk.injEq] at intake
      have reading' := intake.1.symm.trans reading
      exact earlier live' reading' intake.2.1 fun running => lent.stopped c _ live' running reading'
  | armed _ fixed => exact absurd reading fixed
  | input live' _ quiet partly =>
      rcases partly with ⟨handler, input, _⟩ | idle
      · exact earlier live' (handler.symm.trans reading) input (by simp [quiet])
      · cases idle.symm.trans reading
  | returning _ _ _ _ serves found into =>
      exact .inr ⟨_, _, found, into, .inr ⟨reading, serves⟩⟩

theorem pledged_of_reachable (reach : Reachable Orderly σ) : Pledged {} σ := by
  induction reach with
  | start => simp [Pledged, State.start]
  | @next σ τ e reach orderly done ih =>
      have inOrder := inOrder_of_reachable reach
      have along : ∀ {κ : Conf}, Trace σ e ⟨{}, σ⟩ κ → Pledged κ.phase κ.state := by
        intro κ trace
        induction trace with
        | refl => exact ih
        | tail sofar eff pledged =>
            exact pledged.effect ((lent_of_reachable reach).trace inOrder.sound.all sofar)
              (inOrder.trace orderly sofar) (inOrder.trace orderly (sofar.tail eff)) orderly.1 eff
      exact along (step_trace inOrder.sound.all done)

theorem room_of_serves {c : ClientId} {x : Client} {t : TranId} (reach : Reachable Orderly σ)
    (live : σ.client c = some x) (serves : x.wait4 = some (.tran t)) {b : BufId}
    (into : x.input = some b) : ∃ contents, σ.buf b = some contents := by
  have all : Inv ⟨{}, σ⟩ := inv_of_reachable reach
  have returns : x.handler = some .part2 → ∃ t tr, σ.Borrows c x t tr := fun reading =>
    (pledged_of_reachable reach c x live reading (by simp)).resolve_left (by simp [serves])
  rcases reads_or_borrows all live (by simp) into returns with reads | ⟨u, ur, borrows⟩
  · exact (all.buffers.reading c x b live reads).1.room
  · obtain rfl := Option.some.inj (into.symm.trans borrows.into)
    exact all.buffers.data u ur borrows.found

theorem into_of_serves {c : ClientId} {x : Client} {t : TranId} {tr : Transaction}
    (reach : Reachable Orderly σ) (live : σ.client c = some x) (serves : x.wait4 = some (.tran t))
    (found : σ.tran t = some tr) (reading : x.handler = some .part2) : x.input = some tr.data := by
  obtain ⟨u, ur, found', into, purpose⟩ :=
    (pledged_of_reachable reach c x live reading (by simp)).resolve_left (by simp [serves])
  rcases purpose with ⟨uploads, _⟩ | ⟨_, serves'⟩
  · cases uploads.symm.trans reading
  · obtain rfl := Wait.tran.inj (Option.some.inj (serves.symm.trans serves'))
    obtain rfl := Option.some.inj (found.symm.trans found')
    exact into

/-! ## The result -/

/-- No transaction is dispatched twice, no executor is withdrawn, and no worker is deleted while it
executes a transaction of another client that waits for any reply. -/
def Considerate (σ : State) (e : Event) : Prop :=
  Orderly σ e ∧ SparesWaiters σ e

instance (σ : State) (e : Event) : Decidable (Considerate σ e) :=
  inferInstanceAs (Decidable (_ ∧ _))

/-- In considerate runs no client waits for any reply while it has one, and the step that finishes a
transaction gets through and wakes the client that waits for it: the last byte of the result, the
header of a result without data, and the deletion of the worker. -/
theorem waiting_clients_wake (reach : Reachable Considerate σ) :
    (∀ k y, σ.client k = some y → y.wait4 = some .any → y.replies = []) ∧
    ∀ e c x k t tr, σ.client c = some x → x.wait4 = some (.tran t) → σ.Awaits k t tr →
      (∀ filled, Received σ e c .part2 filled → ∃ τ, step σ e = .ok τ ∧
        Wakes σ τ k (replyFrame tr filled)) ∧
      (∀ header, Received σ e c .svrreturn header → returnLength header = 0 →
        ∃ τ, step σ e = .ok τ ∧ Wakes σ τ k (replyFrame { tr with
          rval := (header.getD 0 0).signExtend 32, rcode := tolong (header.drop 1) } [])) ∧
      (Closes σ e c → Considerate σ e → k ≠ c → ∃ τ contents, step σ e = .ok τ ∧
        σ.buf tr.data = some contents ∧ Wakes σ τ k (replyFrame { tr with
          rval := TPERRNO, rcode := BitVec.ofNat 64 TPESVCERR } contents)) := by
  have orderly : Reachable Orderly σ := reach.mono fun _ _ => And.left
  have inOrder := inOrder_of_reachable orderly
  have inv : Inv ⟨{}, σ⟩ := inOrder.sound.all
  refine ⟨(awake_of_reachable (reach.mono fun _ _ => And.right)).empty, ?_⟩
  intro e c x k t tr live serves awaits
  refine ⟨fun filled received => ?_, fun header received empty =>
    wakes_of_svrreturn inv received live serves awaits empty, fun closes considerate other => ?_⟩
  · obtain ⟨τ, contents, done, wakes, same⟩ := wakes_of_part2 inv received live serves awaits
    obtain ⟨_, y, _, _, _, _, _, live', reading, _⟩ := received_elim received
    obtain rfl := Option.some.inj (live.symm.trans live')
    obtain rfl := same (into_of_serves orderly live serves awaits.found reading)
    exact ⟨τ, done, wakes⟩
  · have works : σ.worker tr = some c := by
      obtain ⟨tr', found, party⟩ := inOrder.serving c x t live serves
      obtain rfl := Option.some.inj (awaits.found.symm.trans found)
      exact party.resolve_left fun owner => other (awaits.owner.symm.trans owner)
    obtain ⟨τ, done⟩ := step_of_closes inOrder considerate.1 closes live
      fun b into => room_of_serves orderly live serves into
    obtain ⟨contents, stored, wakes⟩ :=
      wakes_of_delClient inv closes considerate.2 live serves works awaits other done
    exact ⟨τ, contents, done, stored, wakes⟩

open Scenario in
/-- Client 2 is woken by the header of a result and by the end of its worker, and another time, when
it waits for any reply, by the data of a result. -/
theorem waiting_clients_wake_once :
    (∃ σ tr τ ρ contents, Reachable Considerate σ ∧ σ.Awaits 2 11 tr ∧
      step σ (receive 0 ([2] ++ longBytes 5 ++ longBytes 0) 0) = .ok τ ∧
      Wakes σ τ 2 (replyFrame { tr with rval := 2, rcode := 5 } []) ∧
      step σ (hangUp 0) = .ok ρ ∧ Wakes σ ρ 2 (replyFrame { tr with
        rval := TPERRNO, rcode := BitVec.ofNat 64 TPESVCERR } contents)) ∧
    ∃ σ y tr τ, Reachable Considerate σ ∧ σ.client 2 = some y ∧ y.wait4 = some .any ∧
      y.replies = [] ∧ σ.Awaits 2 11 tr ∧ step σ (receive 0 [7] 0) = .ok τ ∧
      Wakes σ τ 2 (replyFrame tr [7]) := by
  constructor
  · obtain ⟨σ, reach, seen⟩ := reachable_of_permitted
      ([connect, connect] ++ advertise 0 65 ++ work 0 ++ call 2 65 0 9 ++ getrply 2 9 0 ++
        [receive 0 [TPTRETN] 0])
      (fun σ => decide (received σ (receive 0 ([2] ++ longBytes 5 ++ longBytes 0) 0) =
          some (0, .svrreturn, [2] ++ longBytes 5 ++ longBytes 0) ∧ Closes σ (hangUp 0) 0 ∧
        Considerate σ (hangUp 0) ∧ (∃ tr ∈ σ.tran 11, σ.Awaits 2 11 tr) ∧
        ∃ x ∈ σ.client 0, x.wait4 = some (.tran 11))) true
      (show permitted Considerate _ _ = true by decide +kernel) (by decide +kernel)
    obtain ⟨received, closes, considerate, ⟨tr, _, awaits⟩, x, live, serves⟩ :=
      of_decide_eq_true seen
    have finishes := fun e => (waiting_clients_wake reach).2 e 0 x 2 11 tr live serves awaits
    obtain ⟨τ, done, wakes⟩ := (finishes _).2.1 _ received (by decide)
    obtain ⟨ρ, contents, gone, _, wakes'⟩ := (finishes _).2.2 closes considerate (by decide)
    exact ⟨σ, tr, τ, ρ, contents, reach, awaits, done, wakes, gone, wakes'⟩
  · obtain ⟨σ, reach, seen⟩ := reachable_of_permitted
      ([connect, connect] ++ advertise 0 65 ++ work 0 ++ call 2 65 0 9 ++ getrply 2 9 0x80 ++
        giveBack 0 2 1)
      (fun σ => decide (received σ (receive 0 [7] 0) = some (0, .part2, [7]) ∧
        (∃ y ∈ σ.client 2, y.wait4 = some .any) ∧
        ∃ tr ∈ σ.tran 11, σ.Awaits 2 11 tr ∧ ∃ x ∈ σ.client 0, x.wait4 = some (.tran 11))) true
      (show permitted Considerate _ _ = true by decide +kernel) (by decide +kernel)
    obtain ⟨received, ⟨y, owner, waits⟩, tr, _, awaits, x, live, serves⟩ := of_decide_eq_true seen
    obtain ⟨empty, finishes⟩ := waiting_clients_wake reach
    obtain ⟨τ, done, wakes⟩ := (finishes _ 0 x 2 11 tr live serves awaits).1 _ received
    exact ⟨σ, y, tr, τ, reach, owner, waits, empty 2 y owner waits, awaits, done, wakes⟩

open Scenario in
/-- Client 2 waits for any reply when its worker goes away. The transaction is put on its replies,
and nothing is sent. -/
theorem waiting_client_sleeps : ∃ σ τ tr x y, Reachable anyStep σ ∧ σ.client 0 = some x ∧
    x.wait4 = some (.tran 11) ∧ σ.worker tr = some 0 ∧ σ.Awaits 2 11 tr ∧ Closes σ (hangUp 0) 0 ∧
    step σ (hangUp 0) = .ok τ ∧ τ.sent 2 = σ.sent 2 ∧ Reachable anyStep τ ∧
    τ.client 2 = some y ∧ y.wait4 = some .any ∧ y.replies = [11] := by
  obtain ⟨σ, _, reach, seen⟩ := reachable_of_outcome
    ([connect, connect] ++ advertise 0 65 ++ work 0 ++ call 2 65 0 9 ++ getrply 2 9 0x80)
    (fun σ => decide ((∃ x ∈ σ.client 0, x.wait4 = some (.tran 11)) ∧
      (∃ tr ∈ σ.tran 11, σ.worker tr = some 0 ∧ σ.Awaits 2 11 tr) ∧ Closes σ (hangUp 0) 0 ∧
      (step σ (hangUp 0)).toOption.any fun (τ : State) => decide (τ.sent 2 = σ.sent 2 ∧
        ∃ y ∈ τ.client 2, y.wait4 = some .any ∧ y.replies = [11]))) true (by decide +kernel)
  obtain ⟨⟨x, live, serves⟩, ⟨tr, _, works, awaits⟩, closes, outcome⟩ := of_decide_eq_true seen
  obtain ⟨τ, done, outcome⟩ := ok_of_any outcome
  obtain ⟨silent, y, owner, waits, replies⟩ := of_decide_eq_true outcome
  exact ⟨σ, τ, tr, x, y, reach, live, serves, works, awaits, closes, done, silent,
    reach.next trivial done, owner, waits, replies⟩

end Switchboard
end Xatmi
