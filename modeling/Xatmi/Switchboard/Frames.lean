import Xatmi.Switchboard.Rounds
import Xatmi.Switchboard.Sizes

/-!
# Answers and where they end

Between two commands of a client the switchboard sends it what the first of them asks for, in one
piece, and nothing else.  A client that reads each answer to its end is in step with it.
-/

namespace Xatmi
namespace Switchboard

variable {e : Event} {φ φ' : Phase} {σ₀ σ τ : State} {c : ClientId} {events : List Event}
  {said : Bytes}

/-! ## Commands that are read -/

namespace State.Listens

theorem effect (listens : σ.Listens c) (all : Inv ⟨φ, σ⟩) (eff : Effect σ₀ e ⟨φ, σ⟩ ⟨φ', τ⟩)
    (stopped : φ.run ≠ some c) (stays : φ.closing ≠ some c)
    (other : ∀ input, e.happening ≠ .ready c input) : τ.Listens c ∧ τ.sent c = σ.sent c := by
  obtain ⟨x, live, reads⟩ := listens
  obtain ⟨y, live', same, silent⟩ :=
    intake_of_effect all eff live (by simp [reads]) stopped stays other
  exact ⟨⟨y, live', (congrArg Prod.fst same).trans reads⟩, silent⟩

theorem reading (listens : σ.Listens c) (inv : Inv ⟨{}, σ⟩) :
    ∃ room got, σ.Reading c .command room got := by
  obtain ⟨x, live, reads⟩ := listens
  cases into : x.input with
  | none => cases ((inv.readers c x live).reading into).symm.trans reads
  | some b =>
      obtain ⟨⟨⟨contents, room⟩, _⟩, _⟩ := inv.buffers.reading c x b live ⟨into, _, reads, rfl⟩
      have space := inv.buffers.space c x b contents live into room
      have used : (contents.take x.used).length = x.used := List.length_take_of_le space.le
      exact ⟨_, contents.take x.used, x, b, contents, live, reads, into, used.symm, room, rfl,
        by rw [used]⟩

/-- As long as such a client says nothing, it is sent nothing. -/
theorem quiet (listens : σ.Listens c) (reach : Reachable anyStep σ)
    (execution : run σ events = .ok τ) (silent : stream c σ events = [])
    (connected : c ∈ τ.clients) : τ.sent c = σ.sent c := by
  obtain ⟨room, got, reading⟩ := listens.reading (inv_of_reachable reach)
  obtain ⟨_, unsent, _⟩ :=
    reading.quiet (motive := fun _ => True) reach (by decide) execution silent
      connected trivial fun _ _ _ _ _ _ _ _ => id
  exact unsent

end State.Listens

/-- The only step of a run in which a client is sent anything. -/
theorem sent_once {first rest first' rest' : List Event} {e' : Event} {ρ ρ' μ μ' : State}
    {frame : Bytes} (reach : Reachable anyStep σ)
    (same : first ++ e :: rest = first' ++ e' :: rest')
    (execution : run σ (first ++ e :: rest) = .ok τ) (ran : run σ first = .ok ρ)
    (done : step ρ e = .ok ρ') (unsent : ρ.sent c = σ.sent c) (last : τ.sent c = ρ'.sent c)
    (ran' : run σ first' = .ok μ) (done' : step μ e' = .ok μ')
    (sent : μ'.sent c = μ.sent c ++ frame) (nonempty : frame ≠ []) :
    first = first' ∧ e = e' ∧ rest = rest' ∧ ρ = μ ∧ ρ' = μ' := by
  have reachρ' : Reachable anyStep ρ' := .next (reach.run ran) trivial done
  have reachμ' : Reachable anyStep μ' := .next (reach.run ran') trivial done'
  have positive : 0 < frame.length := List.length_pos_iff.mpr nonempty
  rcases run_cases same ran done ran' done' with
    once | ⟨between, rfl, later⟩ | ⟨between, rfl, later⟩
  · exact once
  · have middle := (sent_of_run reachρ' later c).length_le
    have after := (sent_of_run reachμ' (run_of_split (same ▸ execution) ran' done') c).length_le
    rw [last, sent, List.length_append] at after
    omega
  · have before := (sent_of_run reach ran' c).length_le
    have after := (sent_of_run reachμ' later c).length_le
    rw [unsent, sent, List.length_append] at after
    omega

/-! ## Transactions that are given to a client -/

theorem idle_of_trace {κ : Conf} {x : Client} (inv : Inv ⟨{}, σ⟩) (live : σ.client c = some x)
    (idle : x.Idle) (other : ∀ input, e.happening ≠ .ready c input)
    (trace : Trace σ e ⟨{}, σ⟩ κ) :
    (∃ y, κ.state.client c = some y ∧ y.Idle) ∧ κ.state.sent c = σ.sent c ∨
      κ.state.Listens c := by
  induction trace with
  | refl => exact .inl ⟨⟨x, live, idle⟩, rfl⟩
  | @tail κ κ' sofar eff ih =>
      have all : Inv κ := inv.trace sofar
      have stopped := stopped_of_trace other sofar
      have stays := stays_of_trace other sofar
      have left : ∀ {wait}, Rests c wait (σ.sent c) κ'.phase κ'.state →
          (∃ y, κ'.state.client c = some y ∧ y.Idle) ∧ κ'.state.sent c = σ.sent c := by
        intro wait rests
        obtain ⟨y, live', idle', _⟩ := rests.idle
        exact ⟨⟨y, live', idle'⟩, rests.silent⟩
      rcases ih with ⟨⟨y, live', idle'⟩, silent⟩ | listens
      · have rests : Rests c y.wait4 (σ.sent c) κ.phase κ.state :=
          ⟨⟨y, live', idle', rfl⟩, stopped, stays, silent⟩
        rcases rests.effect all eff with
          rests' | ⟨_, listens, _⟩ | closing | ⟨_, _, _, rests'⟩ | ⟨_, _, _, _, listens⟩
        · exact .inl (left rests')
        · exact .inr listens
        · exact absurd closing (stays_of_trace other (sofar.tail eff))
        · exact .inl (left rests')
        · exact .inr listens
      · exact .inr (listens.effect all eff stopped stays other).1

section Given

variable {a : AdvertId} {t : TranId} {frame : Bytes} {μ μ' : State} {first rest : List Event}

theorem Given.listens (given : Given μ μ' a c t frame) : μ'.Listens c := by
  obtain ⟨_, _, _, _, handed⟩ := given.hands
  exact handed.reading.listens

theorem Given.not_quiet (given : Given μ μ' a c t frame) (reach : Reachable anyStep σ)
    (ran : run σ first = .ok μ) (done : step μ e = .ok μ')
    (silent : stream c σ (first ++ [e]) = []) : ¬σ.Listens c := by
  intro listens
  have whole : run σ (first ++ [e]) = .ok μ' := run_concat_ok_iff.mpr ⟨μ, ran, done⟩
  obtain ⟨_, _, reading⟩ := given.listens.reading (inv_of_reachable (reach.run whole))
  have connected := reading.connected (inv_of_reachable (reach.run whole))
  have unsent := listens.quiet reach whole silent connected
  have grows := (sent_of_run reach ran c).length_le
  have positive := given.frame_pos
  rw [given.sent] at unsent
  have lengths := congrArg List.length unsent
  rw [List.length_append] at lengths
  omega

/-- Until a client that is not read from is given a transaction, it is sent nothing. -/
theorem Given.unsent {x : Client} (given : Given μ μ' a c t frame) (reach : Reachable anyStep σ)
    (live : σ.client c = some x) (idle : x.Idle) (ran : run σ first = .ok μ)
    (done : step μ e = .ok μ') (silent : stream c σ (first ++ [e]) = []) :
    μ.sent c = σ.sent c := by
  induction first generalizing σ x with
  | nil =>
      obtain rfl := Except.ok.inj ran
      rfl
  | cons e₁ first ih =>
      obtain ⟨ν, done₁, ran⟩ := run_cons_ok_iff.mp ran
      have inv := inv_of_reachable reach
      have reach' : Reachable anyStep ν := .next reach trivial done₁
      rw [List.cons_append, stream_cons done₁, List.append_eq_nil_iff] at silent
      by_cases mine : ∃ input, e₁.happening = .ready c input
      · obtain ⟨input, source⟩ := mine
        have gone := Rests.gone inv live idle source done₁
        have old : c < ν.next := (inv.fresh.clients c ((inv.registry.mem_clients c).mpr
          ⟨x, live⟩)).trans_le (next_le_of_trace (step_trace inv done₁))
        have whole : run ν (first ++ [e]) = .ok μ' := run_concat_ok_iff.mpr ⟨μ, ran, done⟩
        obtain ⟨_, _, reading⟩ := given.listens.reading (inv_of_reachable (reach'.run whole))
        exact absurd reading (not_reading_of_gone reach' gone old whole)
      · simp only [not_exists] at mine
        rcases idle_of_trace inv live idle mine (step_trace inv done₁) with
          ⟨⟨y, live', idle'⟩, unsent⟩ | listens
        · exact (ih reach' live' idle' ran silent.2).trans unsent
        · exact absurd listens (given.not_quiet reach' ran done silent.2)

/-- A client that executes nothing and asks for work is given a transaction before it is read from
again, at once or after a rest. -/
theorem State.AtCommand.given {handler : Handler} {room : Nat} {got said : Bytes}
    (ready : σ.AtCommand c) (reach : Reachable anyStep σ) (execution : run σ events = .ok τ)
    (ends : τ.Reading c handler room got) (sends : stream c σ events = TPTWORK :: said) :
    ∃ first e tail ρ ρ' a t frame, events = first ++ e :: tail ∧ run σ first = .ok ρ ∧
      step ρ e = .ok ρ' ∧ run ρ' tail = .ok τ ∧ Given ρ ρ' a c t frame ∧ ρ.sent c = σ.sent c ∧
      stream c ρ' tail = said := by
  obtain ⟨first, e, tail, ρ, ρ', rfl, ran, done, execution', received, length, split,
      unsent, free⟩ :=
    ready.1.receives (motive := fun μ => μ.Free c) reach (meets_anyStep σ events) (by decide)
      execution (by simp [sends]) ready.2 fun μ e μ' got reach _ _ reading done cause free =>
        free_of_reading free (inv_of_reachable reach) reading done cause
  obtain ⟨byte, typed⟩ := List.length_eq_one_iff.mp
    ((Nat.zero_add _).symm.trans length : (stream c σ (first ++ [e])).length = 1)
  rw [sends, typed, List.singleton_append, List.cons.injEq] at split
  obtain ⟨rfl, sends'⟩ := split
  rw [typed, List.nil_append] at received
  have reach' : Reachable anyStep ρ' := .next (reach.run ran) trivial done
  rcases work_given (inv_of_reachable (reach.run ran)) free ⟨_, received, rfl⟩ done with
    ⟨a, t, frame, given⟩ | rests
  · exact ⟨first, e, tail, ρ, ρ', a, t, frame, rfl, ran, done, execution', given, unsent,
      sends'.symm⟩
  · obtain ⟨first', e', tail', μ, μ', a, t, frame, rfl, ran', done', execution'', given, unsent',
      taken⟩ := rests.given reach' execution' ends
    refine ⟨first ++ e :: first', e', tail', μ, μ', a, t, frame, by simp, ?_, done', execution'',
      given, unsent'.trans unsent, by rw [← taken, sends']⟩
    exact run_append_ok_iff.mpr ⟨ρ, ran, run_cons_ok_iff.mpr ⟨ρ', done, ran'⟩⟩

/-- From a `TPTWORK` to the next command, a client that is given a transaction is sent that and
nothing else. -/
theorem State.Reading.fetches (starts : σ.Reading c .command 1 []) (reach : Reachable anyStep σ)
    (execution : run σ (first ++ e :: rest) = .ok τ) (ends : τ.Reading c .command 1 [])
    (sends : stream c σ (first ++ e :: rest) = [TPTWORK]) (ran : run σ first = .ok μ)
    (done : step μ e = .ok μ') (given : Given μ μ' a c t frame) :
    μ.sent c = σ.sent c ∧ τ.sent c = μ'.sent c := by
  obtain ⟨first₀, e₀, tail, ρ, ρ', split, ran₀, done₀, execution₀, received, length, cut,
      unsent, _⟩ :=
    starts.receives (motive := fun _ => True) reach (meets_anyStep σ _) (by decide) execution
      (by simp [sends]) trivial fun _ _ _ _ _ _ _ _ _ _ => id
  obtain ⟨byte, typed⟩ := List.length_eq_one_iff.mp
    ((Nat.zero_add _).symm.trans length : (stream c σ (first₀ ++ [e₀])).length = 1)
  rw [sends, typed, List.singleton_append, List.cons.injEq] at cut
  obtain ⟨rfl, nothing⟩ := cut
  rw [typed, List.nil_append] at received
  have reachρ : Reachable anyStep ρ := reach.run ran₀
  have reachρ' : Reachable anyStep ρ' := .next reachρ trivial done₀
  have reachμ' : Reachable anyStep μ' := .next (reach.run ran) trivial done
  have last : run μ' rest = .ok τ := run_of_split execution ran done
  have connected := ends.connected (inv_of_reachable (reachμ'.run last))
  rcases run_cases split ran done ran₀ done₀ with
    ⟨rfl, rfl, rfl, rfl, rfl⟩ | ⟨between, rfl, later⟩ | ⟨between, rfl, later⟩
  · exact ⟨unsent, given.listens.quiet reachμ' last nothing.symm connected⟩
  · have before := (sent_of_run reach ran c).length_le
    have after := (sent_of_run reachμ' later c).length_le
    have positive := given.frame_pos
    rw [unsent, given.sent, List.length_append] at after
    omega
  · have toμ' : run ρ' (between ++ [e]) = .ok μ' := run_concat_ok_iff.mpr ⟨μ, later, done⟩
    have cut : between ++ e :: rest = (between ++ [e]) ++ rest := by simp
    rw [cut, stream_append toμ'] at nothing
    obtain ⟨silent, silent'⟩ := List.append_eq_nil_iff.mp nothing.symm
    refine ⟨?_, given.listens.quiet reachμ' last silent' connected⟩
    rcases step_work (inv_of_reachable reachρ) ⟨_, received, rfl⟩ done₀ with
      ⟨_, _, _, _, _, _, _, _, _, _, _, reading, _⟩ | ⟨⟨y, live, idle⟩, same, _⟩
    · exact absurd reading.listens (given.not_quiet reachρ' later done silent)
    · rw [given.unsent reachρ' live idle later done silent, same, unsent]

end Given

/-! ## Answers to a request for a reply -/

/-- What a client is sent for a `TPTGRPLY`. -/
def IsAnswer (frame : Bytes) : Prop :=
  (∃ errno, frame = errorFrame errno) ∨
    ∃ tr contents, contents.length < 2 ^ 31 ∧ frame = replyFrame tr contents

theorem Sized.trace {κ : Conf} (sized : Sized σ) (inv : Inv ⟨{}, σ⟩) (trace : Trace σ e ⟨{}, σ⟩ κ) :
    Sized κ.state := by
  induction trace with
  | refl => exact sized
  | tail sofar eff ih => exact ih.effect (inv.trace sofar) eff

namespace Still

/-- While others are served, a client nobody turns to is left alone, or answered. -/
theorem told {κ : Conf} (still : Still c said {} σ) (sound : Sound ⟨{}, σ⟩) (sized : Sized σ)
    (new : PicksNew σ e) (other : ∀ input, e.happening ≠ .ready c input)
    (trace : Trace σ e ⟨{}, σ⟩ κ) :
    Still c said κ.phase κ.state ∨
      κ.state.Listens c ∧ ∃ frame, IsAnswer frame ∧ κ.state.sent c = said ++ frame := by
  induction trace with
  | refl => exact .inl still
  | @tail κ κ' sofar eff ih =>
      have all : Inv κ := sound.all.trace sofar
      rcases ih with still' | ⟨listens, frame, answer, sent⟩
      · refine (still'.effect (sound.trace sound.parking new sofar) sound.parking eff).imp_right ?_
        rintro ⟨t, tr, contents, found, room, ⟨x, live⟩, rfl, same⟩
        have short := (sized.trace sound.all sofar).data t tr contents found room
        refine ⟨?_, _, .inr ⟨tr, contents, short, rfl⟩, ?_⟩
        · rw [same]
          exact (reading_reply contents live (all.fresh.buf _ _ room)).listens
        · rw [same]
          exact still'.sent_reply rfl
      · obtain ⟨listens', silent⟩ := listens.effect all eff (stopped_of_trace other sofar)
          (stays_of_trace other sofar) other
        exact .inr ⟨listens', frame, answer, silent.trans sent⟩

/-- A client nobody turns to that is read from later has been answered in between, once. -/
theorem answered {x : Client} {handler : Handler} {room : Nat} {got : Bytes}
    (still : Still c said {} σ) (live : σ.client c = some x) (reach : Reachable PicksNew σ)
    (meets : Meets PicksNew σ events) (execution : run σ events = .ok τ)
    (silent : stream c σ events = []) (ends : τ.Reading c handler room got) :
    ∃ first e rest ρ ρ' frame, events = first ++ e :: rest ∧ run σ first = .ok ρ ∧
      step ρ e = .ok ρ' ∧ IsAnswer frame ∧ ρ.sent c = said ∧ ρ'.sent c = said ++ frame ∧
      τ.sent c = ρ'.sent c := by
  have idle := still.idle x live
  induction events generalizing σ x with
  | nil =>
      obtain rfl := Except.ok.inj execution
      obtain ⟨y, _, _, live', reads, _⟩ := ends
      obtain rfl := Option.some.inj (live.symm.trans live')
      cases idle.1.symm.trans reads
  | cons e events ih =>
      obtain ⟨μ, done, execution⟩ := run_cons_ok_iff.mp execution
      have sound := sound_of_reachable reach
      have reach' : Reachable PicksNew μ := reach.next meets.1 done
      have any : Reachable anyStep μ := reach'.mono fun _ _ _ => trivial
      have trace := step_trace sound.all done
      rw [stream_cons done, List.append_eq_nil_iff] at silent
      have absent : μ.client c ≠ none := fun gone =>
        not_reading_of_gone any gone (still.old.trans_le (next_le_of_trace trace)) execution ends
      by_cases mine : ∃ input, e.happening = .ready c input
      · obtain ⟨input, source⟩ := mine
        exact absurd (Rests.gone sound.all live idle source done) absent
      · simp only [not_exists] at mine
        rcases still.told sound (sized_of_reachable reach) meets.1 mine trace with
          still' | ⟨listens, frame, answer, sent⟩
        · obtain ⟨y, live'⟩ := Option.ne_none_iff_exists'.mp absent
          obtain ⟨first, e', rest, ρ, ρ', frame, rfl, ran, rest'⟩ := ih still' live' reach'
            (meets.2 μ done) execution silent.2 (still'.idle y live')
          exact ⟨e :: first, e', rest, ρ, ρ', frame, rfl, run_cons_ok_iff.mpr ⟨μ, done, ran⟩, rest'⟩
        · refine ⟨[], e, events, σ, μ, frame, rfl, rfl, done, answer, still.silent, sent, ?_⟩
          exact listens.quiet any execution silent.2
            (ends.connected (inv_of_reachable (any.run execution)))

end Still

theorem asked_answered {request : Bytes} (reach : Reachable PicksNew σ) (new : PicksNew σ e)
    (received : Received σ e c .svrgetrply request) (done : step σ e = .ok τ) :
    (τ.Listens c ∧ ∃ frame, IsAnswer frame ∧ τ.sent c = σ.sent c ++ frame) ∨
      Still c (σ.sent c) {} τ ∧ ∃ x, τ.client c = some x := by
  have inv := inv_of_reachable reach
  obtain ⟨x, b, u, live, into, reads, called⟩ := runHandler_of_step received done
  obtain ⟨contents, y, room, begun, outcome⟩ := svrgetrply_ok called
  rcases outcome with ⟨t, tr, data, z, member, _, deletable, stored, owner, _, rfl⟩ |
    ⟨_, ⟨errno, _, _, rfl⟩ | ⟨w, _, rfl⟩⟩
  · obtain ⟨x', live', same⟩ := change_eq_some_iff.mp begun
    obtain rfl := Option.some.inj (live.symm.trans live')
    rw [if_pos rfl] at same
    obtain rfl := same
    obtain rfl : tr.client = c :=
      inv.own.owner_eq live (List.mem_append_right _ member) deletable.live
    obtain ⟨kept, stored⟩ := put_none_eq_some_iff.mp stored
    have apart : tr.data ≠ b :=
      (inv.buffers.reading _ x b live ⟨into, _, reads, rfl⟩).1.apart t tr deletable.live
    have before : σ.buf tr.data = some data := (if_neg apart).symm.trans stored
    refine .inl ⟨(reading_reply data owner (inv.fresh.buf _ _ before)).listens, _, .inr
      ⟨tr, data, (sized_of_reachable reach).data t tr data deletable.live before, rfl⟩, if_pos rfl⟩
  · have live' :
        (((σ.begin c .svrgetrply b request).freeBuf b).write c (errorFrame errno)).client c =
          some y := begun
    exact .inl ⟨(reading_nextCommand live').listens, _, .inl ⟨errno, rfl⟩, if_pos rfl⟩
  · have blocked : Blocked PicksNew c _ := .asks reach new received done rfl
    exact .inr ⟨blocked.still, _, change_eq_some_iff.mpr ⟨y, begun, rfl⟩⟩

/-- From a `TPTGRPLY` to the next command, a client is sent one answer and nothing else. -/
theorem State.Reading.asks {body : Bytes} (starts : σ.Reading c .command 1 [])
    (reach : Reachable PicksNew σ) (meets : Meets PicksNew σ events)
    (execution : run σ events = .ok τ) (ends : τ.Reading c .command 1 [])
    (length : body.length = IOSHORT + IOLONG) (sends : stream c σ events = TPTGRPLY :: body) :
    ∃ first e rest ρ ρ' frame, events = first ++ e :: rest ∧ run σ first = .ok ρ ∧
      step ρ e = .ok ρ' ∧ IsAnswer frame ∧ ρ.sent c = σ.sent c ∧ ρ'.sent c = ρ.sent c ++ frame ∧
      τ.sent c = ρ'.sent c := by
  have nonempty : body ≠ [] := by
    rintro rfl
    cases length
  have known : commands[TPTGRPLY.toNat]? = some (.svrgetrply, body.length) := by
    rw [length]
    rfl
  obtain ⟨first, e, tail, ρ, ρ', rfl, ran, done, execution', received, silent, unsent, _⟩ :=
    starts.message (motive := fun _ => True) reach meets execution known nonempty
      (sends.trans (by rw [List.append_nil])) trivial (fun _ _ _ _ _ _ _ _ _ => id)
      fun _ _ _ _ _ _ _ _ _ _ => id
  obtain ⟨permits, later⟩ : Meets PicksNew ρ (e :: tail) := meets.drop ran
  have reachρ : Reachable PicksNew ρ := reach.meets meets.take ran
  have reachρ' : Reachable PicksNew ρ' := reachρ.next permits done
  have any : Reachable anyStep ρ' := reachρ'.mono fun _ _ _ => trivial
  have connected := ends.connected (inv_of_reachable (any.run execution'))
  rcases asked_answered reachρ permits received done with
    ⟨listens, frame, answer, sent⟩ | ⟨still, x, live⟩
  · exact ⟨first, e, tail, ρ, ρ', frame, rfl, ran, done, answer, unsent, sent,
      listens.quiet any execution' silent connected⟩
  · obtain ⟨first', e', rest, μ, μ', frame, rfl, ran', done', answer, said, sent, last⟩ :=
      still.answered live reachρ' (later ρ' done) execution' silent ends
    refine ⟨first ++ e :: first', e', rest, μ, μ', frame, by simp, ?_, done', answer, ?_, ?_, last⟩
    · exact run_append_ok_iff.mpr ⟨ρ, ran, run_cons_ok_iff.mpr ⟨ρ', done, ran'⟩⟩
    · rw [said, unsent]
    · rw [sent, said]

end Switchboard
end Xatmi
