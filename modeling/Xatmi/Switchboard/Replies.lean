import Xatmi.Switchboard.Assignment
import Xatmi.Switchboard.Conversation
import Xatmi.Switchboard.Requests

/-!
# From a return to the reply

A worker that is being read from keeps the transaction it executes until its result is complete, or
until the transaction is deleted; the switchboard does not survive a return of the latter kind. A
result that is complete stays as it is until it is sent or deleted.
-/

namespace Xatmi
namespace Switchboard

open Program

variable {σ₀ : State} {e : Event} {φ φ' : Phase} {σ τ : State} {w : ClientId} {t : TranId}
  {tr : Transaction} {data : Bytes}

/-! ## Workers that are being read from -/

/-- Worker `w` executes transaction `t`. -/
def State.Executes (σ : State) (w : ClientId) (t : TranId) (tr : Transaction) : Prop :=
  (∃ x, σ.client w = some x ∧ x.wait4 = some (.tran t)) ∧ σ.tran t = some tr

/-- Transaction `t`, which worker `w` has executed, has been deleted. -/
def State.Forgets (σ : State) (w : ClientId) (t : TranId) : Prop :=
  (∃ x, σ.client w = some x ∧ (x.wait4 = some (.tran t) ∨ x.wait4 = none)) ∧ σ.tran t = none ∧
    t < σ.next

/-- What a client that is being read from executes changes only by the deletion of the
transaction. -/
theorem wait_of_effect {x : Client} (all : Inv ⟨φ, σ⟩) (eff : Effect σ₀ e ⟨φ, σ⟩ ⟨φ', τ⟩)
    (live : σ.client w = some x) (busy : x.handler ≠ none) (other : φ.run ≠ some w)
    (stays : φ.closing ≠ some w) :
    ∃ y, τ.client w = some y ∧
      (y.wait4 = x.wait4 ∨ y.wait4 = none ∧ ∃ t, x.wait4 = some (.tran t) ∧ τ.tran t = none) := by
  have changed : ∀ {c update}, (c = w → ∀ x, (update x).wait4 = x.wait4) →
      ∃ y, change σ.client c update w = some y ∧ (y.wait4 = x.wait4 ∨
        y.wait4 = none ∧ ∃ t, x.wait4 = some (.tran t) ∧ τ.tran t = none) := by
    intro c update same
    refine ⟨_, change_eq_some_iff.mpr ⟨x, live, rfl⟩, .inl ?_⟩
    split
    · rename_i here
      exact same here.symm x
    · rfl
  have deleted : ∀ {ρ : State} {t' tr'}, ρ.client w = some x → τ = ρ.delTran t' tr' →
      ∃ y, τ.client w = some y ∧
        (y.wait4 = x.wait4 ∨ y.wait4 = none ∧ ∃ t, x.wait4 = some (.tran t) ∧ τ.tran t = none) := by
    rintro ρ t' tr' live' rfl
    refine ⟨_, Option.map_eq_some_iff.mpr ⟨x, live', rfl⟩, ?_⟩
    simp only [State.bereave]
    split
    · rename_i both
      exact .inr ⟨rfl, t', both.1, if_pos rfl⟩
    · exact .inl rfl
  have answered : ∀ {t' tr' contents y}, σ.client tr'.client = some y → y.Idle →
      τ = σ.reply t' tr' contents → ∃ y, τ.client w = some y ∧
        (y.wait4 = x.wait4 ∨ y.wait4 = none ∧ ∃ t, x.wait4 = some (.tran t) ∧ τ.tran t = none) := by
    rintro t' tr' contents y owner idle rfl
    have elsewhere : w ≠ tr'.client := by
      rintro rfl
      obtain rfl := Option.some.inj (live.symm.trans owner)
      exact busy idle.1
    refine deleted ?_ rfl
    exact (congrFun (change_change _ _ _ _) w).trans (change_eq_some_iff.mpr
      ⟨x, live, (if_neg elsewhere).symm⟩)
  have assigned : ∀ {a v t' frame adverts y}, σ.client v.client = some y → y.Idle →
      τ = (σ.dismiss adverts).assign a v t' frame → ∃ y, τ.client w = some y ∧
        (y.wait4 = x.wait4 ∨ y.wait4 = none ∧ ∃ t, x.wait4 = some (.tran t) ∧ τ.tran t = none) := by
    rintro a v t' frame adverts y worker idle rfl
    have elsewhere : w ≠ v.client := by
      rintro rfl
      obtain rfl := Option.some.inj (live.symm.trans worker)
      exact busy idle.1
    refine ⟨x, ?_, .inl rfl⟩
    exact (congrFun (change_change _ _ _ _) w).trans (change_eq_some_iff.mpr
      ⟨x, live, (if_neg elsewhere).symm⟩)
  cases eff with
  | connect =>
      have old : w ≠ σ₀.next := by
        rintro rfl
        cases (all.fresh.client_next all.registry).symm.trans live
      exact ⟨x, change_eq_some_iff.mpr ⟨x, put_eq_some_iff.mpr (.inr ⟨old, live⟩),
        (if_neg old).symm⟩, .inl rfl⟩
  | fill | begin | next | armHeader | submit | armUpload | armReturn | requeue | offer | detach =>
      exact changed fun _ _ => rfl
  | block running => exact changed fun here => absurd (here ▸ running) other
  | finish running => exact changed fun here => absurd (here ▸ running) other
  | fail closing => exact changed fun here => absurd (here ▸ closing) stays
  | assignUp _ _ _ _ _ _ _ worker idle => exact assigned worker idle rfl
  | assignWork _ _ _ _ _ _ _ _ _ worker idle => exact assigned worker idle rfl
  | replyQueued _ _ _ _ owner idle => exact answered owner idle rfl
  | replyWaiting _ owner idle => exact answered owner idle rfl
  | sweep | purge => exact deleted live rfl
  | dropClient closing =>
      refine ⟨x, put_none_eq_some_iff.mpr ⟨?_, live⟩, .inl rfl⟩
      rintro rfl
      exact stays closing
  | _ => exact ⟨x, live, .inl rfl⟩

theorem freed_of_effect (eff : Effect σ₀ e ⟨φ, σ⟩ ⟨φ', τ⟩) {b : BufId} (freed : σ.buf b = none)
    (old : b < σ.next) :
    τ.buf b = none := by
  have kept : ∀ {key value contents}, σ.buf key = some contents → put σ.buf key value b = none := by
    intro key value contents room
    refine (if_neg ?_).trans freed
    rintro rfl
    cases freed.symm.trans room
  have alloc : ∀ {buf : BufId → Option Bytes} {value}, buf b = none →
      put buf σ.next value b = none :=
    fun none_ => (if_neg old.ne).trans none_
  have free : ∀ {buf : BufId → Option Bytes} {key}, buf b = none → put buf key none b = none := by
    intro buf key none_
    unfold put
    split
    · rfl
    · exact none_
  cases eff with
  | connect => exact (if_neg (old.trans (Nat.lt_succ_self _)).ne).trans freed
  | fill _ _ _ room => exact kept room
  | begin _ _ _ _ room => exact kept room
  | release | sweep | purge => exact free freed
  | resize => exact alloc (free freed)
  | next | submit | assignUp | assignWork => exact alloc freed
  | replyQueued | replyWaiting => exact free (alloc freed)
  | setReturn => exact alloc (free freed)
  | _ => exact freed

theorem executed_of_effect {x : Client} (sound : Sound ⟨φ, σ⟩) (new : PicksNew σ₀ e)
    (live : σ.client w = some x) (busy : x.handler ≠ none) (other : φ.run ≠ some w)
    (stays : φ.closing ≠ some w) (serves : x.wait4 = some (.tran t)) (found : σ.tran t = some tr)
    (eff : Effect σ₀ e ⟨φ, σ⟩ ⟨φ', τ⟩) :
    τ.tran t = some tr ∨ τ.tran t = none ∧ τ.buf tr.data = none ∧ tr.data < τ.next := by
  have all : Inv ⟨φ, σ⟩ := sound.all
  have dispatches : Dispatches φ σ := all.dispatches
  obtain ⟨a, given⟩ := (dispatches.active w x live (.inl busy)).2 t serves
  have unique : ∀ {b c}, .dispatched b c t ∈ σ.log → c = w :=
    fun seen => (worker_unique sound.parking.once seen given).2
  have changed : ∀ {key update}, t ≠ key → change σ.tran key update t = some tr :=
    fun different => change_eq_some_iff.mpr ⟨tr, found, by rw [if_neg different]⟩
  have idle : ∀ {c y}, σ.client c = some y → φ.run = some c → y.wait4 ≠ some (.tran t) := by
    intro c y live' running serves'
    obtain ⟨b, seen⟩ := (dispatches.active c y live' (.inr running)).2 t serves'
    exact other (unique seen ▸ running)
  have deleted : ∀ {t' tr'}, σ.tran t' = some tr' → τ.tran = put σ.tran t' none →
      τ.buf tr'.data = none → σ.next ≤ τ.next → τ.tran t = some tr ∨ τ.tran t = none ∧
      τ.buf tr.data = none ∧ tr.data < τ.next := by
    intro t' tr' current tran buf next
    rw [tran]
    by_cases same : t = t'
    · subst same
      obtain rfl := Option.some.inj (found.symm.trans current)
      exact .inr ⟨if_pos rfl, buf, (all.data_lt t tr found).trans_le next⟩
    · exact .inl ((if_neg same).trans found)
  cases eff with
  | submit =>
      refine .inl (put_eq_some_iff.mpr (.inr ⟨?_, found⟩))
      have old := (all.waits.old (.tran t) (Option.isSome_of_eq_some found)).1
      exact (old.trans (Nat.lt_succ_self _)).ne
  | assignUp up =>
      refine .inl (changed ?_)
      rintro rfl
      obtain ⟨_, _, uploading, _⟩ := dispatches.uploaded _ up
      exact uploading.new ⟨a, w, given⟩
  | assignWork _ asked picked _ _ _ _ _ _ _ _ _ _ _ _ fresh =>
      refine .inl (changed ?_)
      rintro rfl
      exact new.undispatched asked picked ⟨a, w, fresh a w _ given⟩
  | finish running _ live' serves' =>
      refine .inl (changed ?_)
      rintro rfl
      exact idle live' running serves'
  | setReturn running live' serves' =>
      rw [State.setReturn_tran]
      refine .inl (changed ?_)
      rintro rfl
      exact idle live' running serves'
  | @fail _ _ c _ _ _ b v closing _ _ _ found' executor advert mine =>
      refine .inl (changed ?_)
      rintro rfl
      obtain ⟨k, seen, worker⟩ := dispatches.executor t _ b found' executor
      exact stays (unique seen ▸ worker v advert ▸ mine ▸ closing)
  | replyQueued _ _ _ _ _ _ deletable =>
      exact deleted deletable.live rfl (if_pos rfl) (Nat.le_succ _)
  | replyWaiting _ _ _ _ deletable => exact deleted deletable.live rfl (if_pos rfl) (Nat.le_succ _)
  | sweep _ _ _ _ deletable => exact deleted deletable.live rfl (if_pos rfl) le_rfl
  | purge _ _ _ _ _ _ _ deletable => exact deleted deletable.live rfl (if_pos rfl) le_rfl
  | _ => exact .inl found

theorem bystander_of_trace {κ : Conf} {x : Client} (inv : Inv ⟨{}, σ⟩) (live : σ.client w = some x)
    (busy : x.handler ≠ none) (other : ∀ input, e.happening ≠ .ready w input)
    (trace : Trace σ e ⟨{}, σ⟩ κ) :
    (∃ y, κ.state.client w = some y ∧ y.handler ≠ none) ∧ κ.phase.run ≠ some w ∧
      κ.phase.closing ≠ some w := by
  obtain ⟨y, live', same, _⟩ := reading_of_trace inv live busy other trace
  simp only [Client.intake, Prod.mk.injEq] at same
  refine ⟨⟨y, live', fun idle => busy (same.1.symm.trans idle)⟩, fun running => ?_,
    stays_of_trace other trace⟩
  obtain ⟨input, source⟩ := source_of_run trace running
  exact other input source

theorem State.Forgets.effect {x : Client} (forgets : σ.Forgets w t) (all : Inv ⟨φ, σ⟩)
    (eff : Effect σ₀ e ⟨φ, σ⟩ ⟨φ', τ⟩) (live : σ.client w = some x) (busy : x.handler ≠ none)
    (other : φ.run ≠ some w) (stays : φ.closing ≠ some w) : τ.Forgets w t := by
  obtain ⟨⟨y, live', serves⟩, gone, old⟩ := forgets
  obtain rfl := Option.some.inj (live.symm.trans live')
  obtain ⟨z, live'', wait⟩ := wait_of_effect all eff live busy other stays
  refine ⟨⟨z, live'', ?_⟩, tran_of_effect eff gone old, old.trans_le eff.next_le⟩
  rcases wait with wait | ⟨wait, _⟩
  · rw [wait]
    exact serves
  · exact .inr wait

/-- While other clients are served, a worker that is being read from goes on executing its
transaction, or the transaction is deleted with its data. -/
theorem State.Executes.trace {κ : Conf} {x : Client} (executes : σ.Executes w t tr)
    (sound : Sound ⟨{}, σ⟩) (new : PicksNew σ e) (live : σ.client w = some x)
    (busy : x.handler ≠ none) (other : ∀ input, e.happening ≠ .ready w input)
    (trace : Trace σ e ⟨{}, σ⟩ κ) :
    κ.state.Executes w t tr ∨
      κ.state.Forgets w t ∧ κ.state.buf tr.data = none ∧ tr.data < κ.state.next := by
  induction trace with
  | refl => exact .inl executes
  | @tail κ κ' sofar eff ih =>
      obtain ⟨φ, ρ⟩ := κ
      have sound' : Sound ⟨φ, ρ⟩ := sound.trace sound.parking new sofar
      obtain ⟨⟨y, live', busy'⟩, running, stays⟩ :=
        bystander_of_trace sound.all live busy other sofar
      rcases ih with ⟨⟨y', live₁, serves⟩, found⟩ | ⟨forgets, freed, old⟩
      · obtain rfl := Option.some.inj (live'.symm.trans live₁)
        obtain ⟨z, live'', wait⟩ := wait_of_effect sound'.all eff live' busy' running stays
        have old : t < ρ.next := (sound'.all.waits.old (.tran t) (Option.isSome_of_eq_some found)).1
        rcases executed_of_effect sound' new live' busy' running stays serves found eff with kept |
          ⟨gone, freed⟩
        · refine .inl ⟨⟨z, live'', ?_⟩, kept⟩
          rcases wait with wait | ⟨_, t', serves', gone⟩
          · exact wait.trans serves
          · obtain rfl := Wait.tran.inj (Option.some.inj (serves.symm.trans serves'))
            cases kept.symm.trans gone
        · refine .inr ⟨⟨⟨z, live'', ?_⟩, gone, old.trans_le eff.next_le⟩, freed⟩
          exact wait.imp (fun wait => wait.trans serves) And.left
      · exact .inr ⟨forgets.effect sound'.all eff live' busy' running stays,
          freed_of_effect eff freed old, old.trans_le eff.next_le⟩

theorem gone_of_trace {κ κ' : Conf} (trace : Trace σ₀ e κ κ') (gone : κ.state.tran t = none)
    (old : t < κ.state.next) : κ'.state.tran t = none ∧ t < κ'.state.next := by
  induction trace with
  | refl => exact ⟨gone, old⟩
  | tail _ eff ih => exact ⟨tran_of_effect eff ih.1 ih.2, ih.2.trans_le eff.next_le⟩

theorem deleted_of_run {events : List Event} (reach : Reachable anyStep σ) (gone : σ.tran t = none)
    (old : t < σ.next) (execution : run σ events = .ok τ) : τ.tran t = none := by
  cases found : τ.tran t with
  | none => rfl
  | some tr =>
      obtain ⟨_, before, _⟩ := place_of_run reach execution old found
      cases gone.symm.trans before

theorem State.Forgets.trace {κ : Conf} {x : Client} (forgets : σ.Forgets w t) (inv : Inv ⟨{}, σ⟩)
    (live : σ.client w = some x) (busy : x.handler ≠ none)
    (other : ∀ input, e.happening ≠ .ready w input) (trace : Trace σ e ⟨{}, σ⟩ κ) :
    κ.state.Forgets w t := by
  induction trace with
  | refl => exact forgets
  | tail sofar eff ih =>
      obtain ⟨⟨y, live', busy'⟩, running, stays⟩ := bystander_of_trace inv live busy other sofar
      exact ih.effect (inv.trace sofar) eff live' busy' running stays

theorem executes_fill (c : ClientId) (b : BufId) (contents piece : Bytes)
    (executes : σ.Executes w t tr) :
    (σ.fill c b contents piece).Executes w t tr := by
  obtain ⟨⟨x, live, serves⟩, found⟩ := executes
  refine ⟨⟨_, change_eq_some_iff.mpr ⟨x, live, rfl⟩, ?_⟩, found⟩
  split <;> exact serves

theorem returning_fill (c : ClientId) (b : BufId) (contents piece : Bytes)
    (returning : σ.Returning w tr) :
    (σ.fill c b contents piece).Returning w tr := by
  obtain ⟨x, live, reads, into⟩ := returning
  refine ⟨_, change_eq_some_iff.mpr ⟨x, live, rfl⟩, ?_, ?_⟩ <;> split <;> assumption

theorem executes_of_svrreturn {header : Bytes} (received : Received σ e w .svrreturn header)
    (done : step σ e = .ok τ) : ∃ t tr, σ.Executes w t tr := by
  obtain ⟨x, b, u, live, into, _, called⟩ := runHandler_of_step received done
  have begun : (σ.begin w .svrreturn b header).client w =
      some { x with handler := none, input := none, used := 0 } :=
    change_eq_some_iff.mpr ⟨x, live, (if_pos rfl).symm⟩
  simp only [runHandler, runCommand] at called
  obtain ⟨_, y, t, tr, _, _, _, _, live', _, serves, found, _⟩ := svrreturn_ok called
  obtain rfl := Option.some.inj (begun.symm.trans live')
  exact ⟨t, tr, ⟨x, live, serves⟩, found⟩

/-- A message that is not the data of a result leaves its client the transaction that it executes,
unless that has been deleted. -/
theorem executes_or_forgets {handler : Handler} {room : Nat} {got : Bytes}
    (either : σ.Executes w t tr ∨ σ.Forgets w t) (reach : Reachable PicksNew σ) (new : PicksNew σ e)
    (reading : σ.Reading w handler room got) (done : step σ e = .ok τ)
    (cause : (∀ input, e.happening ≠ .ready w input) ∨ ∃ b contents piece,
      τ = σ.fill w b contents piece) :
    τ.Executes w t tr ∨ τ.Forgets w t := by
  have sound := sound_of_reachable reach
  rcases cause with other | ⟨b, contents, piece, rfl⟩
  · have trace := step_trace sound.all done
    obtain ⟨x, _, _, live, reads, _⟩ := reading
    rcases either with executes | forgets
    · exact (executes.trace sound new live (by simp [reads]) other trace).imp_right And.left
    · exact .inr (forgets.trace sound.all live (by simp [reads]) other trace)
  · rcases either with executes | ⟨⟨x, live, serves⟩, gone⟩
    · exact .inl (executes_fill w b contents piece executes)
    · exact .inr ⟨⟨_, change_eq_some_iff.mpr ⟨x, live, rfl⟩, by rw [if_pos rfl]; exact serves⟩,
        gone⟩

/-! ## Data that was taken away -/

/-- Client `c` is being read from into a buffer that has been freed. -/
def State.Dangles (σ : State) (c : ClientId) : Prop :=
  ∃ x b, σ.client c = some x ∧ x.handler ≠ none ∧ x.input = some b ∧ σ.buf b = none ∧ b < σ.next

theorem State.Reading.not_dangles {handler : Handler} {room : Nat} {got : Bytes}
    (reading : σ.Reading w handler room got) : ¬σ.Dangles w := by
  rintro ⟨x, b, live, _, into, freed, _⟩
  obtain ⟨y, b', contents, live', _, into', _, room, _⟩ := reading
  obtain rfl := Option.some.inj (live.symm.trans live')
  obtain rfl := Option.some.inj (into.symm.trans into')
  cases freed.symm.trans room

/-- Nothing is taken from its connection any more. -/
theorem State.Dangles.stuck {events : List Event} (dangles : σ.Dangles w)
    (reach : Reachable anyStep σ) (execution : run σ events = .ok τ) : stream w σ events = [] := by
  induction events generalizing σ with
  | nil => rfl
  | cons e events ih =>
      obtain ⟨μ, done, execution⟩ := run_cons_ok_iff.mp execution
      have inv := inv_of_reachable reach
      obtain ⟨x, b, live, busy, into, freed, old⟩ := dangles
      by_cases source : ∃ input, e.happening = .ready w input
      · obtain ⟨input, source⟩ := source
        rw [step_ready source ((inv.registry.mem_clients w).mpr ⟨x, live⟩), map_snd_ok_iff] at done
        obtain ⟨u, served⟩ := done
        obtain ⟨handler, reads⟩ := Option.ne_none_iff_exists'.mp busy
        simp only [serve, bind_ok_iff, readClient_ok_iff, and_assoc, exists_and_left,
          exists_eq_left] at served
        obtain ⟨y, live', rest⟩ := served
        obtain rfl := Option.some.inj (live.symm.trans live')
        simp only [into, reads, bind_ok_iff, readBuf_ok_iff, and_assoc, exists_and_left,
          exists_eq_left] at rest
        obtain ⟨contents, room, _⟩ := rest
        cases freed.symm.trans room
      · simp only [not_exists] at source
        have trace := step_trace inv done
        obtain ⟨y, live', same, _⟩ := reading_of_trace inv live busy source trace
        simp only [Client.intake, Prod.mk.injEq] at same
        have still : ∀ {κ}, Trace σ e ⟨{}, σ⟩ κ → κ.state.buf b = none := by
          intro κ trace
          induction trace with
          | refl => exact freed
          | tail sofar eff ih =>
              exact freed_of_effect eff ih (old.trans_le (next_le_of_trace sofar))
        have dangles' : μ.Dangles w :=
          ⟨y, b, live', fun idle => busy (same.1.symm.trans idle), same.2.1.trans into, still trace,
            old.trans_le (next_le_of_trace trace)⟩
        rw [stream_cons done, taken_of_other source, List.nil_append]
        exact ih dangles' (.next reach trivial done) execution

theorem return_arrives {room : Nat} {bytes rest : Bytes} {events : List Event}
    (reach : Reachable PicksNew σ) (meets : Meets PicksNew σ events)
    (reading : σ.Reading w .part2 room []) (execution : run σ events = .ok τ)
    (length : bytes.length = room) (sends : stream w σ events = bytes ++ rest)
    (executes : σ.Executes w t tr) (returning : σ.Returning w tr) :
    ∃ first e tail ρ ρ', events = first ++ e :: tail ∧ run σ first = .ok ρ ∧ step ρ e = .ok ρ' ∧
      run ρ' tail = .ok τ ∧ Received ρ e w .part2 bytes ∧ ρ.Executes w t tr ∧ ρ.Returning w tr ∧
      ρ.sent w = σ.sent w ∧ stream w ρ' tail = rest := by
  have beside : ∀ {μ μ' : State} {e got}, Reachable PicksNew μ → PicksNew μ e → μ.Executes w t tr →
      μ.Returning w tr → μ.Reading w .part2 room got → (∀ input, e.happening ≠ .ready w input) →
      step μ e = .ok μ' → μ'.Returning w tr ∧
        (μ'.Executes w t tr ∧ μ'.Reading w .part2 room got ∧ μ'.sent w = μ.sent w ∨
          μ'.Dangles w) := by
    intro μ μ' e got reach new executes returning reading other done
    have sound := sound_of_reachable reach
    have trace := step_trace sound.all done
    obtain ⟨x, live, reads, into⟩ := returning
    have busy : x.handler ≠ none := by simp [reads]
    obtain ⟨y, live', same, _⟩ := reading_of_trace sound.all live busy other trace
    simp only [Client.intake, Prod.mk.injEq] at same
    refine ⟨⟨y, live', same.1.trans reads, same.2.1.trans into⟩, ?_⟩
    rcases executes.trace sound new live busy other trace with executes' | ⟨_, freed, old⟩
    · refine .inl ⟨executes', reading.beside sound.all (apart_of_reachable reach) (fun _ => ?_)
        other done⟩
      refine ⟨x, t, tr, live, into, fun κ before after => ?_⟩
      rcases executes.trace sound new live busy other before with executes'' | ⟨⟨_, gone, old⟩, _⟩
      · exact executes''.2
      · cases (gone_of_trace after gone old).1.symm.trans executes'.2
    · exact .inr ⟨y, tr.data, live', fun idle => busy (same.1.symm.trans idle), same.2.1.trans into,
        freed, old⟩
  obtain ⟨first, e, tail, ρ, ρ', rfl, ran, done, execution', received, whole, split, unsent,
      returning', either⟩ :=
    reading.fills (motive := fun μ => μ.Returning w tr ∧ (μ.Executes w t tr ∨ μ.Dangles w))
      reach meets (fun μ e μ' got reach new holds reading other done => by
        have executes := holds.2.resolve_right reading.not_dangles
        obtain ⟨_, ⟨_, reading', silent⟩ | dangles⟩ :=
          beside reach new executes holds.1 reading other done
        · exact .inl ⟨reading', silent⟩
        · have reach' : Reachable anyStep μ' :=
            (Reachable.next reach new done).mono fun _ _ _ => trivial
          exact .inr fun events ν execution => dangles.stuck reach' execution)
      execution (by simp [sends, length]) ⟨returning, .inl executes⟩
      (fun μ e μ' got reach new _ reading done cause holds => by
        have executes := holds.2.resolve_right reading.not_dangles
        rcases cause with other | ⟨b, contents, piece, rfl⟩
        · exact (beside reach new executes holds.1 reading other done).imp_right fun either =>
            either.imp_left And.left
        · exact ⟨returning_fill w b contents piece holds.1,
            .inl (executes_fill w b contents piece executes)⟩)
  rw [List.nil_append] at received
  rw [List.length_nil, Nat.zero_add] at whole
  rw [sends] at split
  obtain ⟨rfl, left⟩ := List.append_inj split (length.trans whole.symm)
  refine ⟨first, e, tail, ρ, ρ', rfl, ran, done, execution', received, either.resolve_right ?_,
    returning', unsent, left.symm⟩
  rintro ⟨x, b, live, _, into, freed, _⟩
  obtain ⟨_, y, b', _, _, _, _, live', _, into', room, _⟩ := received_elim received
  obtain rfl := Option.some.inj (live.symm.trans live')
  obtain rfl := Option.some.inj (into.symm.trans into')
  cases freed.symm.trans room

/-! ## Replies that wait -/

/-- Transaction `t` is among the replies of its client, with the result in `tr` and `data`. -/
structure State.Answers (σ : State) (t : TranId) (tr : Transaction) (data : Bytes) : Prop where
  found : σ.tran t = some tr
  free : tr.executor = none
  queued : ∃ y, σ.client tr.client = some y ∧ t ∈ y.replies
  room : σ.buf tr.data = some data
  unread : ∀ k y, σ.client k = some y → y.input ≠ some tr.data

namespace State.Answers

variable (answers : σ.Answers t tr data)

include answers

theorem dispatched (all : Inv ⟨φ, σ⟩) : σ.Dispatched t := by
  obtain ⟨y, live, member⟩ := answers.queued
  exact all.dispatches.replied tr.client y t live member

theorem not_served (all : Inv ⟨φ, σ⟩) (answered : Answered σ) {c : ClientId} {x : Client}
    (live : σ.client c = some x) (running : φ.run = some c) : x.wait4 ≠ some (.tran t) := by
  intro serves
  obtain ⟨a, seen⟩ := (all.dispatches.active c x live (.inr running)).2 t serves
  obtain ⟨y, live', member⟩ := answers.queued
  exact answered tr.client y t live' member c x a live serves seen

theorem not_active (all : Inv ⟨φ, σ⟩) (answered : Answered σ) : ¬Active φ σ t := by
  rintro (up | ⟨c, x, running, live, serves⟩)
  · obtain ⟨_, _, uploading, _⟩ := all.dispatches.uploaded t up
    exact uploading.new (answers.dispatched all)
  · exact answers.not_served all answered live running serves

/-- The result stays until the transaction is deleted. -/
theorem tran_of_effect (sound : Sound ⟨φ, σ⟩) (answered : Answered σ) (new : PicksNew σ₀ e)
    (eff : Effect σ₀ e ⟨φ, σ⟩ ⟨φ', τ⟩) : τ.tran t = some tr ∨ τ.tran t = none := by
  have all : Inv ⟨φ, σ⟩ := sound.all
  have found := answers.found
  have changed : ∀ {key update}, t ≠ key → change σ.tran key update t = some tr :=
    fun different => change_eq_some_iff.mpr ⟨tr, found, by rw [if_neg different]⟩
  have deleted : ∀ {key}, put σ.tran key none t = some tr ∨ put σ.tran key none t = none := by
    intro key
    unfold put
    split
    · exact .inr rfl
    · exact .inl found
  cases eff with
  | submit =>
      refine .inl (put_eq_some_iff.mpr (.inr ⟨?_, found⟩))
      have old := (all.waits.old (.tran t) (Option.isSome_of_eq_some found)).1
      exact (old.trans (Nat.lt_succ_self _)).ne
  | assignUp up =>
      refine .inl (changed ?_)
      rintro rfl
      exact answers.not_active all answered (.inl up)
  | assignWork _ asked picked _ _ _ _ _ _ _ _ _ _ _ _ fresh =>
      refine .inl (changed ?_)
      rintro rfl
      obtain ⟨a, w, given⟩ := answers.dispatched all
      exact new.undispatched asked picked ⟨a, w, fresh a w _ given⟩
  | finish running _ live serves =>
      refine .inl (changed ?_)
      rintro rfl
      exact answers.not_served all answered live running serves
  | setReturn running live serves =>
      rw [State.setReturn_tran]
      refine .inl (changed ?_)
      rintro rfl
      exact answers.not_served all answered live running serves
  | fail _ _ _ _ found' executor =>
      refine .inl (changed ?_)
      rintro rfl
      obtain rfl := Option.some.inj (found.symm.trans found')
      cases answers.free.symm.trans executor
  | replyQueued | replyWaiting | sweep | purge => exact deleted
  | _ => exact .inl found

theorem queued_of_effect (all : Inv ⟨φ, σ⟩) (eff : Effect σ₀ e ⟨φ, σ⟩ ⟨φ', τ⟩)
    (kept : τ.tran t = some tr) : ∃ y, τ.client tr.client = some y ∧ t ∈ y.replies := by
  obtain ⟨x, live, member⟩ := answers.queued
  have changed : ∀ {c update}, τ.client = change σ.client c update →
      (∀ x, t ∈ x.replies → t ∈ (update x).replies) → ∃ y, τ.client tr.client = some y ∧
      t ∈ y.replies := by
    intro c update client same
    rw [client]
    refine ⟨_, change_eq_some_iff.mpr ⟨x, live, rfl⟩, ?_⟩
    split
    · exact same x member
    · exact member
  have deleted : ∀ {ρ : State} {t' tr' y}, ρ.client tr.client = some y → t ∈ y.replies →
      τ.client = (ρ.delTran t' tr').client → t ≠ t' → ∃ y, τ.client tr.client = some y ∧
      t ∈ y.replies := by
    intro ρ t' tr' y live' member' client different
    rw [client]
    refine ⟨_, Option.map_eq_some_iff.mpr ⟨y, live', rfl⟩, ?_⟩
    simp only [State.bereave]
    split
    · exact (List.mem_erase_of_ne different).mpr member'
    · exact member'
  have different : ∀ {t'}, τ.tran = put σ.tran t' none → t ≠ t' := by
    rintro t' tran rfl
    rw [tran] at kept
    cases ((if_pos rfl).symm.trans kept : none = some tr)
  have answered : ∀ {t' tr' contents}, τ = σ.reply t' tr' contents →
      ∃ y, τ.client tr.client = some y ∧ t ∈ y.replies := by
    rintro t' tr' contents rfl
    refine deleted (ρ := ((σ.write tr'.client (replyFrame tr' contents)).nextCommand
      tr'.client).mapClient tr'.client fun x => { x with wait4 := none })
        ((congrFun (change_change _ _ _ _) _).trans (change_eq_some_iff.mpr ⟨x, live, rfl⟩)) ?_ rfl
        (different rfl)
    split <;> exact member
  cases eff with
  | connect =>
      have old : tr.client ≠ σ₀.next := by
        intro same
        rw [same] at live
        cases (all.fresh.client_next all.registry).symm.trans live
      exact ⟨x, change_eq_some_iff.mpr ⟨x, put_eq_some_iff.mpr (.inr ⟨old, live⟩),
        (if_neg old).symm⟩, member⟩
  | fill | begin | next | armHeader | submit | armUpload | armReturn | offer | detach | block
  | finish =>
      exact changed rfl fun _ => id
  | fail => exact changed rfl fun _ => id
  | assignUp | assignWork => exact changed (change_change _ _ _ _) fun _ => id
  | @requeue _ _ _ t' =>
      refine changed rfl fun y member => ?_
      by_cases same : t = t'
      · exact List.mem_append_right _ (List.mem_singleton.mpr same)
      · exact List.mem_append_left _ ((List.mem_erase_of_ne same).mpr member)
  | replyQueued | replyWaiting => exact answered rfl
  | sweep | purge => exact deleted live member rfl (different rfl)
  | dropClient _ _ _ live' _ _ none_ =>
      refine ⟨x, put_none_eq_some_iff.mpr ⟨?_, live⟩, member⟩
      rintro rfl
      obtain rfl := Option.some.inj (live.symm.trans live')
      rw [none_] at member
      cases member
  | _ => exact ⟨x, live, member⟩

theorem effect (sound : Sound ⟨φ, σ⟩) (answered : Answered σ) (new : PicksNew σ₀ e)
    (eff : Effect σ₀ e ⟨φ, σ⟩ ⟨φ', τ⟩) : τ.Answers t tr data ∨ τ.tran t = none ∧ t < τ.next := by
  have all : Inv ⟨φ, σ⟩ := sound.all
  have found := answers.found
  rcases answers.tran_of_effect sound answered new eff with kept | gone
  · refine .inl ⟨kept, answers.free, answers.queued_of_effect all eff kept, ?_,
      fun k y live into => ?_⟩
    · rcases buf_of_effect all eff answers.room with
        same | held | ⟨k, x, _, _, _, live, reads⟩ | ⟨t', tr', found', data', lost⟩
      · exact same
      · exact absurd rfl ((all.buffers.held _ held).1.apart t tr found)
      · exact absurd reads (answers.unread k x live)
      · obtain rfl := all.buffers.apart t' t tr' tr found' found data'
        exact absurd rfl (lost tr kept)
    · rcases input_of_effect eff live into with ⟨x, before, reads⟩ | held | young |
        ⟨t', tr', found', data', active⟩
      · exact answers.unread k x before reads
      · exact (all.buffers.held _ held).1.apart t tr found rfl
      · exact absurd (all.fresh.buf _ _ answers.room) (Nat.not_lt.mpr young)
      · obtain rfl := all.buffers.apart t' t tr' tr found' found data'
        exact answers.not_active all answered active
  · have old : t < σ.next := (all.waits.old (.tran t) (Option.isSome_of_eq_some found)).1
    exact .inr ⟨gone, old.trans_le eff.next_le⟩

end State.Answers

/-- A reply stays as it is until it is deleted. -/
theorem State.Answers.step (answers : σ.Answers t tr data) (reach : Reachable PicksNew σ)
    (new : PicksNew σ e) (done : Switchboard.step σ e = .ok τ) :
    τ.Answers t tr data ∨ τ.tran t = none ∧ t < τ.next := by
  have sound := sound_of_reachable reach
  have along : ∀ {κ}, Trace σ e ⟨{}, σ⟩ κ → Answered κ.state ∧
      (κ.state.Answers t tr data ∨ κ.state.tran t = none ∧ t < κ.state.next) := by
    intro κ trace
    induction trace with
    | refl => exact ⟨answered_of_reachable reach, .inl answers⟩
    | tail sofar eff ih =>
        have sound' := sound.trace sound.parking new sofar
        refine ⟨ih.1.effect sound' new eff, ?_⟩
        rcases ih.2 with answers' | ⟨gone, old⟩
        · exact answers'.effect sound' ih.1 new eff
        · exact .inr (gone_of_trace (.single eff) gone old)
  exact (along (step_trace sound.all done)).2

theorem State.Answers.run {events : List Event} (answers : σ.Answers t tr data)
    (reach : Reachable PicksNew σ) (meets : Meets PicksNew σ events)
    (execution : Switchboard.run σ events = .ok τ) :
    τ.Answers t tr data ∨ τ.tran t = none := by
  induction events generalizing σ with
  | nil =>
      obtain rfl := Except.ok.inj execution
      exact .inl answers
  | cons e events ih =>
      obtain ⟨μ, done, execution⟩ := run_cons_ok_iff.mp execution
      have reach' : Reachable PicksNew μ := .next reach meets.1 done
      rcases answers.step reach meets.1 done with answers' | ⟨gone, old⟩
      · exact ih answers' reach' (meets.2 μ done) execution
      · exact .inr (deleted_of_run (reach'.mono fun _ _ _ => trivial) gone old execution)

/-- The request of the client of `t` is answered with `t`: it asks for any reply and `t` is the
first, or for the descriptor of `t`, which no other reply has. -/
def State.Selects (σ : State) (request : Bytes) (t : TranId) (tr : Transaction) : Prop :=
  ∃ y, σ.client tr.client = some y ∧
    if AsksAny request then y.replies.head? = some t
    else toshort request = tr.cd ∧ ∀ t' ∈ y.replies, ∀ tr', σ.tran t' = some tr' →
    tr'.cd = tr.cd → t' = t

theorem findCd_eq_some {queue : List TranId} (found : σ.tran t = some tr) (member : t ∈ queue)
    (unshared : ∀ t' ∈ queue, ∀ tr', σ.tran t' = some tr' → tr'.cd = tr.cd → t' = t) :
    σ.findCd queue tr.cd = some t := by
  cases search : σ.findCd queue tr.cd with
  | none => exact absurd ⟨tr, found, rfl⟩ (findCd_eq_none_iff.mp search t member)
  | some t' =>
      obtain ⟨member', tr', found', same⟩ := findCd_elim search
      rw [unshared t' member' tr' found' same]

/-- Whoever asks for a reply that waits is sent it. -/
theorem State.Answers.collected {request : Bytes} (answers : σ.Answers t tr data)
    (inv : Inv ⟨{}, σ⟩) (received : Received σ e tr.client .svrgetrply request)
    (selects : σ.Selects request t tr) :
    ∃ τ, Switchboard.step σ e = .ok τ ∧ AnsweredWith σ τ tr.client (replyFrame tr data) ∧
      τ.tran t = none := by
  obtain ⟨x, b, contents, live, into, reading, _, _, _, called⟩ := step_of_received received
  obtain ⟨y, live', member⟩ := answers.queued
  obtain rfl := Option.some.inj (live.symm.trans live')
  let μ := σ.begin tr.client .svrgetrply b request
  have begun : μ.client tr.client = some { x with handler := none, input := none, used := 0 } :=
    change_eq_some_iff.mpr ⟨x, live, (if_pos rfl).symm⟩
  obtain ⟨tr', data', deletable, kept, stored, _, apart, old⟩ :=
    deliverable_of_begin request inv live into reading
      member fun tr' a found executor => by
        obtain rfl := Option.some.inj (answers.found.symm.trans found)
        cases answers.free.symm.trans executor
  obtain rfl := Option.some.inj (answers.found.symm.trans deletable.live)
  obtain rfl := Option.some.inj (answers.room.symm.trans stored)
  have reply : (if tolong (request.drop IOSHORT) &&& TPGETANY = 0 then μ.findCd x.replies
      (toshort request) else x.replies.head?) = some t := by
    obtain ⟨z, live'', chosen⟩ := selects
    obtain rfl := Option.some.inj (live.symm.trans live'')
    by_cases any : AsksAny request
    · rw [if_pos any] at chosen
      exact (if_neg any).trans chosen
    · rw [if_neg any] at chosen
      have one : tolong (request.drop IOSHORT) &&& TPGETANY = 0 := not_not.mp any
      rw [if_pos one, chosen.1]
      exact findCd_eq_some (σ := μ) answers.found member chosen.2
  have sends := svrgetrply_sends (if_pos rfl) begun reply deletable kept begun ⟨rfl, rfl, rfl⟩
  have answered := answeredWith_reply (b := b) (t := t) data begun old
  refine ⟨_, ?_, ⟨answered.sent, answered.reading, answered.once⟩, if_pos rfl⟩
  rw [called]
  exact congrArg (Except.map Prod.snd) sends

/-! ## The end of a return -/

/-- Transaction `t` ends with the result in `tr` and `data`: its client is sent the reply if it
waits for it, and if it has not been sent, the reply waits for the client. -/
structure Concludes (σ τ : State) (t : TranId) (tr : Transaction) (data : Bytes) : Prop where
  waiting : (∃ y, σ.client tr.client = some y ∧ y.Idle ∧ (y.wait4 = some .any ∨
    y.wait4 = some (.tran t))) → Wakes σ τ tr.client (replyFrame tr data)
  rest : τ.tran t = none ∧ τ.sent tr.client = σ.sent tr.client ++ replyFrame tr data ∨
    τ.Answers t { tr with executor := none } data

theorem Finishing.concludes {c : ClientId} {μ : State} (finishing : Finishing σ e c t tr data μ)
    (sound : Sound ⟨{}, σ⟩) (new : PicksNew σ e)
    (elsewhere : ∀ k y, k ≠ c → σ.client k = some y → y.input ≠ some tr.data) (b : BufId) :
    ∃ τ, part2 c b μ = .ok (⟨⟩, τ) ∧ Concludes σ τ t tr data := by
  obtain ⟨x, live, idle, _⟩ := finishing.worker
  let ρ := (μ.nextCommand c).finish c t id
  have old : tr.data < μ.next := (sound.all.trace finishing.trace).fresh.buf _ data finishing.room
  obtain ⟨y, owner, outcome⟩ := finishing.outcome sound new b
  have wakes : ∀ {τ}, part2 c b μ = .ok (⟨⟩, τ) →
      (∃ y, σ.client tr.client = some y ∧ y.Idle ∧ (y.wait4 = some .any ∨
        y.wait4 = some (.tran t))) →
      Wakes σ τ tr.client (replyFrame tr data) := by
    rintro τ done ⟨z, owner', idle', waiting⟩
    have other : tr.client ≠ c := by
      rintro rfl
      obtain ⟨_, received⟩ := finishing.asked
      rcases received with received | received <;>
        obtain ⟨_, x', _, _, _, _, _, live', reading, _⟩ := received_elim received <;>
        obtain rfl := Option.some.inj (owner'.symm.trans live') <;>
        cases idle'.1.symm.trans reading
    obtain ⟨τ', done', wakes⟩ := finishing.wakes sound.all owner' idle' waiting other b
    obtain ⟨_, rfl⟩ := Prod.mk.inj (Except.ok.inj (done.symm.trans done'))
    exact wakes
  rcases outcome with ⟨_, done⟩ | done
  · refine ⟨_, done, wakes done, .inl ⟨if_pos rfl, ?_⟩⟩
    rw [← finishing.sent]
    exact if_pos rfl
  · refine ⟨_, done, wakes done, .inr ⟨finishing.current, rfl, ?_, finishing.stored sound.all, ?_⟩⟩
    · exact ⟨_, change_eq_some_iff.mpr ⟨y, owner, (if_pos rfl).symm⟩, by simp⟩
    · intro k z live' into
      obtain ⟨z₁, live₁, rfl⟩ := change_eq_some_iff.mp live'
      obtain ⟨z₂, live₂, rfl⟩ := change_eq_some_iff.mp live₁
      obtain ⟨z₃, live₃, rfl⟩ := change_eq_some_iff.mp live₂
      by_cases here : k = c
      · subst here
        have next : some μ.next = some tr.data := by
          rw [if_pos rfl, if_pos rfl] at into
          split at into <;> exact into
        exact old.ne' (Option.some.inj next)
      · have live₃ : μ.client k = some z₃ := live₃
        rw [finishing.others k here] at live₃
        refine elsewhere k z₃ here live₃ ?_
        rw [if_neg here, if_neg here] at into
        split at into <;> exact into

namespace State.Executes

variable (executes : σ.Executes w t tr) (sound : Sound ⟨{}, σ⟩)
  (done : Switchboard.step σ e = .ok τ)

include executes sound done

theorem concludes_of_header {header : Bytes} (received : Received σ e w .svrreturn header)
    (empty : returnLength header = 0) : Concludes σ τ t (tr.returned header σ.next) [] := by
  obtain ⟨⟨x, live, serves⟩, found⟩ := executes
  obtain ⟨b, μ, finishing, called⟩ :=
    finishing_of_svrreturn sound.all received live serves found empty
  obtain ⟨τ', done', concludes⟩ :=
    finishing.concludes sound (picksNew_of_received received (by decide))
      (fun _ _ _ live' => sound.all.buffers.unread_next live') b
  rw [called, done'] at done
  obtain rfl := Except.ok.inj done
  exact concludes

/-- After any other header the data is read into the transaction. -/
theorem header {header : Bytes} (received : Received σ e w .svrreturn header)
    (long : 0 < returnLength header) :
    τ.Executes w t (tr.returned header σ.next) ∧ τ.Returning w (tr.returned header σ.next) ∧
      τ.Reading w .part2 (returnLength header).toNat [] ∧ τ.sent w = σ.sent w := by
  obtain ⟨⟨x, live, serves⟩, found⟩ := executes
  obtain ⟨b, old, done', armed, found', reading⟩ :=
    step_header sound.all received live serves found long
  obtain rfl := Except.ok.inj (done'.symm.trans done)
  exact ⟨⟨⟨_, armed, serves⟩, found'⟩, ⟨_, armed, rfl, rfl⟩, reading, rfl⟩

theorem concludes_of_data {filled : Bytes} (apart : Apart σ) (returning : σ.Returning w tr)
    (received : Received σ e w .part2 filled) : Concludes σ τ t tr filled := by
  obtain ⟨⟨x, live, serves⟩, found⟩ := executes
  obtain ⟨y, live', _, into⟩ := returning
  obtain rfl := Option.some.inj (live.symm.trans live')
  obtain ⟨data, b, μ, finishing, called, same⟩ :=
    finishing_of_part2 sound.all received live serves found
  obtain rfl := same into
  obtain ⟨τ', done', concludes⟩ :=
    finishing.concludes sound (picksNew_of_received received (by decide))
      (fun k y other live'' into' => other (apart k w y x tr.data live'' live into' into)) b
  rw [called, done'] at done
  obtain rfl := Except.ok.inj done
  exact concludes

theorem atCommand_of_header {header : Bytes} (received : Received σ e w .svrreturn header)
    (empty : returnLength header = 0) : τ.AtCommand w ∧ τ.sent w = σ.sent w := by
  have new : PicksNew σ e := picksNew_of_received received (by decide)
  obtain ⟨⟨x, live, serves⟩, found⟩ := executes
  obtain ⟨b, μ, finishing, called⟩ :=
    finishing_of_svrreturn sound.all received live serves found empty
  obtain ⟨τ', done', _, ready⟩ := finishing.completes sound new b
  rw [called, done'] at done
  obtain rfl := Except.ok.inj done
  exact ⟨ready, finishing.silent sound new done'⟩

theorem atCommand_of_data {filled : Bytes} (received : Received σ e w .part2 filled) :
    τ.AtCommand w ∧ τ.sent w = σ.sent w := by
  have new : PicksNew σ e := picksNew_of_received received (by decide)
  obtain ⟨⟨x, live, serves⟩, found⟩ := executes
  obtain ⟨data, b, μ, finishing, called, _⟩ :=
    finishing_of_part2 sound.all received live serves found
  obtain ⟨τ', done', _, ready⟩ := finishing.completes sound new b
  rw [called, done'] at done
  obtain rfl := Except.ok.inj done
  exact ⟨ready, finishing.silent sound new done'⟩

end State.Executes

theorem executes_of_command {e : Event} {filled : Bytes} (received : Received σ e w .command filled)
    (kind : filled.getD 0 0 = TPTRETN) (done : step σ e = .ok τ)
    (either : σ.Executes w t tr ∨ σ.Forgets w t) : τ.Executes w t tr ∨ τ.Forgets w t := by
  have known : commands[(filled.getD 0 0).toNat]? = some (.svrreturn, 1 + IOLONG * 2) := by
    rw [kind]
    rfl
  obtain ⟨x, b, live, rfl⟩ := state_of_command received known (by decide) done
  have armed : ((((σ.begin w .command b filled).freeBuf b).allocBuf
      (resize filled (1 + IOLONG * 2))).arm w .svrreturn σ.next).client w =
        some { x with handler := some .svrreturn, input := some σ.next, used := 0 } :=
    change_eq_some_iff.mpr ⟨_, change_eq_some_iff.mpr ⟨x, live, (if_pos rfl).symm⟩,
      (if_pos rfl).symm⟩
  rcases either with ⟨⟨y, live', serves⟩, found⟩ | ⟨⟨y, live', serves⟩, gone, old⟩
  · obtain rfl := Option.some.inj (live.symm.trans live')
    exact .inl ⟨⟨_, armed, serves⟩, found⟩
  · obtain rfl := Option.some.inj (live.symm.trans live')
    exact .inr ⟨⟨_, armed, serves⟩, gone, old.trans (Nat.lt_succ_self _)⟩

/-- The step in which a result becomes complete. -/
theorem State.Reading.returns {header bytes rest : Bytes} {events : List Event}
    (starts : σ.Reading w .command 1 []) (reach : Reachable PicksNew σ)
    (meets : Meets PicksNew σ events) (execution : run σ events = .ok τ)
    (executes : σ.Executes w t tr) (whole : header.length = 1 + IOLONG * 2)
    (length : returnLength header = bytes.length)
    (sends : stream w σ events = TPTRETN :: (header ++ (bytes ++ rest))) :
    ∃ first e tail ρ ρ' b, events = first ++ e :: tail ∧ run σ first = .ok ρ ∧
      Switchboard.step ρ e = .ok ρ' ∧ run ρ' tail = .ok τ ∧ Reachable PicksNew ρ' ∧ Returns ρ e w ∧
      (∃ tr', ρ.tran t = some tr') ∧ Concludes ρ ρ' t (tr.returned header b) bytes ∧
      ρ'.AtCommand w ∧ ρ'.sent w = σ.sent w ∧ stream w ρ' tail = rest := by
  have known : commands[TPTRETN.toNat]? = some (.svrreturn, header.length) := by
    rw [whole]
    rfl
  have nonempty : header ≠ [] := by
    rintro rfl
    cases whole
  obtain ⟨first, e, tail, ρ, ρ', rfl, ran, done, execution', received, left, unsent, either⟩ :=
    starts.message (motive := fun μ => μ.Executes w t tr ∨ μ.Forgets w t) reach meets execution
      known nonempty sends (.inl executes)
      (fun μ e μ' reach new _ reading done cause either => by
        obtain ⟨_, _, _, _, reading⟩ := reading
        exact executes_or_forgets either reach new reading done cause)
      (fun μ e μ' filled _ _ received kind done _ => executes_of_command received kind done)
  have reachρ : Reachable PicksNew ρ := reach.meets meets.take ran
  obtain ⟨new, meets'⟩ : Meets PicksNew ρ (e :: tail) := meets.drop ran
  have reachρ' : Reachable PicksNew ρ' := .next reachρ new done
  have sound := sound_of_reachable reachρ
  have executes' : ρ.Executes w t tr := by
    refine either.resolve_right fun forgets => ?_
    obtain ⟨⟨x, live, serves⟩, gone, _⟩ := forgets
    obtain ⟨t', tr', ⟨y, live', serves'⟩, found⟩ := executes_of_svrreturn received done
    obtain rfl := Option.some.inj (live.symm.trans live')
    rcases serves with serves | serves
    · obtain rfl := Wait.tran.inj (Option.some.inj (serves.symm.trans serves'))
      cases gone.symm.trans found
    · cases serves.symm.trans serves'
  cases bytes with
  | nil =>
      obtain ⟨ready, silent⟩ := executes'.atCommand_of_header sound done received length
      exact ⟨first, e, tail, ρ, ρ', ρ.next, rfl, ran, done, execution', reachρ',
        ⟨header, .inl received⟩, ⟨tr, executes'.2⟩, executes'.concludes_of_header sound done
        received length, ready, silent.trans unsent, left⟩
  | cons byte bytes =>
      have long : 0 < returnLength header := by
        rw [length, List.length_cons]
        omega
      obtain ⟨executing, returning, reading, silent⟩ := executes'.header sound done received long
      obtain ⟨first', e', tail', μ, μ', rfl, ran', done', execution'', received', executing',
          returning', unsent', left'⟩ :=
        return_arrives reachρ' (meets' ρ' done) reading execution'
          (show (byte :: bytes).length = (returnLength header).toNat by rw [length]; rfl) left
          executing returning
      have reachμ : Reachable PicksNew μ := reachρ'.meets (meets' ρ' done).take ran'
      obtain ⟨new', _⟩ : Meets PicksNew μ (e' :: tail') := (meets' ρ' done).drop ran'
      have sound' := sound_of_reachable reachμ
      obtain ⟨ready, silent'⟩ := executing'.atCommand_of_data sound' done' received'
      refine ⟨first ++ e :: first', e', tail', μ, μ', ρ.next, by simp, ?_, done', execution'',
        .next reachμ new' done', ⟨_, .inr received'⟩, ⟨_, executing'.2⟩, ?_, ready, ?_, left'⟩
      · exact run_append_ok_iff.mpr ⟨ρ, ran, run_cons_ok_iff.mpr ⟨ρ', done, ran'⟩⟩
      · exact executing'.concludes_of_data sound' done' (apart_of_reachable reachμ)
          returning' received'
      · exact silent'.trans (unsent'.trans (silent.trans unsent))

end Switchboard
end Xatmi
