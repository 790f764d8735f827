import Xatmi.Switchboard.Survival

/-!
# Buffers that nobody frees

Who frees a buffer. The handlers give back what they are called with, and the data of a transaction
goes with the transaction; but `del_client` does not free what its client was reading into. Whatever
the peers do, the buffers that are lost are those of connections that ended in the middle of a
command or of a fixed part, one for each.
-/

namespace Xatmi
namespace Switchboard

open Program

variable {σ₀ σ τ : State} {e : Event} {φ φ' : Phase} {c : ClientId} {b : BufId}

/-- Buffer `b` is allocated, and no transaction, no connection and no running handler knows of
it. -/
structure Lost (φ : Phase) (σ : State) (b : BufId) : Prop where
  own : σ.Private b
  unread : ∀ c x, σ.client c = some x → x.input ≠ some b
  unheld : φ.held ≠ some b

/-- What is lost stays lost. -/
theorem Lost.effect (lost : Lost φ σ b) (all : Inv ⟨φ, σ⟩) (eff : Effect σ₀ e ⟨φ, σ⟩ ⟨φ', τ⟩) :
    Lost φ' τ b := by
  obtain ⟨contents, room⟩ := lost.own.room
  have old : b < σ.next := all.fresh.buf b contents room
  refine ⟨⟨⟨contents, ?_⟩, ?_⟩, ?_, ?_⟩
  · rcases buf_of_effect all eff room with kept | held | ⟨k, x, _, _, _, live, into⟩ |
      ⟨t, tr, found, data, _⟩
    · exact kept
    · exact absurd held lost.unheld
    · exact absurd into (lost.unread k x live)
    · exact absurd data (lost.own.apart t tr found)
  · rintro t tr found rfl
    obtain ⟨tr', found', _, data | new⟩ | ⟨new, _⟩ := source_of_effect eff found
    · exact lost.own.apart t tr' found' data
    · exact old.ne new
    · exact old.ne new
  · intro k y live into
    rcases input_of_effect eff live into with ⟨x, live', into'⟩ | held | new |
      ⟨t, tr, found, data, _⟩
    · exact lost.unread k x live' into'
    · exact lost.unheld held
    · exact absurd old (Nat.not_lt.mpr new)
    · exact lost.own.apart t tr found data
  · intro held
    cases eff with
    | begin _ live into =>
        simp only [Phase.called] at held
        split at held
        · cases held
        · obtain rfl := Option.some.inj held
          exact lost.unread _ _ live into
    | resize => exact old.ne (Option.some.inj held).symm
    | connect | fill | release | armHeader | close | done => cases held
    | _ => exact lost.unheld held

/-! ## What is known stays known -/

/-- A transaction, a connection or the running handler knows of buffer `b`. -/
def Known (φ : Phase) (σ : State) (b : BufId) : Prop :=
  (∃ t tr, σ.tran t = some tr ∧ tr.data = b) ∨ (∃ c x, σ.client c = some x ∧ x.input = some b) ∨
    φ.held = some b

theorem not_lost_iff {contents : Bytes} (room : σ.buf b = some contents) :
    ¬Lost φ σ b ↔ Known φ σ b := by
  constructor
  · intro found
    by_contra unknown
    simp only [Known, not_or, not_exists, not_and] at unknown
    exact found ⟨⟨⟨contents, room⟩, unknown.1⟩, unknown.2.1, unknown.2.2⟩
  · rintro (⟨t, tr, found, data⟩ | ⟨k, x, live, into⟩ | held) lost
    · exact lost.own.apart t tr found data
    · exact lost.unread k x live into
    · exact lost.unheld held

theorem known_of_alloc (all : Inv ⟨φ, σ⟩) (eff : Effect σ₀ e ⟨φ, σ⟩ ⟨φ', τ⟩) {contents : Bytes}
    (free : σ.buf b = none) (room : τ.buf b = some contents) : Known φ' τ b := by
  have same : ∀ {p : Prop}, σ.buf b = some contents → p := fun room => by cases free.symm.trans room
  have stored : ∀ {key old value}, σ.buf key = some old → put σ.buf key value b = some contents →
      Known φ' τ b := by
    intro key old value live room
    rcases put_eq_some_iff.mp room with ⟨rfl, _⟩ | ⟨_, room⟩
    · cases free.symm.trans live
    · exact same room
  have freed : ∀ {buf : BufId → Option Bytes} {key}, put buf key none b = some contents →
      buf b = some contents :=
    fun room => (put_none_eq_some_iff.mp room).2
  have armed : ∀ {store : ClientId → Option Client} {key x update},
      τ.client = change store key update → store key = some x →
      (∀ y : Client, (update y).input = some b) → Known φ' τ b := by
    intro store key x update client live into
    refine .inr (.inl ⟨key, update x, ?_, into x⟩)
    rw [client]
    exact change_eq_some_iff.mpr ⟨x, live, (if_pos rfl).symm⟩
  cases eff with
  | connect =>
      rcases put_eq_some_iff.mp room with ⟨rfl, _⟩ | ⟨_, room⟩
      · exact armed rfl (if_pos rfl) fun _ => rfl
      · exact same room
  | fill _ _ _ live => exact stored live room
  | begin _ _ _ _ live => exact stored live room
  | release | sweep | purge => exact same (freed room)
  | resize =>
      rcases put_eq_some_iff.mp room with ⟨rfl, _⟩ | ⟨_, room⟩
      · exact .inr (.inr rfl)
      · exact same (freed room)
  | next _ live =>
      rcases put_eq_some_iff.mp room with ⟨rfl, _⟩ | ⟨_, room⟩
      · exact armed rfl live fun _ => rfl
      · exact same room
  | submit _ _ _ _ _ _ data =>
      rcases put_eq_some_iff.mp room with ⟨rfl, _⟩ | ⟨_, room⟩
      · exact .inl ⟨_, _, if_pos rfl, data⟩
      · exact same room
  | assignUp _ _ _ _ _ _ _ worker | assignWork _ _ _ _ _ _ _ _ _ worker =>
      rcases put_eq_some_iff.mp room with ⟨rfl, _⟩ | ⟨_, room⟩
      · exact armed (change_change _ _ _ _) worker fun _ => rfl
      · exact same room
  | replyQueued _ _ _ _ owner | replyWaiting _ owner =>
      rcases put_eq_some_iff.mp (freed room) with ⟨rfl, _⟩ | ⟨_, room⟩
      · refine .inr (.inl ⟨_, _, Option.map_eq_some_iff.mpr ⟨_, change_eq_some_iff.mpr ⟨_,
          change_eq_some_iff.mpr ⟨_, owner, rfl⟩, rfl⟩, rfl⟩, ?_⟩)
        simp [State.bereave]
      · exact same room
  | @setReturn _ _ _ _ t tr _ _ rval rcode _ _ _ found =>
      rcases put_eq_some_iff.mp room with ⟨rfl, _⟩ | ⟨_, room⟩
      · refine .inl ⟨t, { tr with rval, rcode, data := σ.next }, ?_, rfl⟩
        rw [State.setReturn_tran]
        exact change_eq_some_iff.mpr ⟨tr, found, (if_pos rfl).symm⟩
      · exact same (freed room)
  | _ => exact same room

theorem known_of_input (all : Inv ⟨φ, σ⟩) (lent : Lent φ σ) (eff : Effect σ₀ e ⟨φ, σ⟩ ⟨φ', τ⟩)
    {x : Client} (live : σ.client c = some x) (into : x.input = some b) :
    Known φ' τ b ∨ φ.closing = some c := by
  have changed : ∀ {key update}, τ.client = change σ.client key update →
      (c = key → (update x).input = some b) → Known φ' τ b := by
    intro key update client same
    refine .inr (.inl ⟨c, if c = key then update x else x, ?_, ?_⟩)
    · rw [client]
      exact change_eq_some_iff.mpr ⟨x, live, rfl⟩
    · split
      · exact same ‹_›
      · exact into
  have busy : ∀ {k y}, σ.client k = some y → y.Idle → ∀ {p : Prop}, c = k → p := by
    rintro _ y live' idle p rfl
    obtain rfl := Option.some.inj (live.symm.trans live')
    cases idle.2.1.symm.trans into
  cases eff with
  | connect =>
      refine .inl (.inr (.inl ⟨c, x, change_eq_some_iff.mpr
        ⟨x, put_eq_some_iff.mpr (.inr ⟨?_, live⟩), ?_⟩, into⟩))
      · rintro rfl
        cases (all.fresh.client_next all.registry).symm.trans live
      · refine (if_neg ?_).symm
        rintro rfl
        cases (all.fresh.client_next all.registry).symm.trans live
  | @begin _ k y handler b' _ _ _ live' into' reading room =>
      by_cases mine : c = k
      · subst mine
        obtain rfl := Option.some.inj (live.symm.trans live')
        obtain rfl := Option.some.inj (into.symm.trans into')
        cases owns : handler.ownsData with
        | false => exact .inl (.inr (.inr (by simp [Phase.called, owns])))
        | true =>
            have returned : x.handler = some .part2 → ∃ t tr, σ.Borrows c x t tr := by
              intro returns
              rcases lent.returns c x b live returns into (by simp) with gone |
                ⟨t, tr, found, data, serves⟩
              · cases gone.symm.trans room
              · exact ⟨t, tr, found, data ▸ into, .inr ⟨returns, serves⟩⟩
            rcases reads_or_borrows all live (by simp) into returned with
              ⟨_, handler', reading', fixed⟩ | ⟨t, tr, borrows⟩
            · obtain rfl := Option.some.inj (reading.symm.trans reading')
              cases owns.symm.trans fixed
            · exact .inl (.inl ⟨t, tr, borrows.found,
                Option.some.inj (borrows.into.symm.trans into)⟩)
      · exact .inl (changed rfl fun same => absurd same mine)
  | fill | submit | block | finish | requeue | offer | detach =>
      exact .inl (changed rfl fun _ => into)
  | fail => exact .inl (changed rfl fun _ => into)
  | armHeader _ _ live' idle => exact .inl (changed rfl (busy live' idle))
  | next _ live' idle => exact .inl (changed rfl (busy live' idle))
  | armUpload _ _ live' idle => exact .inl (changed rfl (busy live' idle))
  | armReturn _ live' idle => exact .inl (changed rfl (busy live' idle))
  | assignUp _ _ _ _ _ _ _ worker idle =>
      exact .inl (changed (change_change _ _ _ _) (busy worker idle))
  | assignWork _ _ _ _ _ _ _ _ _ worker idle =>
      exact .inl (changed (change_change _ _ _ _) (busy worker idle))
  | replyQueued _ _ _ _ owner idle | replyWaiting _ owner idle =>
      refine .inl (.inr (.inl ⟨c, _, Option.map_eq_some_iff.mpr ⟨_, change_eq_some_iff.mpr ⟨_,
        change_eq_some_iff.mpr ⟨x, live, rfl⟩, rfl⟩, rfl⟩, ?_⟩))
      simp only [State.bereave]
      split
      · exact busy owner idle ‹_›
      · exact into
  | sweep | purge =>
      exact .inl (.inr (.inl ⟨c, _, Option.map_eq_some_iff.mpr ⟨x, live, rfl⟩, into⟩))
  | @dropClient _ _ k _ closing =>
      by_cases mine : c = k
      · exact .inr (mine ▸ closing)
      · exact .inl (.inr (.inl ⟨c, x, put_none_eq_some_iff.mpr ⟨mine, live⟩, into⟩))
  | _ => exact .inl (.inr (.inl ⟨c, x, live, into⟩))

theorem lost_of_effect (all : Inv ⟨φ, σ⟩) (lent : Lent φ σ) (eff : Effect σ₀ e ⟨φ, σ⟩ ⟨φ', τ⟩)
    (lost : Lost φ' τ b) :
    Lost φ σ b ∨ ∃ c x, φ.closing = some c ∧ σ.client c = some x ∧ x.input = some b := by
  obtain ⟨contents, room⟩ := lost.own.room
  have unknown : ¬Known φ' τ b := fun known => (not_lost_iff room).mpr known lost
  cases before : σ.buf b with
  | none => exact absurd (known_of_alloc all eff before room) unknown
  | some old =>
      by_contra kept
      rw [not_or, not_lost_iff before] at kept
      obtain ⟨⟨t, tr, found, rfl⟩ | ⟨k, x, live, into⟩ | held, alone⟩ := kept
      · rcases data_of_effect all eff found with ⟨tr', found', data⟩ | gone
        · exact unknown (.inl ⟨t, tr', found', data⟩)
        · cases gone.symm.trans room
      · rcases known_of_input all lent eff live into with known | closing
        · exact unknown known
        · exact alone ⟨k, x, closing, live, into⟩
      · cases eff with
        | connect | fill | begin => cases held
        | release held' =>
            obtain rfl := Option.some.inj (held.symm.trans held')
            exact (put_none_eq_some_iff.mp room).1 rfl
        | resize held' =>
            obtain rfl := Option.some.inj (held.symm.trans held')
            have new : b = σ.next :=
              ((put_eq_some_iff.mp room).resolve_right fun kept =>
                (put_none_eq_some_iff.mp kept.2).1 rfl).1
            exact (all.fresh.buf b old before).ne new
        | armHeader _ held' live =>
            obtain rfl := Option.some.inj (held.symm.trans held')
            exact unknown (.inr (.inl ⟨_, _,
              change_eq_some_iff.mpr ⟨_, live, rfl⟩, by rw [if_pos rfl]⟩))
        | close _ quiet => rcases quiet with rfl | rfl <;> cases held
        | done quiet => rcases quiet with rfl | ⟨_, rfl⟩ | ⟨_, rfl⟩ <;> cases held
        | _ => exact unknown (.inr (.inr held))

theorem lost_iff_of_trace {κ : Conf} (start : Inv ⟨{}, σ₀⟩) (lent : Lent {} σ₀)
    (stays : ∀ c, ¬Closes σ₀ e c) (trace : Trace σ₀ e ⟨{}, σ₀⟩ κ) :
    Lost κ.phase κ.state b ↔ Lost {} σ₀ b := by
  induction trace with
  | refl => rfl
  | tail sofar eff ih =>
      rw [← ih]
      refine ⟨fun lost => ?_, fun lost => lost.effect (start.trace sofar) eff⟩
      rcases lost_of_effect (start.trace sofar) (lent.trace start sofar) eff lost with before |
        ⟨c, _, closing, _⟩
      · exact before
      · exact absurd (closes_of_trace sofar closing) (stays c)

/-! ## Deleting a client -/

theorem input_of_closing (all : Inv ⟨φ, σ⟩) (closing : φ.closing = some c) {x : Client}
    (live : σ.client c = some x) (free : φ.fin ≠ none → x.wait4 = none)
    (eff : Effect σ₀ e ⟨φ, σ⟩ ⟨φ', τ⟩) :
    τ.client c = none ∨ φ'.closing = some c ∧
      ∃ y, τ.client c = some y ∧ y.intake = x.intake ∧ (φ'.fin ≠ none → y.wait4 = none) := by
  obtain ⟨stopped, noUp, noHeld, unparked⟩ := all.phases.closing c closing
  have changed : ∀ {key update}, τ.client = change σ.client key update →
      (∀ z : Client, (update z).intake = z.intake) → ∃ y, τ.client c = some y ∧
      y.intake = x.intake := by
    intro key update client same
    rw [client]
    refine ⟨_, change_eq_some_iff.mpr ⟨x, live, rfl⟩, ?_⟩
    split
    · exact same x
    · rfl
  cases eff with
  | connect | fill | begin => cases closing
  | close _ quiet => rcases quiet with rfl | rfl <;> cases closing
  | done quiet => rcases quiet with rfl | ⟨_, rfl⟩ | ⟨_, rfl⟩ <;> cases closing
  | call run | armHeader run | next run | submit run | armUpload run | assignWork run
  | rest run | block run | replyQueued run | setReturn run | armReturn run | finish run
  | found run | offer run =>
      cases stopped.symm.trans run
  | write _ run => cases stopped.symm.trans run
  | enqueue up | assignUp up => cases noUp.symm.trans up
  | release held | resize held => cases noHeld.symm.trans held
  | park parked => cases unparked.symm.trans parked
  | @replyWaiting _ _ z t tr _ fin live' _ waits =>
      have other : c ≠ tr.client := by
        rintro rfl
        obtain rfl := Option.some.inj (live.symm.trans live')
        rcases waits with own | ⟨open_, _⟩
        · cases (free (by simp [fin])).symm.trans own
        · cases open_.symm.trans closing
      refine .inr ⟨closing, _, Option.map_eq_some_iff.mpr ⟨x, ?_, rfl⟩, rfl,
        fun fin => absurd rfl fin⟩
      exact (if_neg other).trans ((if_neg other).trans live)
  | requeue =>
      obtain ⟨y, live', same⟩ := changed rfl fun _ => rfl
      exact .inr ⟨closing, y, live', same, fun fin => absurd rfl fin⟩
  | fail closing' =>
      obtain rfl := Option.some.inj (closing'.symm.trans closing)
      refine .inr ⟨closing, _, change_eq_some_iff.mpr ⟨x, live, rfl⟩, ?_, fun _ => ?_⟩
      · rw [if_pos rfl]
        rfl
      · rw [if_pos rfl]
  | detach _ _ _ _ _ _ _ noFin =>
      obtain ⟨y, live', same⟩ := changed rfl fun _ => rfl
      exact .inr ⟨closing, y, live', same, fun fin => absurd noFin fin⟩
  | sweep | purge =>
      refine .inr ⟨closing, _, Option.map_eq_some_iff.mpr ⟨x, live, rfl⟩, rfl, fun fin => ?_⟩
      simp only [State.bereave, free fin]
      split <;> rfl
  | dropClient closing' =>
      obtain rfl := Option.some.inj (closing'.symm.trans closing)
      exact .inl (if_pos rfl)
  | _ => exact .inr ⟨closing, x, live, rfl, free⟩

theorem absent_of_effect (all : Inv ⟨φ, σ⟩) (ready : e.happening ≠ .connect)
    (eff : Effect σ₀ e ⟨φ, σ⟩ ⟨φ', τ⟩) (gone : σ.client c = none) : τ.client c = none := by
  refine Option.eq_none_iff_forall_ne_some.mpr fun y live => ?_
  have connected : c ∈ τ.clients := ((all.effect eff).registry.mem_clients c).mpr ⟨y, live⟩
  have before : c ∈ σ.clients := by
    cases eff with
    | connect source => exact absurd source ready
    | dropClient => exact List.mem_of_mem_erase connected
    | _ => exact connected
  obtain ⟨x, live'⟩ := (all.registry.mem_clients c).mp before
  cases gone.symm.trans live'

theorem lost_iff_of_closing {κ : Conf} {x : Client} (start : Inv ⟨{ closing := some c }, σ⟩)
    (lent : Lent { closing := some c } σ) (live : σ.client c = some x)
    (ready : e.happening ≠ .connect) (trace : Trace σ₀ e ⟨{ closing := some c }, σ⟩ κ) :
    κ.state.client c = none ∨ κ.phase.closing = some c ∧
      (∃ y, κ.state.client c = some y ∧ y.intake = x.intake ∧
      (κ.phase.fin ≠ none → y.wait4 = none)) ∧ Lent κ.phase κ.state ∧ (Lost κ.phase κ.state b ↔
      Lost { closing := some c } σ b) := by
  induction trace with
  | refl => exact .inr ⟨rfl, ⟨x, live, rfl, fun fin => absurd rfl fin⟩, lent, Iff.rfl⟩
  | @tail κ κ' sofar eff ih =>
      have all : Inv κ := start.trace sofar
      rcases ih with gone | ⟨closing, ⟨y, live', same, free⟩, lent', before⟩
      · exact .inl (absent_of_effect all ready eff gone)
      · rcases input_of_closing all closing live' free eff with gone |
          ⟨closing', z, live'', same', free'⟩
        · exact .inl gone
        · refine .inr ⟨closing', ⟨z, live'', same'.trans same, free'⟩, lent'.effect all eff, ?_⟩
          rw [← before]
          refine ⟨fun lost => ?_, fun lost => lost.effect all eff⟩
          rcases lost_of_effect all lent' eff lost with kept | ⟨k, w, closing'', reader, into⟩
          · exact kept
          · obtain rfl := Option.some.inj (closing.symm.trans closing'')
            obtain rfl := Option.some.inj (live'.symm.trans reader)
            simp only [Client.intake, Prod.mk.injEq] at same'
            exact absurd (same'.2.1.trans into) (lost.unread c z live'')

theorem data_of_trace {κ κ' : Conf} {t : TranId} (all : Inv κ) (trace : Trace σ₀ e κ κ')
    (old : b < κ.state.next)
    (known : (∃ tr, κ.state.tran t = some tr ∧ tr.data = b) ∨ κ.state.buf b = none) :
    (∃ tr, κ'.state.tran t = some tr ∧ tr.data = b) ∨ κ'.state.buf b = none := by
  have later : ∀ {κ'}, Trace σ₀ e κ κ' → b < κ'.state.next := by
    intro κ' trace
    induction trace with
    | refl => exact old
    | tail _ eff ih => exact ih.trans_le eff.next_le
  induction trace with
  | refl => exact known
  | tail sofar eff ih =>
      rcases ih with ⟨tr, found, rfl⟩ | freed
      · exact (data_of_effect (all.trace sofar) eff found).imp_left fun ⟨tr', found', same⟩ =>
          ⟨tr', found', same⟩
      · exact .inr (freed_of_effect eff freed (later sofar))

theorem lost_iff_of_delClient {μ : State} {u : PUnit} {x : Client} (inv : Inv ⟨φ, μ⟩)
    (lent : Lent φ μ) (closes : Closes σ e c) (quiet : φ = {} ∨ φ = { run := some c })
    (live : μ.client c = some x) (same : SameTables σ μ) (done : delClient e.env c μ = .ok (u, τ)) :
    Lost {} τ b ↔ Lost φ μ b ∨ x.Reads b := by
  have ready : e.happening ≠ .connect := by
    obtain ⟨input, source⟩ := closes.source
    simp [source]
  have closed : Effect σ e ⟨φ, μ⟩ ⟨{ closing := some c }, μ⟩ := .close closes quiet live
  obtain ⟨ρ, y, trace, last, withdrawn, noRequests, noReplies, rfl⟩ :=
    delClient_ends inv closes quiet live same done
  have all := inv.effect closed
  obtain gone | ⟨_, ⟨z, live', intake, _⟩, lent', before⟩ :=
    lost_iff_of_closing (b := b) all (lent.effect inv closed) live ready trace
  · cases gone.symm.trans last
  obtain rfl := Option.some.inj (last.symm.trans live')
  simp only [Client.intake, Prod.mk.injEq] at intake
  have unheld : φ.held = none := by rcases quiet with rfl | rfl <;> rfl
  have here : Lost { closing := some c } μ b ↔ Lost φ μ b :=
    ⟨fun lost => ⟨lost.own, lost.unread, by simp [unheld]⟩,
      fun lost => ⟨lost.own, lost.unread, by simp⟩⟩
  have dropped : Effect σ e ⟨{ closing := some c, settled := true }, ρ⟩ ⟨{}, ρ.dropClient c⟩ :=
    .dropClient rfl rfl rfl last withdrawn noRequests noReplies
  rw [← here, ← before]
  constructor
  · intro lost
    rcases lost_of_effect (all.trace trace) lent' dropped lost with kept |
      ⟨k, z, closing, reader, into⟩
    · exact .inl kept
    · obtain rfl := Option.some.inj closing
      obtain rfl := Option.some.inj (last.symm.trans reader)
      have into' : x.input = some b := intake.2.1.symm.trans into
      have stays : φ.closing ≠ some c := by rcases quiet with rfl | rfl <;> simp
      have kept : ∀ {t}, (∃ tr, μ.tran t = some tr ∧ tr.data = b) ∨ μ.buf b = none → False := by
        intro t known
        rcases data_of_trace all trace (inv.buffers.old c x b live into') known with
          ⟨tr, found, data⟩ | freed
        · exact lost.own.apart t tr found data
        · obtain ⟨contents, room⟩ := lost.own.room
          cases freed.symm.trans room
      cases reading : x.handler with
      | none => cases ((inv.readers c x live).idle reading).2.1.symm.trans into'
      | some handler =>
          cases owns : handler.ownsData with
          | false => exact .inr ⟨into', handler, reading, owns⟩
          | true =>
              cases handler with
              | sendToWorker =>
                  obtain ⟨t, tr, uploading, _, data⟩ := inv.dispatches.upload c x live reading stays
                  exact (kept (.inl ⟨tr, uploading.found,
                    Option.some.inj (data.symm.trans into')⟩)).elim
              | part2 =>
                  rcases lent.returns c x b live reading into' stays with freed |
                    ⟨t, tr, found, data, _⟩
                  · exact (kept (t := 0) (.inr freed)).elim
                  · exact (kept (.inl ⟨tr, found, data⟩)).elim
              | _ => cases owns
  · rintro (lost | ⟨into, handler, reading, fixed⟩)
    · exact lost.effect (all.trace trace) dropped
    · have reads : y.Reads b := ⟨intake.2.1.trans into, handler, intake.1.trans reading, fixed⟩
      obtain ⟨own, only⟩ := (all.trace trace).buffers.reading c y b last reads
      refine ⟨⟨own.room, own.apart⟩, fun k z reader into => ?_, by simp⟩
      obtain ⟨other, reader⟩ := put_none_eq_some_iff.mp reader
      exact other (only k z reader into)

/-! ## Steps -/

theorem dropped_iff : dropped σ e c = true ↔ ∃ input x, e.happening = .ready c input ∧
    c ∈ σ.clients ∧ σ.client c = some x ∧ (x.handler = none ∨ x.input = none ∨
      (∃ b contents, x.input = some b ∧ σ.buf b = some contents ∧ contents.length ≤ x.used) ∨
      input = none ∨ input = some []) := by
  unfold dropped
  cases source : e.happening with
  | connect => simp
  | ready k input =>
      cases live : σ.client c with
      | none => simp
      | some x =>
          cases into : x.input with
          | none => simp [into]
          | some b =>
              simp [into, Option.any_eq_true]
              grind

/-- The buffer of a connection that the event ends in the middle of a command or of a fixed part. -/
def abandons (σ : State) (e : Event) : Option BufId :=
  match e.happening with
  | .connect => none
  | .ready c _ => do
      let x ← σ.client c
      if dropped σ e c ∧ x.handler.any fun handler => !handler.ownsData then x.input else none

theorem abandons_eq_some_iff : abandons σ e = some b ↔
    ∃ c x, dropped σ e c = true ∧ σ.client c = some x ∧ x.Reads b := by
  have test : ∀ x : Client, (x.handler.any fun handler => !handler.ownsData) = true ↔
      ∃ handler, x.handler = some handler ∧ handler.ownsData = false := by
    simp [Option.any_eq_true]
  unfold abandons
  cases source : e.happening with
  | connect => simp [dropped, source]
  | ready k input =>
      simp only [Option.bind_eq_bind, Option.bind_eq_some_iff]
      constructor
      · rintro ⟨x, live, into⟩
        split at into
        · rename_i passed
          exact ⟨k, x, passed.1, live, into, (test x).mp passed.2⟩
        · cases into
      · rintro ⟨c, x, ended, live, into, reading⟩
        obtain ⟨_, _, source', _⟩ := dropped_iff.mp ended
        obtain ⟨rfl, _⟩ := Happening.ready.inj (source.symm.trans source')
        exact ⟨x, live, by rw [if_pos ⟨ended, (test x).mpr reading⟩, into]⟩

theorem not_dropped_of_received {k : ClientId} {handler : Handler} {filled : Bytes}
    (received : Received σ e k handler filled) : dropped σ e c = false := by
  refine Bool.eq_false_iff.mpr fun ended => ?_
  obtain ⟨input, x, source, _, live, reason⟩ := dropped_iff.mp ended
  obtain ⟨input', y, b, contents, piece, source', _, live', reading, into, room, got, nonempty,
      full, _⟩ :=
    received_elim received
  obtain ⟨rfl, rfl⟩ := Happening.ready.inj (source.symm.trans source')
  obtain rfl := Option.some.inj (live.symm.trans live')
  rcases reason with idle | idle | ⟨b', contents', into', room', filled'⟩ | rfl | rfl
  · cases idle.symm.trans reading
  · cases idle.symm.trans into
  · obtain rfl := Option.some.inj (into.symm.trans into')
    obtain rfl := Option.some.inj (room.symm.trans room')
    have positive := List.length_pos_iff.mpr nonempty
    omega
  · cases got
  · simp only [Option.map_some, List.take_nil, Option.some.injEq] at got
    exact nonempty got.symm

theorem lost_iff_of_step (reach : Reachable anyStep σ) (done : step σ e = .ok τ) :
    Lost {} τ b ↔ Lost {} σ b ∨ abandons σ e = some b := by
  have inv := inv_of_reachable reach
  have lent := lent_of_reachable reach
  rw [abandons_eq_some_iff]
  by_cases closes : ∃ c, Closes σ e c
  · obtain ⟨c, ⟨input, x, source, connected, live, reason⟩ | ⟨filled, received, unknown⟩⟩ := closes
    · have closes : Closes σ e c := .inl ⟨input, x, source, connected, live, reason⟩
      have ended : dropped σ e c = true :=
        dropped_iff.mpr ⟨input, x, source, connected, live, reason⟩
      obtain ⟨u, deleted⟩ := delClient_of_ended source connected live reason done
      rw [lost_iff_of_delClient inv lent closes (.inl rfl) live (.refl σ) deleted]
      refine or_congr Iff.rfl ⟨fun reads => ⟨c, x, ended, live, reads⟩, ?_⟩
      rintro ⟨k, y, ended', live', reads⟩
      obtain ⟨_, _, source', _⟩ := dropped_iff.mp ended'
      obtain ⟨rfl, _⟩ := Happening.ready.inj (source.symm.trans source')
      obtain rfl := Option.some.inj (live.symm.trans live')
      exact reads
    · have closes : Closes σ e c := .inr ⟨filled, received, unknown⟩
      obtain ⟨x, b', contents, live, into, reading, room, length, nonempty, _⟩ :=
        step_of_received received
      obtain ⟨u, y, b'', live', into', deleted⟩ := delClient_of_unknown received unknown done
      obtain rfl := Option.some.inj (live.symm.trans live')
      obtain rfl := Option.some.inj (into.symm.trans into')
      have begins : Effect σ e ⟨{}, σ⟩ ⟨.called c x .command b', σ.begin c .command b' filled⟩ :=
        .begin received live into reading room length nonempty
      have frees : Effect σ e ⟨.called c x .command b', σ.begin c .command b' filled⟩
          ⟨{ run := some c }, (σ.begin c .command b' filled).freeBuf b'⟩ :=
          .release rfl (if_pos rfl)
      have inv' := inv.effect begins
      have lent' := lent.effect inv begins
      have idle : ((σ.begin c .command b' filled).freeBuf b').client c =
          some { x with handler := none, input := none, used := 0 } :=
        change_eq_some_iff.mpr ⟨x, live, (if_pos rfl).symm⟩
      rw [lost_iff_of_delClient (inv'.effect frees) (lent'.effect inv' frees) closes (.inr rfl) idle
        ((sameTables_begin c .command b' filled).freeBuf b') deleted]
      have same : Lost { run := some c } ((σ.begin c .command b' filled).freeBuf b') b ↔
        Lost {} σ b := by
        refine ⟨fun lost => ?_, fun lost => (lost.effect inv begins).effect inv' frees⟩
        rcases lost_of_effect inv' lent' frees lost with held | ⟨_, _, closing, _⟩
        · rcases lost_of_effect inv lent begins held with before | ⟨_, _, closing, _⟩
          · exact before
          · cases closing
        · cases closing
      rw [same]
      refine or_congr Iff.rfl ⟨fun reads => ?_, ?_⟩
      · cases reads.1
      · rintro ⟨k, y, ended, _⟩
        cases ended.symm.trans (not_dropped_of_received received)
  · rw [lost_iff_of_trace inv lent (not_exists.mp closes) (step_trace inv done)]
    refine ⟨.inl, fun either => either.resolve_right ?_⟩
    rintro ⟨c, x, ended, _⟩
    exact closes ⟨c, .inl (dropped_iff.mp ended)⟩

/-! ## Runs -/

/-- The buffers abandoned in the course of a run. -/
def abandoned (σ : State) : List Event → List BufId
  | [] => []
  | e :: events =>
      (abandons σ e).toList ++ ((step σ e).toOption.elim [] fun τ => abandoned τ events)

theorem abandoned_cons {events : List Event} (first : step σ e = .ok τ) :
    abandoned σ (e :: events) = (abandons σ e).toList ++ abandoned τ events := by
  rw [abandoned, first]
  rfl

theorem lost_iff_of_run {events : List Event} (reach : Reachable anyStep σ)
    (execution : run σ events = .ok τ) :
    Lost {} τ b ↔ Lost {} σ b ∨ b ∈ abandoned σ events := by
  induction events generalizing σ with
  | nil =>
      obtain rfl : σ = τ := Except.ok.inj execution
      simp [abandoned]
  | cons e events ih =>
      obtain ⟨μ, first, rest⟩ := run_cons_ok_iff.mp execution
      rw [ih (reach.next trivial first) rest, lost_iff_of_step reach first, abandoned_cons first]
      simp [or_assoc]

theorem not_lost_of_abandoned {events : List Event} (reach : Reachable anyStep σ)
    (execution : run σ events = .ok τ) (later : b ∈ abandoned σ events) : ¬Lost {} σ b := by
  induction events generalizing σ with
  | nil => cases later
  | cons e events ih =>
      intro lost
      obtain ⟨μ, first, rest⟩ := run_cons_ok_iff.mp execution
      rw [abandoned_cons first, List.mem_append, Option.mem_toList] at later
      rcases later with now | later
      · obtain ⟨c, x, _, live, reads⟩ := abandons_eq_some_iff.mp now
        exact lost.unread c x live reads.1
      · exact ih (reach.next trivial first) rest later ((lost_iff_of_step reach first).mpr
          (.inl lost))

theorem abandoned_nodup {events : List Event} (reach : Reachable anyStep σ)
    (execution : run σ events = .ok τ) :
    (abandoned σ events).Nodup := by
  induction events generalizing σ with
  | nil => exact List.nodup_nil
  | cons e events ih =>
      obtain ⟨μ, first, rest⟩ := run_cons_ok_iff.mp execution
      have reach' := reach.next trivial first
      rw [abandoned_cons first, List.nodup_append]
      refine ⟨by cases abandons σ e <;> simp, ih reach' rest, ?_⟩
      rintro b now _ later rfl
      exact not_lost_of_abandoned reach' rest later
        ((lost_iff_of_step reach first).mpr (.inr (Option.mem_toList.mp now)))

/-- After any run the buffers that nobody knows of are those of the connections that ended in the
middle of a command or of a fixed part, one for each; and once all connections have ended, they are
all that is left. -/
theorem leaks_accounted {events : List Event} (execution : run .start events = .ok σ) :
    (∀ b, Lost {} σ b ↔ b ∈ abandoned .start events) ∧ (abandoned .start events).Nodup ∧
      (σ.clients = [] → σ.services = [] ∧ σ.transactions = [] ∧ (∀ a, σ.advert a = none) ∧
        ∀ b, (∃ contents, σ.buf b = some contents) ↔ b ∈ abandoned .start events) := by
  have reach : Reachable anyStep σ := Reachable.start.run execution
  have inv := inv_of_reachable reach
  have nothing : ∀ b, ¬Lost {} .start b := by
    rintro b ⟨⟨⟨contents, room⟩, _⟩, _⟩
    cases room
  have lost : ∀ b, Lost {} σ b ↔ b ∈ abandoned .start events := by
    intro b
    rw [lost_iff_of_run .start execution]
    exact or_iff_right (nothing b)
  refine ⟨lost, abandoned_nodup .start execution, fun deserted => ?_⟩
  obtain ⟨nobody, unadvertised, finished⟩ := inv.deserted deserted
  refine ⟨?_, ?_, unadvertised, fun b => ?_⟩
  · refine List.eq_nil_iff_forall_not_mem.mpr fun s member => ?_
    obtain ⟨svc, service⟩ := (inv.registry.mem_services s).mp member
    obtain ⟨a, v, advert, _⟩ := advertised_of_reachable reach s svc service (by simp) (by simp)
    cases (unadvertised a).symm.trans advert
  · refine List.eq_nil_iff_forall_not_mem.mpr fun t member => ?_
    obtain ⟨tr, found⟩ := (inv.own.mem_transactions t).mp member
    cases (finished t).symm.trans found
  · rw [← lost]
    refine ⟨fun room => ⟨⟨room, fun t tr found => ?_⟩, fun c x live => ?_, by simp⟩,
      fun lost => lost.own.room⟩
    · cases (finished t).symm.trans found
    · cases (nobody c).symm.trans live

open Scenario in
/-- Client 2 has its request carried out and goes away in the middle of the next; worker 0 goes away
while it waits for work. The buffer that client 2 was sending into is left. -/
theorem leaks_accounted_one :
    ∃ σ, run .start ([connect, connect] ++ advertise 0 65 ++ call 2 65 0 9 ++ work 0 ++
      giveBack 0 2 0 ++ getrply 2 9 0 ++ [receive 2 [TPTCALL] 0, hangUp 2] ++ work 0 ++
      [hangUp 0]) = .ok σ ∧
    σ.clients = [] ∧ ∀ b, (∃ contents, σ.buf b = some contents) ↔ b = 19 := by
  obtain ⟨σ, execution, _, deserted⟩ := reachable_of_outcome
    ([connect, connect] ++ advertise 0 65 ++ call 2 65 0 9 ++ work 0 ++
      giveBack 0 2 0 ++ getrply 2 9 0 ++ [receive 2 [TPTCALL] 0, hangUp 2] ++ work 0 ++ [hangUp 0])
    (fun σ => σ.clients) [] (by decide +kernel)
  obtain ⟨_, _, left⟩ := leaks_accounted execution
  refine ⟨σ, execution, deserted, fun b => ((left deserted).2.2.2 b).trans ?_⟩
  rw [show abandoned .start _ = [19] by decide +kernel, List.mem_singleton]

end Switchboard
end Xatmi
