import Xatmi.Switchboard.Answers
import Xatmi.Switchboard.Origin
import Xatmi.Switchboard.Withdrawal

/-!
# From a request to its dispatch

A transaction whose data is complete stays as it is until it is dispatched for the first time or
deleted, and that dispatch sends the worker what the client has sent.
-/

namespace Xatmi
namespace Switchboard

variable {σ₀ : State} {e : Event} {φ φ' : Phase} {σ τ : State} {t : TranId} {tr : Transaction}
  {data : Bytes}

/-! ## Effects -/

/-- Transaction `t` is being uploaded, or its worker runs. -/
def Active (φ : Phase) (σ : State) (t : TranId) : Prop :=
  φ.up = some t ∨ ∃ c x, φ.run = some c ∧ σ.client c = some x ∧ x.wait4 = some (.tran t)

/-- A client reads into the buffer it was reading into, into a new one, into the handler's, or into
the data of a transaction that is being uploaded or returned. -/
theorem input_of_effect (eff : Effect σ₀ e ⟨φ, σ⟩ ⟨φ', τ⟩) {k : ClientId} {y : Client}
    {b : BufId} (live : τ.client k = some y) (into : y.input = some b) :
    (∃ x, σ.client k = some x ∧ x.input = some b) ∨ φ.held = some b ∨ σ.next ≤ b ∨
      ∃ t tr, σ.tran t = some tr ∧ tr.data = b ∧ Active φ σ t := by
  have changed : ∀ {key update}, change σ.client key update k = some y →
      (∀ x, (update x).input = some b → x.input = some b ∨ φ.held = some b ∨ σ.next ≤ b ∨
        ∃ t tr, σ.tran t = some tr ∧ tr.data = b ∧ Active φ σ t) →
      (∃ x, σ.client k = some x ∧ x.input = some b) ∨ φ.held = some b ∨ σ.next ≤ b ∨
        ∃ t tr, σ.tran t = some tr ∧ tr.data = b ∧ Active φ σ t := by
    intro key update live cases
    obtain ⟨x, before, rfl⟩ := change_eq_some_iff.mp live
    split at into
    · exact (cases x into).imp_left fun into => ⟨x, before, into⟩
    · exact .inl ⟨x, before, into⟩
  have next : ∀ {key update}, change σ.client key update k = some y →
      (∀ x, (update x).input = some σ.next) → (∃ x, σ.client k = some x ∧ x.input = some b) ∨
        φ.held = some b ∨ σ.next ≤ b ∨
        ∃ t tr, σ.tran t = some tr ∧ tr.data = b ∧ Active φ σ t := by
    intro key update live same
    refine changed live fun x into => .inr (.inr (.inl ?_))
    exact Nat.le_of_eq (Option.some.inj ((same x).symm.trans into))
  cases eff with
  | connect =>
      obtain ⟨x, before, rfl⟩ := change_eq_some_iff.mp live
      rcases put_eq_some_iff.mp before with ⟨rfl, _⟩ | ⟨old, before⟩
      · rw [if_pos rfl] at into
        have : σ₀.next + 1 = b := Option.some.inj into
        exact .inr (.inr (.inl (by omega)))
      · rw [if_neg old] at into
        exact .inl ⟨x, before, into⟩
  | begin => exact changed live (by simp)
  | fill | submit | block | finish | requeue | offer | detach =>
      exact changed live fun _ into => .inl into
  | fail => exact changed live fun _ into => .inl into
  | armHeader _ held =>
      refine changed live fun x into => .inr (.inl ?_)
      rw [held, ← into]
  | next => exact next live fun _ => rfl
  | armUpload _ up _ _ found =>
      exact changed live fun x into =>
        .inr (.inr (.inr ⟨_, _, found, Option.some.inj into, .inl up⟩))
  | @armReturn _ _ c x t _ _ running live' _ serves found =>
      exact changed live fun _ into =>
        .inr (.inr (.inr ⟨_, _, found, Option.some.inj into, .inr ⟨c, x, running, live', serves⟩⟩))
  | assignUp | assignWork =>
      exact next ((congrFun (change_change _ _ _ _) k).symm.trans live) fun _ => rfl
  | replyQueued | replyWaiting =>
      obtain ⟨x, answered, rfl⟩ := Option.map_eq_some_iff.mp live
      have answered := (congrFun (change_change _ _ _ _) k).symm.trans answered
      obtain ⟨z, before, rfl⟩ := change_eq_some_iff.mp answered
      simp only [State.bereave] at into
      split at into
      · exact .inr (.inr (.inl (Nat.le_of_eq (Option.some.inj into))))
      · exact .inl ⟨z, before, into⟩
  | sweep | purge =>
      obtain ⟨x, before, rfl⟩ := Option.map_eq_some_iff.mp live
      exact .inl ⟨x, before, into⟩
  | dropClient => exact .inl ⟨y, (put_none_eq_some_iff.mp live).2, into⟩
  | _ => exact .inl ⟨y, live, into⟩

theorem dispatched_of_effect (eff : Effect σ₀ e ⟨φ, σ⟩ ⟨φ', τ⟩) (dispatched : τ.Dispatched t) :
    σ.Dispatched t ∨ (∃ tr, σ.tran t = some tr) ∧
      (φ.up = some t ∨ ∃ k, Commands σ₀ e k TPTWORK) := by
  obtain ⟨a, w, seen⟩ := dispatched
  cases eff with
  | begin | call =>
      simp only [State.begin, State.observe, State.mapClient, List.mem_cons, reduceCtorEq,
        false_or] at seen
      exact .inl ⟨a, w, seen⟩
  | assignUp up found =>
      rcases List.mem_cons.mp seen with same | seen
      · obtain ⟨_, _, rfl⟩ := Obs.dispatched.inj same
        exact .inr ⟨⟨_, found⟩, .inl up⟩
      · exact .inl ⟨a, w, seen⟩
  | assignWork _ asked _ _ _ _ _ _ _ _ _ _ found =>
      rcases List.mem_cons.mp seen with same | seen
      · obtain ⟨_, _, rfl⟩ := Obs.dispatched.inj same
        exact .inr ⟨⟨_, found⟩, .inr ⟨_, asked⟩⟩
      · exact .inl ⟨a, w, seen⟩
  | _ => exact .inl ⟨a, w, seen⟩

/-- Transactions are made by `svracall` only. -/
theorem tran_of_effect (eff : Effect σ₀ e ⟨φ, σ⟩ ⟨φ', τ⟩) (gone : σ.tran t = none)
    (old : t < σ.next) :
    τ.tran t = none := by
  have changed : ∀ {key update}, change σ.tran key update t = none := by
    intro key update
    simp [change, gone]
  have deleted : ∀ {key}, put σ.tran key none t = none := by
    intro key
    unfold put
    split
    · rfl
    · exact gone
  cases eff with
  | submit =>
      refine (if_neg ?_).trans gone
      exact (old.trans (Nat.lt_succ_self _)).ne
  | assignUp | assignWork | finish => exact changed
  | fail => exact changed
  | setReturn =>
      rw [State.setReturn_tran]
      exact changed
  | replyQueued | replyWaiting | sweep | purge => exact deleted
  | _ => exact gone

/-! ## Stored transactions -/

/-- What becomes of a stored transaction while an event is handled. -/
inductive Fate (σ₀ : State) (e : Event) (t : TranId) (tr : Transaction) (data : Bytes) (φ : Phase)
    (σ : State) : Prop
  | stored (stored : σ.Stored t tr data) (settled : φ.up ≠ some t)
  | deleted (gone : σ.tran t = none) (old : t < σ.next) (new : ¬σ.Dispatched t)
  | dispatched (given : σ.Dispatched t) (asked : ∃ k, Commands σ₀ e k TPTWORK)

namespace Fate

theorem effect (fate : Fate σ₀ e t tr data φ σ) (all : Inv ⟨φ, σ⟩)
    (eff : Effect σ₀ e ⟨φ, σ⟩ ⟨φ', τ⟩) : Fate σ₀ e t tr data φ' τ := by
  cases fate with
  | dispatched given asked =>
      obtain ⟨a, w, seen⟩ := given
      refine .dispatched ⟨a, w, ?_⟩ asked
      cases eff with
      | begin | call | assignUp | assignWork => exact List.mem_cons_of_mem _ seen
      | _ => exact seen
  | deleted gone old new =>
      refine .deleted (tran_of_effect eff gone old) (old.trans_le eff.next_le) fun given => ?_
      rcases dispatched_of_effect eff given with before | ⟨⟨_, found⟩, _⟩
      · exact new before
      · simp [gone] at found
  | stored stored settled =>
      obtain ⟨found, new, room, unread⟩ := stored
      have old : t < σ.next := (all.waits.old (.tran t) (Option.isSome_of_eq_some found)).1
      by_cases given : τ.Dispatched t
      · rcases dispatched_of_effect eff given with before | ⟨_, up | asked⟩
        · exact absurd before new
        · exact absurd up settled
        · exact .dispatched given asked
      rcases undispatched_of_effect all eff found new with kept | ⟨given', _⟩ | ⟨gone, _⟩
      · refine .stored ⟨kept, given, ?_, ?_⟩ ?_
        · rcases buf_of_effect all eff room with
            same | held | ⟨k, x, _, _, _, live, reads⟩ | ⟨t', tr', found', data', lost⟩
          · exact same
          · exact absurd rfl ((all.buffers.held _ held).1.apart t tr found)
          · exact absurd reads (unread k x live)
          · obtain rfl := all.buffers.apart t' t tr' tr found' found data'
            exact absurd rfl (lost tr kept)
        · intro k y live into
          rcases input_of_effect eff live into with ⟨x, before, reads⟩ | held | young |
            ⟨t', tr', found', data', reason⟩
          · exact unread k x before reads
          · exact (all.buffers.held _ held).1.apart t tr found rfl
          · exact absurd (all.fresh.buf _ _ room) (Nat.not_lt.mpr young)
          · obtain rfl := all.buffers.apart t' t tr' tr found' found data'
            rcases reason with up | ⟨c, x, running, live', serves⟩
            · exact settled up
            · obtain ⟨a, seen⟩ := (all.dispatches.active c x live' (.inr running)).2 t' serves
              exact new ⟨a, c, seen⟩
        · intro up
          cases eff with
          | @begin _ c x handler b _ _ _ live into reads =>
              simp only [Phase.called] at up
              split at up
              · rename_i uploads
                subst uploads
                obtain ⟨t', tr', uploading, _, into'⟩ :=
                  all.dispatches.upload c x live reads (by simp)
                obtain rfl := Option.some.inj (up.symm.trans uploading.last)
                obtain rfl := Option.some.inj (found.symm.trans uploading.found)
                exact unread c x live into'
              · cases up
          | submit =>
              exact absurd (Option.some.inj up) (old.trans (Nat.lt_succ_self _)).ne'
          | connect | fill | armUpload | enqueue | assignUp | close | done => cases up
          | _ => exact settled up
      · exact absurd given' given
      · exact .deleted gone (old.trans_le eff.next_le) given

theorem trace {κ : Conf} (stored : σ.Stored t tr data) (inv : Inv ⟨{}, σ⟩)
    (trace : Trace σ e ⟨{}, σ⟩ κ) :
    Fate σ e t tr data κ.phase κ.state := by
  induction trace with
  | refl => exact .stored stored (by simp)
  | tail sofar eff ih => exact ih.effect (inv.trace sofar) eff

end Fate

/-- One step in the life of a stored transaction: whoever is given it is sent it. -/
theorem State.Stored.step (stored : σ.Stored t tr data) (inv : Inv ⟨{}, σ⟩)
    (done : Switchboard.step σ e = .ok τ) :
    (∀ a w, .dispatched a w t ∈ τ.log → Delivered σ τ tr data a w) ∧
      (¬τ.Dispatched t → τ.Stored t tr data ∨ τ.tran t = none ∧ t < τ.next) := by
  cases Fate.trace stored inv (step_trace inv done) with
  | stored stored' => exact ⟨fun a w seen => absurd ⟨a, w, seen⟩ stored'.new, fun _ => .inl stored'⟩
  | deleted gone old new =>
      exact ⟨fun a w seen => absurd ⟨a, w, seen⟩ new, fun _ => .inr ⟨gone, old⟩⟩
  | dispatched given asked =>
      refine ⟨fun a w seen => ?_, fun new => absurd given new⟩
      obtain ⟨k, asked⟩ := asked
      rcases step_work inv asked done with
        ⟨a', t', v, tr', svc, data', advert, owner, found, service, room, _, sent,
          only⟩ | ⟨_, _, none_⟩
      · rcases only a w t seen with ⟨rfl, rfl, rfl⟩ | before
        · obtain rfl := Option.some.inj (stored.found.symm.trans found)
          obtain rfl := Option.some.inj (stored.room.symm.trans room)
          refine ⟨v, svc, advert, owner, service, ?_⟩
          rw [sent]
          exact if_pos rfl
        · exact absurd ⟨a, w, before⟩ stored.new
      · exact absurd ⟨a, w, none_ a w t seen⟩ stored.new

theorem log_of_effect {seen : Obs} (eff : Effect σ₀ e ⟨φ, σ⟩ ⟨φ', τ⟩) (before : seen ∈ σ.log) :
    seen ∈ τ.log := by
  cases eff with
  | begin | call | assignUp | assignWork => exact List.mem_cons_of_mem _ before
  | _ => exact before

/-- The record only grows. -/
theorem log_of_run {events : List Event} {seen : Obs} (reach : Reachable anyStep σ)
    (before : seen ∈ σ.log) (execution : run σ events = .ok τ) : seen ∈ τ.log := by
  induction events generalizing σ with
  | nil =>
      obtain rfl := Except.ok.inj execution
      exact before
  | cons e events ih =>
      obtain ⟨ρ, done, execution⟩ := run_cons_ok_iff.mp execution
      have kept : ∀ {κ}, Trace σ e ⟨{}, σ⟩ κ → seen ∈ κ.state.log := by
        intro κ trace
        induction trace with
        | refl => exact before
        | tail _ eff ih => exact log_of_effect eff ih
      exact ih (.next reach trivial done) (kept (step_trace (inv_of_reachable reach) done))
        execution

theorem dispatched_mono {events : List Event} (reach : Reachable anyStep σ) (given : σ.Dispatched t)
    (execution : run σ events = .ok τ) : τ.Dispatched t := by
  obtain ⟨a, w, seen⟩ := given
  exact ⟨a, w, log_of_run reach seen execution⟩

theorem undispatched_of_gone {events : List Event} (reach : Reachable anyStep σ)
    (gone : σ.tran t = none) (old : t < σ.next) (new : ¬σ.Dispatched t)
    (execution : run σ events = .ok τ) : ¬τ.Dispatched t := by
  induction events generalizing σ with
  | nil =>
      obtain rfl := Except.ok.inj execution
      exact new
  | cons e events ih =>
      obtain ⟨ρ, done, execution⟩ := run_cons_ok_iff.mp execution
      have fate : ∀ {κ}, Trace σ e ⟨{}, σ⟩ κ → κ.state.tran t = none ∧ t < κ.state.next ∧
          ¬κ.state.Dispatched t := by
        intro κ trace
        induction trace with
        | refl => exact ⟨gone, old, new⟩
        | tail sofar eff ih =>
            obtain ⟨gone', old', new'⟩ := ih
            refine ⟨tran_of_effect eff gone' old', old'.trans_le eff.next_le, fun given => ?_⟩
            rcases dispatched_of_effect eff given with before | ⟨⟨_, found⟩, _⟩
            · exact new' before
            · simp [gone'] at found
      obtain ⟨gone', old', new'⟩ := fate (step_trace (inv_of_reachable reach) done)
      exact ih (.next reach trivial done) gone' old' new' execution

/-- The first dispatch of a stored transaction, however late. -/
theorem State.Stored.delivered {events : List Event} {ρ : State} (stored : σ.Stored t tr data)
    (reach : Reachable anyStep σ) (execution : run σ events = .ok τ) (new : ¬τ.Dispatched t)
    (done : Switchboard.step τ e = .ok ρ) {a : AdvertId} {w : ClientId}
    (seen : .dispatched a w t ∈ ρ.log) : Delivered τ ρ tr data a w := by
  induction events generalizing σ with
  | nil =>
      obtain rfl := Except.ok.inj execution
      exact (stored.step (inv_of_reachable reach) done).1 a w seen
  | cons e' events ih =>
      obtain ⟨μ, first, execution⟩ := run_cons_ok_iff.mp execution
      have reach' : Reachable anyStep μ := .next reach trivial first
      obtain ⟨_, kept⟩ := stored.step (inv_of_reachable reach) first
      have new' : ¬μ.Dispatched t := fun given => new (dispatched_mono reach' given execution)
      rcases kept new' with stored' | ⟨gone, old⟩
      · exact ih stored' reach' execution
      · have later : run μ (events ++ [e]) = .ok ρ :=
          run_concat_ok_iff.mpr ⟨τ, execution, done⟩
        exact absurd ⟨a, w, seen⟩ (undispatched_of_gone reach' gone old new' later)

/-- The first dispatch of a transaction in a run that passes the step in which its data became
complete. -/
theorem Settles.delivered {pre post first rest : List Event} {e' : Event} {start ρ ρ' μ μ' : State}
    {a : AdvertId} {w : ClientId} (settles : Settles ρ ρ' t tr data)
    (reach : Reachable anyStep start) (before : run start pre = .ok ρ) (done : step ρ e = .ok ρ')
    (new : ¬ρ.Dispatched t) (same : pre ++ e :: post = first ++ e' :: rest)
    (ran : run start first = .ok μ) (done' : step μ e' = .ok μ') (new' : ¬μ.Dispatched t)
    (seen : .dispatched a w t ∈ μ'.log) :
    Delivered μ μ' tr data a w ∧ ∃ between, run ρ between = .ok μ := by
  have reachρ : Reachable anyStep ρ := reach.run before
  have reachρ' : Reachable anyStep ρ' := .next reachρ trivial done
  rcases List.append_eq_append_iff.mp same with ⟨between, rfl, split⟩ | ⟨between, rfl, split⟩
  · obtain ⟨ρ₀, before', ran⟩ := run_append_ok_iff.mp ran
    obtain rfl := Except.ok.inj (before.symm.trans before')
    cases between with
    | nil =>
        obtain rfl := Except.ok.inj ran
        obtain ⟨rfl, rfl⟩ := List.cons.inj split
        obtain rfl := Except.ok.inj (done.symm.trans done')
        exact ⟨settles.1 a w seen, [], rfl⟩
    | cons e'' between =>
        obtain ⟨rfl, rfl⟩ := List.cons.inj split
        obtain ⟨ρ'', done'', ran'⟩ := run_cons_ok_iff.mp ran
        obtain rfl := Except.ok.inj (done.symm.trans done'')
        have undispatched : ¬ρ'.Dispatched t :=
          fun given => new' (dispatched_mono reachρ' given ran')
        exact ⟨(settles.2 undispatched).delivered reachρ' ran' new' done' seen, _, ran⟩
  · cases between with
    | nil =>
        obtain ⟨rfl, rfl⟩ := List.cons.inj split
        rw [List.append_nil] at before
        obtain rfl := Except.ok.inj (before.symm.trans ran)
        obtain rfl := Except.ok.inj (done.symm.trans done')
        exact ⟨settles.1 a w seen, [], rfl⟩
    | cons e'' between =>
        obtain ⟨rfl, rfl⟩ := List.cons.inj split
        obtain ⟨μ₀, ran', between⟩ := run_append_ok_iff.mp before
        obtain rfl := Except.ok.inj (ran.symm.trans ran')
        obtain ⟨μ'', done'', between⟩ := run_cons_ok_iff.mp between
        obtain rfl := Except.ok.inj (done'.symm.trans done'')
        have reachμ' : Reachable anyStep μ' := .next (reach.run ran) trivial done'
        exact absurd (dispatched_mono reachμ' ⟨a, w, seen⟩ between) new

theorem upload_kept {c : ClientId} {room : Nat} {got : Bytes} (reach : Reachable anyStep σ)
    (reading : σ.Reading c .sendToWorker room got) (done : step σ e = .ok τ)
    (cause : (∀ input, e.happening ≠ .ready c input) ∨ ∃ b contents piece,
      τ = σ.fill c b contents piece)
    (found : σ.tran t = some tr)
    (into : ∃ x, σ.client c = some x ∧ x.input = some tr.data) :
    τ.tran t = some tr ∧ ∃ x, τ.client c = some x ∧ x.input = some tr.data := by
  obtain ⟨x, live, into⟩ := into
  rcases cause with other | ⟨b, contents, piece, rfl⟩
  · have inv := inv_of_reachable reach
    have trace := step_trace inv done
    obtain ⟨y, _, _, live', reads, _⟩ := reading
    obtain rfl := Option.some.inj (live.symm.trans live')
    obtain ⟨z, live'', same, _⟩ := reading_of_trace inv live (by simp [reads]) other trace
    simp only [Client.intake, Prod.mk.injEq] at same
    exact ⟨uploading_of_trace inv live reads into found other trace, z, live'', same.2.1.trans into⟩
  · exact ⟨found, _, change_eq_some_iff.mpr ⟨x, live, (if_pos rfl).symm⟩, into⟩

theorem upload_settles {c : ClientId} {events : List Event} {n : Nat} {rest : Bytes}
    (reach : Reachable anyStep σ) (reading : σ.Reading c .sendToWorker n [])
    (execution : run σ events = .ok τ) (length : data.length = n)
    (sends : stream c σ events = data ++ rest) (found : σ.tran t = some tr)
    (into : ∃ x, σ.client c = some x ∧ x.input = some tr.data) :
    ∃ first e tail ρ ρ', events = first ++ e :: tail ∧ run σ first = .ok ρ ∧ step ρ e = .ok ρ' ∧
      run ρ' tail = .ok τ ∧ ¬ρ.Dispatched t ∧ Settles ρ ρ' t tr data ∧ ρ'.Reading c .command 1 [] ∧
      ρ'.sent c = σ.sent c ∧ stream c ρ' tail = rest := by
  obtain ⟨first, e, tail, ρ, ρ', rfl, ran, done, execution', received, room, split, unsent, found',
      x, live, into'⟩ :=
    reading.receives
      (motive := fun μ => μ.tran t = some tr ∧ ∃ x, μ.client c = some x ∧ x.input = some tr.data)
      reach (meets_anyStep σ events) (by decide) execution (by simp [sends, length]) ⟨found, into⟩
      (fun μ e μ' _ reach _ _ reading done cause kept => upload_kept reach reading done cause
        kept.1 kept.2)
  have reachρ : Reachable anyStep ρ := reach.run ran
  have inv := inv_of_reachable reachρ
  obtain ⟨whole, left⟩ : data = stream c σ (first ++ [e]) ∧ rest = stream c ρ' tail := by
    rw [sends] at split
    refine List.append_inj split ?_
    rw [length, ← room]
    exact Nat.zero_add _
  rw [← whole, List.nil_append] at received
  obtain ⟨t', tr', y, live', reads, current, new, reading', silent, settles⟩ :=
    step_upload inv (apart_of_reachable reachρ) received done
  obtain rfl := Option.some.inj (live.symm.trans live')
  have shared : tr.data = tr'.data := Option.some.inj (into'.symm.trans reads)
  obtain rfl := inv.buffers.apart t t' tr tr' found' current shared
  obtain rfl := Option.some.inj (found'.symm.trans current)
  exact ⟨first, e, tail, ρ, ρ', rfl, ran, done, execution', new, settles, reading',
    silent.trans unsent, left.symm⟩

theorem service_of_run {events : List Event} {s : ServiceId} {svc : Service}
    (reach : Reachable anyStep σ) (execution : run σ events = .ok τ) (old : s < σ.next)
    (current : τ.service s = some svc) :
    ∃ svc₀, σ.service s = some svc₀ ∧ svc₀.svcname = svc.svcname := by
  induction events generalizing σ with
  | nil =>
      obtain rfl := Except.ok.inj execution
      exact ⟨svc, current, rfl⟩
  | cons e events ih =>
      obtain ⟨μ, done, execution⟩ := run_cons_ok_iff.mp execution
      have trace := step_trace (inv_of_reachable reach) done
      obtain ⟨svc₁, current₁, same₁⟩ :=
        ih (.next reach trivial done) execution (old.trans_le (next_le_of_trace trace))
      rcases service_of_trace trace current₁ with ⟨svc₀, current₀, same₀⟩ | young
      · exact ⟨svc₀, current₀, same₀.trans same₁⟩
      · exact absurd old (Nat.not_lt.mpr young)

/-- What has been sent to a client stays sent. -/
theorem sent_of_run {events : List Event} (reach : Reachable anyStep σ)
    (execution : run σ events = .ok τ) (c : ClientId) : σ.sent c <+: τ.sent c := by
  induction events generalizing σ with
  | nil =>
      obtain rfl := Except.ok.inj execution
      exact List.prefix_rfl
  | cons e events ih =>
      obtain ⟨μ, done, execution⟩ := run_cons_ok_iff.mp execution
      have grows := sent_grows_of_trace (step_trace (inv_of_reachable reach) done) c
      exact grows.trans (ih (.next reach trivial done) execution)

end Switchboard
end Xatmi
