import Xatmi.Switchboard.Modes
import Xatmi.Switchboard.Replies

/-!
# Clients that wait

A worker that has asked for work rests until it is given a transaction, and a client that has asked
for a reply is left alone until the transaction is answered or deleted.
-/

namespace Xatmi
namespace Switchboard

open Program

variable {σ₀ : State} {e : Event} {φ φ' : Phase} {σ τ : State} {w c : ClientId} {wait : Option Wait}
  {said : Bytes} {t : TranId}

/-! ## Places in a run -/

theorem append_cons_cases {α : Type} {xs ys us vs : List α} {v : α}
    (same : xs ++ ys = us ++ v :: vs) :
    (∃ more, xs = us ++ v :: more ∧ vs = more ++ ys) ∨ ∃ more, us = xs ++ more ∧
      ys = more ++ v :: vs := by
  rcases List.append_eq_append_iff.mp same with ⟨more, rfl, rfl⟩ | ⟨_ | ⟨v', more⟩, rfl, rest⟩
  · exact .inr ⟨more, rfl, rfl⟩
  · exact .inr ⟨[], by simp, rest.symm⟩
  · obtain ⟨rfl, rfl⟩ := List.cons.inj rest
    exact .inl ⟨more, rfl, rfl⟩

/-- What comes after an event of a run. -/
theorem run_of_split {ρ ρ' : State} {first rest : List Event}
    (execution : run σ (first ++ e :: rest) = .ok τ) (ran : run σ first = .ok ρ)
    (done : step ρ e = .ok ρ') : run ρ' rest = .ok τ := by
  obtain ⟨_, ran', later⟩ := run_append_ok_iff.mp execution
  obtain rfl := Except.ok.inj (ran.symm.trans ran')
  obtain ⟨_, done', later⟩ := run_cons_ok_iff.mp later
  obtain rfl := Except.ok.inj (done.symm.trans done')
  exact later

/-- Of two events of a run, one comes first, or they are the same. -/
theorem run_cases {ρ ρ' μ μ' : State} {first rest first' rest' : List Event} {e' : Event}
    (same : first ++ e :: rest = first' ++ e' :: rest') (ran : run σ first = .ok ρ)
    (done : step ρ e = .ok ρ') (ran' : run σ first' = .ok μ) (done' : step μ e' = .ok μ') :
    (first = first' ∧ e = e' ∧ rest = rest' ∧ ρ = μ ∧ ρ' = μ') ∨
      (∃ between, rest = between ++ e' :: rest' ∧ run ρ' between = .ok μ) ∨
      ∃ between, rest' = between ++ e :: rest ∧ run μ' between = .ok ρ := by
  rcases append_cons_cases same with ⟨between, rfl, rfl⟩ | ⟨_ | ⟨e'', between⟩, rfl, split⟩
  · exact .inr (.inr ⟨between, rfl, run_of_split ran ran' done'⟩)
  · obtain ⟨rfl, rfl⟩ := List.cons.inj split
    rw [List.append_nil] at ran'
    obtain rfl := Except.ok.inj (ran.symm.trans ran')
    exact .inl ⟨(List.append_nil _).symm, rfl, rfl, rfl, Except.ok.inj (done.symm.trans done')⟩
  · obtain ⟨rfl, rfl⟩ := List.cons.inj split
    exact .inr (.inl ⟨between, rfl, run_of_split ran' ran done⟩)

/-! ## Clients that are not read from -/

/-- A command is read from client `c`. -/
def State.Listens (σ : State) (c : ClientId) : Prop :=
  ∃ x, σ.client c = some x ∧ x.handler = some .command

theorem State.Reading.listens {room : Nat} {got : Bytes} (reading : σ.Reading c .command room got) :
    σ.Listens c := by
  obtain ⟨x, _, _, live, reads, _⟩ := reading
  exact ⟨x, live, reads⟩

/-- Nothing is read from client `w`, which waits for `wait`, and `said` is all it has been sent. -/
structure Rests (w : ClientId) (wait : Option Wait) (said : Bytes) (φ : Phase) (σ : State) :
    Prop where
  idle : ∃ x, σ.client w = some x ∧ x.Idle ∧ x.wait4 = wait
  stopped : φ.run ≠ some w
  stays : φ.closing ≠ some w
  silent : σ.sent w = said

/-- An advertisement of client `w` is the first on the queue of a service. -/
def State.Fronts (σ : State) (w : ClientId) : Prop :=
  ∃ s svc a v, σ.service s = some svc ∧ ¬σ.EmptyQueue s ∧ σ.links.p2 (.head s) = .adv a ∧
    σ.advert a = some v ∧ v.client = w

namespace Rests

theorem keep (rests : Rests w wait said φ σ) (stopped : φ'.run ≠ some w)
    (stays : φ'.closing ≠ some w) (client : ∀ x, σ.client w = some x → x.Idle → x.wait4 = wait →
      ∃ y, τ.client w = some y ∧ y.Idle ∧ y.wait4 = wait)
    (sent : τ.sent w = σ.sent w) : Rests w wait said φ' τ := by
  obtain ⟨x, live, idle, waits⟩ := rests.idle
  exact ⟨client x live idle waits, stopped, stays, sent.trans rests.silent⟩

theorem idle_of_change {k : ClientId} {update : Client → Client}
    (other : k ≠ w ∨ ∀ x, (update x).intake = x.intake ∧ (update x).wait4 = x.wait4) (x : Client)
    (live : σ.client w = some x) (idle : x.Idle) (waits : x.wait4 = wait) :
    ∃ y, change σ.client k update w = some y ∧ y.Idle ∧ y.wait4 = wait := by
  refine ⟨_, change_eq_some_iff.mpr ⟨x, live, rfl⟩, ?_⟩
  split
  · rename_i same
    rcases other with different | keeps
    · exact absurd same.symm different
    · obtain ⟨intake, kept⟩ := keeps x
      simp only [Client.intake, Prod.mk.injEq] at intake
      rw [Client.Idle, intake.1, intake.2.1, intake.2.2, kept]
      exact ⟨idle, waits⟩
  · exact ⟨idle, waits⟩

theorem idle_of_delTran {ρ : State} (t : TranId) (tr : Transaction)
    (idle : ∃ y, ρ.client w = some y ∧ y.Idle ∧ y.wait4 = wait) :
    (∃ y, (ρ.delTran t tr).client w = some y ∧ y.Idle ∧ y.wait4 = wait) ∨
      wait = some (.tran t) ∧ ∃ y, (ρ.delTran t tr).client w = some y ∧ y.Idle ∧
      y.wait4 = none := by
  obtain ⟨y, live, idle, waits⟩ := idle
  have live' : (ρ.delTran t tr).client w = some (ρ.bereave t tr w y) :=
    Option.map_eq_some_iff.mpr ⟨y, live, rfl⟩
  by_cases here : y.wait4 = some (.tran t) ∧ (w = tr.client ∨ ρ.worker tr = some w)
  · exact .inr ⟨waits.symm.trans here.1, _, live', idle, if_pos here⟩
  · exact .inl ⟨_, live', idle, (if_neg here).trans waits⟩

/-- Such a client is left alone, given a transaction, deleted, released from what it waits for, or
answered. -/
theorem effect (rests : Rests w wait said φ σ) (all : Inv ⟨φ, σ⟩)
    (eff : Effect σ₀ e ⟨φ, σ⟩ ⟨φ', τ⟩) :
    Rests w wait said φ' τ ∨
      (σ.Fronts w ∧ τ.Listens w ∧ ∃ a t, .dispatched a w t ∈ τ.log ∧ .dispatched a w t ∉ σ.log) ∨
      φ'.closing = some w ∨
      (∃ t, wait = some (.tran t) ∧ τ.tran t = none ∧ Rests w none said φ' τ) ∨
      ∃ t, (wait = some (.tran t) ∨ wait = some .any) ∧ τ.tran t = none ∧ φ.fin = some t ∧
        τ.Listens w := by
  obtain ⟨x, live, idle, waits⟩ := rests.idle
  have running : ∀ {k}, φ.run = some k → k ≠ w := by
    rintro k run rfl
    exact rests.stopped run
  have reading : ∀ {k y handler}, σ.client k = some y → y.handler = some handler → k ≠ w := by
    rintro k y handler live' reads rfl
    obtain rfl := Option.some.inj (live.symm.trans live')
    cases idle.1.symm.trans reads
  have same : ∀ y, σ.client w = some y → y.Idle → y.wait4 = wait →
      ∃ y, σ.client w = some y ∧ y.Idle ∧ y.wait4 = wait :=
    fun y live idle waits => ⟨y, live, idle, waits⟩
  have armed : ∀ {k : ClientId} {first second : Client → Client}, k ≠ w →
      ∃ y, change (change σ.client k first) k second w = some y ∧ y.Idle ∧ y.wait4 = wait := by
    intro k first second other
    rw [change_change]
    exact idle_of_change (.inl other) x live idle waits
  have deleted : ∀ {ρ : State} {t tr}, (∃ y, ρ.client w = some y ∧ y.Idle ∧ y.wait4 = wait) →
      τ = ρ.delTran t tr → φ'.run = φ.run → φ'.closing = φ.closing → ρ.sent w = σ.sent w →
      Rests w wait said φ' τ ∨ ∃ t, wait = some (.tran t) ∧ τ.tran t = none ∧
        Rests w none said φ' τ := by
    rintro ρ t tr kept rfl run closing sent
    have stopped : φ'.run ≠ some w := run ▸ rests.stopped
    have stays : φ'.closing ≠ some w := closing ▸ rests.stays
    rcases idle_of_delTran t tr kept with kept | ⟨here, freed⟩
    · exact .inl ⟨kept, stopped, stays, sent.trans rests.silent⟩
    · exact .inr ⟨t, here, if_pos rfl, freed, stopped, stays, sent.trans rests.silent⟩
  cases eff with
  | call | release | resize | enqueue | park | setReturn | spare | found | orphan | dropService
  | dropAdvert =>
      exact .inl (rests.keep rests.stopped rests.stays same rfl)
  | submit | offer | detach | requeue =>
      exact .inl (rests.keep rests.stopped rests.stays (idle_of_change (.inr fun _ => ⟨rfl, rfl⟩))
        rfl)
  | finish run =>
      exact .inl (rests.keep rests.stopped rests.stays (idle_of_change (.inl (running run))) rfl)
  | fail closing =>
      refine .inl (rests.keep rests.stopped rests.stays (idle_of_change (.inl ?_)) rfl)
      rintro rfl
      exact rests.stays closing
  | connect =>
      have old : σ₀.next ≠ w := by
        rintro rfl
        cases (all.fresh.client_next all.registry).symm.trans live
      refine .inl (rests.keep rests.stopped rests.stays (fun y live idle waits => ?_) rfl)
      exact ⟨y, change_eq_some_iff.mpr ⟨y, put_eq_some_iff.mpr (.inr ⟨old.symm, live⟩),
        (if_neg old.symm).symm⟩, idle, waits⟩
  | fill live' _ reads =>
      exact .inl (rests.keep rests.stopped rests.stays (idle_of_change (.inl (reading live' reads)))
        rfl)
  | begin _ live' _ reads =>
      refine .inl (rests.keep ?_ (by simp [Phase.called])
        (idle_of_change (.inl (reading live' reads))) rfl)
      exact fun run => reading live' reads (Option.some.inj run)
  | write _ run =>
      exact .inl (rests.keep rests.stopped rests.stays same (if_neg (running run).symm))
  | armHeader run | armUpload run | armReturn run | block run =>
      exact .inl (rests.keep (by simp) rests.stays (idle_of_change (.inl (running run))) rfl)
  | next run =>
      exact .inl (rests.keep rests.stopped rests.stays (idle_of_change (.inl (running run))) rfl)
  | rest run => exact .inl (rests.keep (by simp) rests.stays same rfl)
  | @assignUp _ _ a v _ t tr svc _ _ up _ offered _ nonempty first advert =>
      by_cases mine : v.client = w
      · subst mine
        obtain ⟨_, _, uploading, _⟩ := all.dispatches.uploaded t up
        refine .inr (.inl ⟨⟨tr.svc, svc, a, v, offered, nonempty, first, advert, rfl⟩, ?_, a, t,
          List.mem_cons_self, fun seen => uploading.new ⟨a, _, seen⟩⟩)
        apply State.Reading.listens
        exact reading_assign live
      · exact .inl (rests.keep rests.stopped rests.stays (fun _ _ _ _ => armed mine)
          (if_neg (Ne.symm mine)))
  | @assignWork _ _ k y a v _ t _ _ _ run _ _ live' mine advert =>
      obtain ⟨_, u, advert', owner, _⟩ := all.registry.tree k y a live' mine
      obtain rfl := Option.some.inj (advert.symm.trans advert')
      have other : v.client ≠ w := owner ▸ running run
      exact .inl (rests.keep rests.stopped rests.stays (fun _ _ _ _ => armed other)
        (if_neg other.symm))
  | @replyQueued _ _ k y _ t tr _ run _ live' queued _ _ deletable =>
      have owner := all.own.owner_eq live' (List.mem_append_right _ queued) deletable.live
      have other : tr.client ≠ w := owner ▸ running run
      exact (deleted (armed other) rfl rfl rfl (if_neg other.symm)).imp_right
        fun gone => .inr (.inr (.inl gone))
  | @replyWaiting _ _ y t tr contents fin live' _ waiting _ room =>
      by_cases mine : tr.client = w
      · subst mine
        obtain rfl := Option.some.inj (live.symm.trans live')
        have answered := reading_reply (t := t) contents live (all.fresh.buf _ _ room)
        refine .inr (.inr (.inr (.inr ⟨t, ?_, if_pos rfl, fin, answered.listens⟩)))
        exact waiting.imp waits.symm.trans fun any => waits.symm.trans any.2
      · exact (deleted (armed mine) rfl rfl rfl (if_neg (Ne.symm mine))).imp_right
          fun gone => .inr (.inr (.inl gone))
  | @close _ _ k =>
      by_cases mine : k = w
      · exact .inr (.inr (.inl (congrArg some mine)))
      · exact .inl (rests.keep (by simp) (fun closing => mine (Option.some.inj closing)) same rfl)
  | sweep | purge =>
      exact (deleted ⟨x, live, idle, waits⟩ rfl rfl rfl rfl).imp_right
        fun gone => .inr (.inr (.inl gone))
  | dropClient closing =>
      refine .inl (rests.keep rests.stopped (by simp) (fun y live idle waits => ?_) rfl)
      refine ⟨y, put_none_eq_some_iff.mpr ⟨?_, live⟩, idle, waits⟩
      rintro rfl
      exact rests.stays closing
  | done => exact .inl (rests.keep (by simp) (by simp) same rfl)

/-- Whatever such a client sends, its connection ends. -/
theorem gone {x : Client} {input : Option Bytes} (inv : Inv ⟨{}, σ⟩) (live : σ.client w = some x)
    (idle : x.Idle) (source : e.happening = .ready w input) (done : Switchboard.step σ e = .ok τ) :
    τ.client w = none := by
  have connected := (inv.registry.mem_clients w).mpr ⟨x, live⟩
  obtain ⟨_, _, _, _, deleted⟩ :=
    delClient_of_step (.inl ⟨input, x, source, connected, live, .inl idle.1⟩) done
  exact client_of_delClient deleted

/-! ## Workers without work -/

theorem trace {κ : Conf} (rests : Rests w none said {} σ) (inv : Inv ⟨{}, σ⟩)
    (trace : Trace σ e ⟨{}, σ⟩ κ) :
    Rests w none said κ.phase κ.state ∨
      (∃ a t, .dispatched a w t ∈ κ.state.log ∧ .dispatched a w t ∉ σ.log) ∨ Closes σ e w := by
  induction trace with
  | refl => exact .inl rests
  | @tail κ κ' sofar eff ih =>
      obtain ⟨new, log, _⟩ := log_of_trace sofar
      rcases ih with rests' | ⟨a, t, seen, fresh⟩ | closes
      · rcases rests'.effect (inv.trace sofar) eff with
          rests'' | ⟨_, _, a, t, seen, fresh⟩ | closing | ⟨_, none_, _⟩ | ⟨_, none_ | none_, _⟩
        · exact .inl rests''
        · refine .inr (.inl ⟨a, t, seen, fun before => fresh ?_⟩)
          rw [log]
          exact List.mem_append_right _ before
        · exact .inr (.inr (closes_of_trace (sofar.tail eff) closing))
        · cases none_
        · cases none_
        · cases none_
      · exact .inr (.inl ⟨a, t, log_of_effect eff seen, fresh⟩)
      · exact .inr (.inr closes)

/-- While others are served, the worker rests or is given a transaction; what it sends itself ends
its connection. -/
theorem step (rests : Rests w none said {} σ) (inv : Inv ⟨{}, σ⟩)
    (done : Switchboard.step σ e = .ok τ) :
    τ.client w = none ∨ (∀ input, e.happening ≠ .ready w input) ∧ (Rests w none said {} τ ∨
      ∃ a t, .dispatched a w t ∈ τ.log ∧ .dispatched a w t ∉ σ.log) := by
  by_cases mine : ∃ input, e.happening = .ready w input
  · obtain ⟨input, source⟩ := mine
    obtain ⟨x, live, idle, _⟩ := rests.idle
    exact .inl (gone inv live idle source done)
  · simp only [not_exists] at mine
    rcases rests.trace inv (step_trace inv done) with rests' | given | closes
    · exact .inr ⟨mine, .inl rests'⟩
    · exact .inr ⟨mine, .inr given⟩
    · obtain ⟨input, source⟩ := closes.source
      exact absurd source (mine input)

end Rests

/-- Client `w` is given transaction `t` in the step from `σ` to `τ`, and is sent it as `frame`. -/
structure Given (σ τ : State) (a : AdvertId) (w : ClientId) (t : TranId) (frame : Bytes) :
    Prop where
  now : ∃ new, τ.log = new ++ σ.log ∧ .dispatched a w t ∈ new
  hands : ∃ v tr svc data, HandsOver σ τ a w t v tr svc data
  sent : τ.sent w = σ.sent w ++ frame

theorem given_of_log {a : AdvertId} {new : List Obs} (inv : Inv ⟨{}, σ⟩) (done : step σ e = .ok τ)
    (log : τ.log = new ++ σ.log) (seen : .dispatched a w t ∈ new) :
    ∃ frame, Given σ τ a w t frame := by
  obtain ⟨new', log', sends⟩ := step_sends inv done
  obtain rfl := List.append_cancel_right (log.symm.trans log')
  obtain ⟨v, tr, svc, data, handed⟩ := sends a w t seen
  exact ⟨_, ⟨new, log, seen⟩, ⟨v, tr, svc, data, handed⟩, handed.sent⟩

theorem given_of_dispatched {a : AdvertId} (inv : Inv ⟨{}, σ⟩) (done : step σ e = .ok τ)
    (seen : .dispatched a w t ∈ τ.log) (fresh : .dispatched a w t ∉ σ.log) :
    ∃ frame, Given σ τ a w t frame := by
  obtain ⟨new, log, _⟩ := step_sends inv done
  rw [log] at seen
  exact given_of_log inv done log ((List.mem_append.mp seen).resolve_right fresh)

theorem Given.frame_pos {a : AdvertId} {frame : Bytes} (given : Given σ τ a w t frame) :
    0 < frame.length := by
  obtain ⟨v, tr, svc, data, handed⟩ := given.hands
  obtain rfl := List.append_cancel_left (given.sent.symm.trans handed.sent)
  simp only [workFrame, List.length_append, length_longBytes, IOLONG]
  omega

/-- In one step a worker is given one transaction. -/
theorem Given.unique {a a' : AdvertId} {t' : TranId} {frame frame' : Bytes}
    (given : Given σ τ a w t frame) (other : Given σ τ a' w t' frame') : a = a' ∧ t = t' := by
  obtain ⟨_, tr, _, _, handed⟩ := given.hands
  obtain ⟨_, tr', _, _, handed'⟩ := other.hands
  obtain ⟨x, live, _, serves⟩ := handed.worker
  obtain ⟨x', live', _, serves'⟩ := handed'.worker
  obtain rfl := Option.some.inj (live.symm.trans live')
  obtain rfl := Wait.tran.inj (Option.some.inj (serves.symm.trans serves'))
  obtain rfl := Option.some.inj (handed.found.symm.trans handed'.found)
  exact ⟨Option.some.inj (handed.executor.symm.trans handed'.executor), rfl⟩

theorem not_reading_of_gone {events : List Event} {handler : Handler} {room : Nat} {got : Bytes}
    (reach : Reachable anyStep σ) (gone : σ.client w = none) (old : w < σ.next)
    (execution : run σ events = .ok τ) :
    ¬τ.Reading w handler room got := by
  intro reading
  refine gone_of_run reach (fun connected => ?_) old execution
    (reading.connected (inv_of_reachable (reach.run execution)))
  obtain ⟨x, live⟩ := ((inv_of_reachable reach).registry.mem_clients w).mp connected
  cases gone.symm.trans live

/-- A worker that rests and is read from later has been given a transaction in between. -/
theorem Rests.given {events : List Event} {handler : Handler} {room : Nat} {got : Bytes}
    (rests : Rests w none said {} σ)
    (reach : Reachable anyStep σ) (execution : run σ events = .ok τ)
    (later : τ.Reading w handler room got) :
    ∃ first e tail ρ ρ' a t frame, events = first ++ e :: tail ∧ run σ first = .ok ρ ∧
      Switchboard.step ρ e = .ok ρ' ∧ run ρ' tail = .ok τ ∧ Given ρ ρ' a w t frame ∧
      ρ.sent w = said ∧ stream w σ events = stream w ρ' tail := by
  induction events generalizing σ with
  | nil =>
      obtain rfl := Except.ok.inj execution
      obtain ⟨x, live, idle, _⟩ := rests.idle
      obtain ⟨y, _, _, live', reads, _⟩ := later
      obtain rfl := Option.some.inj (live.symm.trans live')
      cases idle.1.symm.trans reads
  | cons e events ih =>
      obtain ⟨μ, done, execution⟩ := run_cons_ok_iff.mp execution
      have inv := inv_of_reachable reach
      have reach' : Reachable anyStep μ := .next reach trivial done
      obtain ⟨x, live, _⟩ := rests.idle
      have old : w < μ.next :=
        (inv.fresh.clients w ((inv.registry.mem_clients w).mpr ⟨x, live⟩)).trans_le
          (next_le_of_trace (step_trace inv done))
      rcases rests.step inv done with gone | ⟨other, rests' | ⟨a, t, seen, fresh⟩⟩
      · exact absurd later (not_reading_of_gone reach' gone old execution)
      · obtain ⟨first, e', tail, ρ, ρ', a, t, frame, rfl, ran, done', execution', given,
            unsent, taken⟩ :=
          ih rests' reach' execution
        refine ⟨e :: first, e', tail, ρ, ρ', a, t, frame, rfl, run_cons_ok_iff.mpr ⟨μ, done, ran⟩,
          done', execution', given, unsent, ?_⟩
        rw [stream_cons done, taken_of_other other, List.nil_append, taken]
      · obtain ⟨frame, given⟩ := given_of_dispatched inv done seen fresh
        refine ⟨[], e, events, σ, μ, a, t, frame, rfl, rfl, done, execution, given,
          rests.silent, ?_⟩
        rw [stream_cons done, taken_of_other other, List.nil_append]

/-! ## Workers that ask -/

/-- Client `w` executes nothing. -/
def State.Free (σ : State) (w : ClientId) : Prop :=
  ∃ x, σ.client w = some x ∧ x.wait4 = none

/-- While a client that executes nothing is read from, it goes on executing nothing. -/
theorem free_of_reading {handler : Handler} {room : Nat} {got : Bytes} (free : σ.Free w)
    (inv : Inv ⟨{}, σ⟩) (reading : σ.Reading w handler room got) (done : step σ e = .ok τ)
    (cause : (∀ input, e.happening ≠ .ready w input) ∨ ∃ b contents piece,
      τ = σ.fill w b contents piece) :
    τ.Free w := by
  rcases cause with other | ⟨b, contents, piece, rfl⟩
  · obtain ⟨x, _, _, live, reads, _⟩ := reading
    have busy : x.handler ≠ none := by simp [reads]
    have along : ∀ {κ}, Trace σ e ⟨{}, σ⟩ κ → κ.state.Free w := by
      intro κ trace
      induction trace with
      | refl => exact free
      | tail sofar eff ih =>
          obtain ⟨y, live', none_⟩ := ih
          obtain ⟨⟨z, live'', busy'⟩, running, stays⟩ :=
            bystander_of_trace inv live busy other sofar
          obtain rfl := Option.some.inj (live'.symm.trans live'')
          obtain ⟨u, live₁, wait⟩ := wait_of_effect (inv.trace sofar) eff live' busy' running stays
          exact ⟨u, live₁, wait.elim (·.trans none_) And.left⟩
    exact along (step_trace inv done)
  · obtain ⟨x, live, none_⟩ := free
    exact ⟨_, change_eq_some_iff.mpr ⟨x, live, rfl⟩, by rw [if_pos rfl]; exact none_⟩

theorem work_given (inv : Inv ⟨{}, σ⟩) (free : σ.Free w) (asks : Commands σ e w TPTWORK)
    (done : step σ e = .ok τ) :
    (∃ a t frame, Given σ τ a w t frame) ∨ Rests w none (σ.sent w) {} τ := by
  obtain ⟨filled, received, work⟩ := asks
  obtain ⟨x, b, u, live, into, reads, called⟩ := runHandler_of_step received done
  obtain ⟨x', live', none_⟩ := free
  obtain rfl := Option.some.inj (live.symm.trans live')
  have room : (σ.begin w .command b filled).buf b = some filled := if_pos rfl
  have known : commands[(filled.getD 0 0).toNat]? = some (.svrservice, 0) := by rw [work]; rfl
  obtain ⟨y, begun, idle, ⟨impossible, _⟩ | ⟨_, _, _, served⟩⟩ := command_ok room known called
  · exact absurd rfl impossible
  obtain ⟨contents, z, _, live'', ⟨_, parked⟩ | ⟨a, t, v, _, tr, svc, data, _, mine,
    advert, _, _, _, worker, _, _, found, service, room', rfl⟩⟩ := svrservice_ok served
  · obtain ⟨links, service, rfl⟩ := forM_addToWaitq_frame parked
    refine .inr ⟨⟨y, begun, idle, ?_⟩, by simp, by simp, rfl⟩
    obtain ⟨z, live'', rfl⟩ := change_eq_some_iff.mp begun
    obtain rfl := Option.some.inj (live.symm.trans live'')
    rw [if_pos rfl]
    exact none_
  · obtain ⟨z', before, rfl⟩ := change_eq_some_iff.mp live''
    have mine : a ∈ z'.adverts := by
      split at mine <;> exact mine
    obtain ⟨_, v', advert', owner, _⟩ := inv.registry.tree w z' a before mine
    obtain rfl := Option.some.inj (advert.symm.trans advert')
    subst owner
    obtain ⟨new, log, sends⟩ := step_sends inv done
    have whole : [.dispatched a v.client t, .handled v.client .svrservice [],
        .handled v.client .command filled] ++ σ.log = new ++ σ.log := log
    have here : .dispatched a v.client t ∈ new := by
      rw [← List.append_cancel_right whole]
      exact List.mem_cons_self
    obtain ⟨v', tr', svc', data', handed⟩ := sends a v.client t here
    exact .inl ⟨a, t, _, ⟨new, log, here⟩, ⟨v', tr', svc', data', handed⟩, handed.sent⟩

/-! ## Clients that wait for a reply -/

/-- Client `c` has asked for the reply to transaction `t`, has been sent `said` and nothing since,
and waits for it unless the transaction has been deleted. -/
structure Held (c : ClientId) (t : TranId) (said : Bytes) (φ : Phase) (σ : State) : Prop where
  still : Still c said φ σ
  rests : Rests c (some (.tran t)) said φ σ ∨ Rests c none said φ σ ∧ σ.tran t = none
  old : t < σ.next

namespace Held

/-- Nobody turns to such a client but to answer it. -/
theorem effect (held : Held c t said φ σ) (sound : Sound ⟨φ, σ⟩) (before : Parking {} σ₀)
    (eff : Effect σ₀ e ⟨φ, σ⟩ ⟨φ', τ⟩) :
    Held c t said φ' τ ∨ φ'.closing = some c ∨ τ.tran t = none ∧ σ.Dispatched t := by
  have old : t < τ.next := held.old.trans_le eff.next_le
  have away : ¬σ.Fronts c := by
    rintro ⟨s, svc, a, v, service, nonempty, first, advert, owner⟩
    obtain ⟨_, linked⟩ := sound.rings.first_entry service nonempty
    rw [first] at linked
    exact held.still.away (.inl ⟨a, v, advert, owner, linked⟩)
  have kept : ∀ wait, Rests c wait said φ' τ → Still c said φ' τ := by
    intro wait rests
    refine (held.still.effect sound before eff).resolve_right ?_
    rintro ⟨t, tr, contents, _, _, _, own, rfl⟩
    have grown := (held.still.sent_reply (t := t) own).symm.trans rests.silent
    exact absurd (List.append_right_eq_self.mp grown) (by simp [replyFrame])
  rcases held.rests with rests | ⟨rests, gone⟩
  · rcases rests.effect sound.all eff with
      rests' | ⟨fronts, _⟩ | closing | ⟨t', wait, gone, freed⟩ | ⟨t', wait, gone, fin, _⟩
    · exact .inl ⟨kept _ rests', .inl rests', old⟩
    · exact absurd fronts away
    · exact .inr (.inl closing)
    · cases wait
      exact .inl ⟨kept _ freed, .inr ⟨freed, gone⟩, old⟩
    · rcases wait with wait | wait
      · cases wait
        exact .inr (.inr ⟨gone, sound.all.dispatches.finished t fin⟩)
      · cases wait
  · have gone' := tran_of_effect eff gone held.old
    rcases rests.effect sound.all eff with
      rests' | ⟨fronts, _⟩ | closing | ⟨_, wait, _⟩ | ⟨_, wait | wait, _⟩
    · exact .inl ⟨kept _ rests', .inr ⟨rests', gone'⟩, old⟩
    · exact absurd fronts away
    · exact .inr (.inl closing)
    · cases wait
    · cases wait
    · cases wait

theorem trace {κ : Conf} (held : Held c t said {} σ) (sound : Sound ⟨{}, σ⟩) (new : PicksNew σ e)
    (trace : Trace σ e ⟨{}, σ⟩ κ) : Held c t said κ.phase κ.state ∨ Closes σ e c ∨
      κ.state.tran t = none ∧ κ.state.Dispatched t := by
  induction trace with
  | refl => exact .inl held
  | @tail κ κ' sofar eff ih =>
      have dispatched : κ.state.Dispatched t → κ'.state.Dispatched t :=
        fun ⟨a, k, seen⟩ => ⟨a, k, log_of_effect eff seen⟩
      rcases ih with held' | closes | ⟨gone, given⟩
      · rcases held'.effect (sound.trace sound.parking new sofar) sound.parking eff with
          held'' | closing | ⟨gone, given⟩
        · exact .inl held''
        · exact .inr (.inl (closes_of_trace (sofar.tail eff) closing))
        · exact .inr (.inr ⟨gone, dispatched given⟩)
      · exact .inr (.inl closes)
      · have old : t < κ.state.next := held.old.trans_le (next_le_of_trace sofar)
        exact .inr (.inr ⟨tran_of_effect eff gone old, dispatched given⟩)

/-- At the end of a run it still waits, its connection has ended, or the transaction has been
answered. -/
theorem run {events : List Event} (held : Held c t said {} σ) (reach : Reachable PicksNew σ)
    (meets : Meets PicksNew σ events) (execution : Switchboard.run σ events = .ok τ) :
    Held c t said {} τ ∨ c ∉ τ.clients ∨ τ.tran t = none ∧ τ.Dispatched t := by
  induction events generalizing σ with
  | nil =>
      obtain rfl := Except.ok.inj execution
      exact .inl held
  | cons e events ih =>
      obtain ⟨μ, done, execution⟩ := run_cons_ok_iff.mp execution
      have reach' : Reachable PicksNew μ := reach.next meets.1 done
      have anyμ : Reachable anyStep μ := reach'.mono fun _ _ _ => trivial
      have sound := sound_of_reachable reach
      have trace := step_trace sound.all done
      rcases held.trace sound meets.1 trace with held' | closes | ⟨gone, given⟩
      · exact ih held' reach' (meets.2 μ done) execution
      · exact .inr (.inl (gone_of_closes (reach.mono fun _ _ _ => trivial) closes done execution))
      · refine .inr (.inr ⟨?_, dispatched_mono anyμ given execution⟩)
        exact deleted_of_run anyμ gone (held.old.trans_le (next_le_of_trace trace)) execution

end Held

/-! ## Requests for a reply -/

/-- Client `c` has no transaction but `t` under descriptor `cd`. -/
def State.Only (σ : State) (c : ClientId) (cd : BitVec 16) (t : TranId) : Prop :=
  ∀ t' tr, σ.tran t' = some tr → tr.client = c → tr.cd = cd → t' = t

/-- Only calls make transactions. -/
theorem State.Only.step {cd : BitVec 16} (only : σ.Only c cd t) (inv : Inv ⟨{}, σ⟩)
    (nothing : ∀ filled, ¬Received σ e c .svracall filled) (done : Switchboard.step σ e = .ok τ) :
    τ.Only c cd t := by
  intro t' tr found owner same
  rcases tran_of_trace (step_trace inv done) found with ⟨tr₀, found₀, place⟩ | ⟨_, filled, received⟩
  · exact only t' tr₀ found₀ ((client_of_place place).trans owner) ((cd_of_place place).trans same)
  · exact absurd (owner ▸ received) (nothing filled)

theorem asked_outcome {request : Bytes} (reach : Reachable PicksNew σ) (new : PicksNew σ e)
    (received : Received σ e c .svrgetrply request) (one : ¬AsksAny request)
    (only : σ.Only c (toshort request) t) (done : step σ e = .ok τ) :
    (∃ errno, τ.sent c = σ.sent c ++ errorFrame errno) ∨
      (∃ tr, σ.tran t = some tr) ∧ (τ.tran t = none ∧ σ.Dispatched t ∨
      Held c t (σ.sent c) {} τ) := by
  have inv := inv_of_reachable reach
  obtain ⟨x, b, u, live, _, _, called⟩ := runHandler_of_step received done
  have one' : tolong (request.drop IOSHORT) &&& TPGETANY = 0 := not_not.mp one
  obtain ⟨contents, y, room, begun, outcome⟩ := svrgetrply_ok called
  have full : (σ.begin c .svrgetrply b request).buf b = some request := if_pos rfl
  obtain rfl := Option.some.inj (full.symm.trans room)
  obtain ⟨z, live', rfl⟩ := change_eq_some_iff.mp begun
  obtain rfl := Option.some.inj (live.symm.trans live')
  rw [if_pos rfl] at outcome
  simp only [one', ne_eq, not_true_eq_false, ↓reduceIte, not_false_eq_true, true_and, false_and,
    false_or] at outcome
  have hits : ∀ {queue t'}, (∀ t ∈ queue, t ∈ x.outstanding) →
      σ.findCd queue (toshort request) = some t' →
      t' = t ∧ ∃ tr, σ.tran t = some tr := by
    intro queue t' mine hit
    obtain ⟨member, tr, found, same⟩ := findCd_elim hit
    obtain rfl := only t' tr found (inv.own.owner_eq live (mine t' member) found) same
    exact ⟨rfl, tr, found⟩
  rcases outcome with ⟨t', tr', data, _, _, hit, deletable, _, _, _, rfl⟩ | ⟨missing, outcome⟩
  · obtain ⟨rfl, found⟩ := hits (fun _ member => List.mem_append_right _ member) hit
    exact .inr ⟨found, .inl ⟨if_pos rfl, inv.dispatches.replied c x t' live (mem_of_findCd hit)⟩⟩
  · rcases outcome with ⟨errno, _, _, rfl⟩ | ⟨w, ⟨t', rfl, _, hit⟩, rfl⟩
    · exact .inl ⟨errno, if_pos rfl⟩
    · obtain ⟨rfl, tr, found⟩ := hits (fun _ member => List.mem_append_left _ member) hit
      refine .inr ⟨⟨tr, found⟩, .inr ?_⟩
      have blocked : Blocked PicksNew c _ := .asks reach new received done rfl
      obtain ⟨y, waits, wait⟩ : ∃ y, (((σ.begin c .svrgetrply b request).freeBuf b).block c
          (.tran t')).client c = some y ∧ y.wait4 = some (.tran t') :=
          ⟨_, change_eq_some_iff.mpr ⟨_, begun, (if_pos rfl).symm⟩, rfl⟩
      refine ⟨blocked.still, .inl ⟨⟨y, waits, blocked.still.idle y waits, wait⟩, by simp, by simp,
        rfl⟩, ?_⟩
      exact (inv.waits.old (.tran t') (Option.isSome_of_eq_some found)).1

theorem Held.not_reading {handler : Handler} {room : Nat} {got : Bytes} (held : Held c t said φ σ) :
    ¬σ.Reading c handler room got := by
  rintro ⟨x, _, _, live, reads, _⟩
  cases (held.still.idle x live).1.symm.trans reads

section Answer

variable {start ρ ρ' : State} {first tail : List Event} {request : Bytes} {handler : Handler}
  {room : Nat} {got : Bytes}

/-- A client that is read from again after its `TPTGRPLY` has been sent an error, or the transaction
has been given to a worker. -/
theorem dispatched_of_asked (reach : Reachable PicksNew ρ) (meets : Meets PicksNew ρ (e :: tail))
    (received : Received ρ e c .svrgetrply request) (one : ¬AsksAny request)
    (only : ρ.Only c (toshort request) t) (done : step ρ e = .ok ρ')
    (execution : run ρ' tail = .ok τ) (reading : τ.Reading c handler room got) :
    (∃ errno, ρ'.sent c = ρ.sent c ++ errorFrame errno) ∨ τ.Dispatched t := by
  have reach' : Reachable PicksNew ρ' := reach.next meets.1 done
  have later : Reachable anyStep ρ' := reach'.mono fun _ _ _ => trivial
  rcases asked_outcome reach meets.1 received one only done with error | ⟨_, ⟨_, given⟩ | held⟩
  · exact .inl error
  · have early : Reachable anyStep ρ := reach.mono fun _ _ _ => trivial
    exact .inr (dispatched_mono early given (run_cons_ok_iff.mpr ⟨ρ', done, execution⟩))
  · rcases held.run reach' (meets.2 ρ' done) execution with held' | gone | ⟨_, given⟩
    · exact absurd reading held'.not_reading
    · exact absurd (reading.connected (inv_of_reachable (later.run execution))) gone
    · exact .inr given

/-- A client that has asked before the result is complete. -/
theorem Concludes.awaited {tr tr' : Transaction} {bytes : Bytes}
    (concludes : Concludes σ τ t tr bytes) (held : Held tr.client t said {} σ)
    (found : σ.tran t = some tr') :
    τ.sent tr.client = said ++ replyFrame tr bytes := by
  rcases held.rests with rests | ⟨_, gone⟩
  · obtain ⟨y, live, idle, waits⟩ := rests.idle
    have woken := concludes.waiting ⟨y, live, idle, .inr waits⟩
    rw [woken.sent, rests.silent]
  · cases gone.symm.trans found

/-- A client that asks after the result is complete. -/
theorem Concludes.collected {tr : Transaction} {bytes : Bytes}
    (concludes : Concludes σ τ t tr bytes) (reach : Reachable PicksNew τ) (old : t < τ.next)
    (meets : Meets PicksNew τ (first ++ e :: tail)) (ran : run τ first = .ok ρ)
    (done : step ρ e = .ok ρ') (received : Received ρ e tr.client .svrgetrply request)
    (one : ¬AsksAny request) (only : ρ.Only tr.client (toshort request) t)
    (named : toshort request = tr.cd) :
    (∃ errno, ρ'.sent tr.client = ρ.sent tr.client ++ errorFrame errno) ∨
      ρ'.sent tr.client = ρ.sent tr.client ++ replyFrame tr bytes := by
  have reachρ : Reachable PicksNew ρ := reach.meets meets.take ran
  have inv := inv_of_reachable reachρ
  have deleted : ρ.tran t = none →
      ∃ errno, ρ'.sent tr.client = ρ.sent tr.client ++ errorFrame errno := by
    intro gone
    refine (asked_outcome reachρ (meets.drop ran).1 received one only done).resolve_right ?_
    rintro ⟨⟨_, found⟩, _⟩
    cases gone.symm.trans found
  rcases concludes.rest with ⟨gone, _⟩ | answers
  · exact .inl (deleted (deleted_of_run (reach.mono fun _ _ _ => trivial) gone old ran))
  · rcases answers.run reach meets.take ran with answers' | gone
    · obtain ⟨y, live, _⟩ := answers'.queued
      have selects : ρ.Selects request t { tr with executor := none } := by
        refine ⟨y, live, ?_⟩
        rw [if_neg one]
        refine ⟨named, fun t' member tr' found same => only t' tr' found ?_ (same.trans named.symm)⟩
        exact inv.own.owner_eq live (List.mem_append_right _ member) found
      obtain ⟨_, done', sends, _⟩ := answers'.collected inv received selects
      obtain rfl := Except.ok.inj (done.symm.trans done')
      right
      rw [sends.sent]
      exact if_pos rfl
    · exact .inl (deleted gone)

theorem answer_arrives {μ μ' : State} {first' rest' post : List Event} {e' : Event}
    {tr tr' : Transaction} {bytes : Bytes} (reach : Reachable PicksNew start)
    (meets : Meets PicksNew start (first ++ e :: (tail ++ post)))
    (same : first ++ e :: (tail ++ post) = first' ++ e' :: rest') (ran : run start first = .ok ρ)
    (done : step ρ e = .ok ρ') (execution : run ρ' tail = .ok τ)
    (received : Received ρ e c .svrgetrply request) (one : ¬AsksAny request)
    (only : ρ.Only c (toshort request) t) (reading : τ.Reading c handler room got)
    (owner : tr.client = c) (named : toshort request = tr.cd) (ran' : run start first' = .ok μ)
    (done' : step μ e' = .ok μ') (returns : Returns μ e' w) (found : μ.tran t = some tr')
    (concludes : Concludes μ μ' t tr bytes) :
    (∃ errno, ρ'.sent c = ρ.sent c ++ errorFrame errno) ∨
      ρ.sent c ++ replyFrame tr bytes <+: τ.sent c := by
  subst owner
  have reachρ : Reachable PicksNew ρ := reach.meets meets.take ran
  obtain ⟨permits, later⟩ : Meets PicksNew ρ (e :: (tail ++ post)) := meets.drop ran
  have reachρ' : Reachable PicksNew ρ' := reachρ.next permits done
  have anyρ' : Reachable anyStep ρ' := reachρ'.mono fun _ _ _ => trivial
  have meets' : Meets PicksNew start (first' ++ e' :: rest') := same ▸ meets
  have reachμ : Reachable PicksNew μ := reach.meets meets'.take ran'
  have reachμ' : Reachable PicksNew μ' := reachμ.next (meets'.drop ran').1 done'
  have anyμ' : Reachable anyStep μ' := reachμ'.mono fun _ _ _ => trivial
  have old : t < μ'.next :=
    ((inv_of_reachable reachμ).waits.old (.tran t) (Option.isSome_of_eq_some found)).1.trans_le
      (next_le_of_trace (step_trace (inv_of_reachable reachμ) done'))
  rcases run_cases same ran done ran' done' with
    ⟨rfl, rfl, rfl, rfl, rfl⟩ | ⟨between, split, ran''⟩ | ⟨between, rfl, ran''⟩
  · obtain ⟨filled, returned | returned⟩ := returns <;> cases received.symm.trans returned
  · rcases asked_outcome reachρ permits received one only done with error |
      ⟨⟨_, found'⟩, ⟨gone, _⟩ | held⟩
    · exact .inl error
    · have young : t < ρ'.next :=
        ((inv_of_reachable reachρ).waits.old (.tran t) (Option.isSome_of_eq_some found')).1.trans_le
          (next_le_of_trace (step_trace (inv_of_reachable reachρ) done))
      cases (deleted_of_run anyρ' gone young ran'').symm.trans found
    · right
      have holds : ∀ {events rest ω more}, tail ++ post = events ++ rest → run ρ' events = .ok ω →
          run ω more = .ok μ → Held tr.client t (ρ.sent tr.client) {} ω ∨
          tr.client ∉ ω.clients := by
        intro events rest ω more split ran until_
        have meets'' : Meets PicksNew ρ' (events ++ rest) := split ▸ later ρ' done
        rcases held.run reachρ' meets''.take ran with held' | gone | ⟨gone, _⟩
        · exact .inl held'
        · exact .inr gone
        · have young : t < ω.next := held.old.trans_le (next_le_of_run anyρ' ran)
          cases (deleted_of_run (anyρ'.run ran) gone young until_).symm.trans found
      have connected := reading.connected (inv_of_reachable (anyρ'.run execution))
      rcases append_cons_cases split with ⟨more, rfl, _⟩ | ⟨more, rfl, _⟩
      · have rest := run_of_split execution ran'' done'
        rcases holds split ran'' (show run μ [] = .ok μ from rfl) with held' | gone
        · rw [← concludes.awaited held' found]
          exact sent_of_run anyμ' rest _
        · have old' : tr.client < μ.next := held.still.old.trans_le (next_le_of_run anyρ' ran'')
          exact absurd connected (gone_of_run (anyρ'.run ran'') gone old'
            (run_cons_ok_iff.mpr ⟨μ', done', rest⟩))
      · obtain ⟨_, execution', until_⟩ := run_append_ok_iff.mp ran''
        obtain rfl := Except.ok.inj (execution.symm.trans execution')
        rcases holds rfl execution until_ with held' | gone
        · exact absurd reading held'.not_reading
        · exact absurd connected gone
  · refine (concludes.collected reachμ' old (meets'.drop ran' |>.2 μ' done') ran'' done received one
      only named).imp_right
      fun sent => ?_
    rw [← sent]
    exact sent_of_run anyρ' execution _

end Answer

end Switchboard
end Xatmi
