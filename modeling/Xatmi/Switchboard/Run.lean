import Xatmi.Switchboard.Handlers

/-!
# Runs of the switchboard

`Iowait` serves one ready descriptor after another.  A run is any sequence of such events, each
with its own choices of the environment, in which the process does not die; a state is reachable
under a condition on steps when some run whose steps all meet the condition ends there.
-/

namespace Xatmi
namespace Switchboard

open Program

/-- What `select` reports. -/
inductive Happening
  /-- A connection on the master socket. -/
  | connect
  /-- Client `c` is readable: an error, or the bytes to be had (none at end of file). -/
  | ready (c : ClientId) (input : Option Bytes)

/-- One event and the choices of the environment while it is handled. -/
structure Event where
  env : Env
  happening : Happening

/-- Handle one event.  Only clients on `tpclients` are visited. -/
def handle (e : Event) : M PUnit := do
  match e.happening with
  | .connect => do
      let c ← newClient
      svrNextCommand c
  | .ready c input => do
      let σ ← get
      if c ∈ σ.clients then serve e.env c input else pure ()

/-- The state after one event. -/
def step (σ : State) (e : Event) : Except Fault State :=
  (handle e σ).map Prod.snd

/-- The state after a sequence of events. -/
def run (σ : State) : List Event → Except Fault State
  | [] => .ok σ
  | e :: events => (step σ e).bind fun σ' => run σ' events

theorem run_cons_ok_iff {σ τ : State} {e : Event} {events : List Event} :
    run σ (e :: events) = .ok τ ↔ ∃ μ, step σ e = .ok μ ∧ run μ events = .ok τ := by
  cases done : step σ e <;> simp [run, done, Except.bind]

theorem run_append_ok_iff {σ τ : State} {first rest : List Event} :
    run σ (first ++ rest) = .ok τ ↔ ∃ μ, run σ first = .ok μ ∧ run μ rest = .ok τ := by
  induction first generalizing σ with
  | nil => simp [run]
  | cons e first ih =>
      rw [List.cons_append]
      simp only [run_cons_ok_iff, ih]
      exact ⟨fun ⟨μ, done, ρ, ran, later⟩ => ⟨ρ, ⟨μ, done, ran⟩, later⟩,
        fun ⟨ρ, ⟨μ, done, ran⟩, later⟩ => ⟨μ, done, ρ, ran, later⟩⟩

/-- The switchboard before its first event. -/
def State.start : State := {}

/-- Reachable by steps which all meet `allowed`. -/
inductive Reachable (allowed : State → Event → Prop) : State → Prop
  | start : Reachable allowed .start
  | next {before after : State} {e : Event} :
      Reachable allowed before →
      allowed before e →
      step before e = .ok after →
      Reachable allowed after

/-- No restriction on the steps of a run. -/
def anyStep (_ : State) (_ : Event) : Prop := True

theorem Reachable.mono {allowed wider : State → Event → Prop} {σ : State}
    (weaken : ∀ σ e, allowed σ e → wider σ e) (reach : Reachable allowed σ) :
    Reachable wider σ := by
  induction reach with
  | start => exact .start
  | next _ ok done earlier => exact .next earlier (weaken _ _ ok) done

/-- A run from a reachable state ends in a reachable state. -/
theorem Reachable.run {σ final : State} {events : List Event} (reach : Reachable anyStep σ)
    (execution : run σ events = .ok final) : Reachable anyStep final := by
  induction events generalizing σ with
  | nil =>
      obtain rfl : σ = final := Except.ok.inj execution
      exact reach
  | cons e events ih =>
      obtain ⟨middle, done, execution⟩ := run_cons_ok_iff.mp execution
      exact ih (.next reach trivial done) execution

/-- Every step of a run of `events` from `σ` meets `allowed`, and none is fatal. -/
def permitted (allowed : State → Event → Prop) [∀ σ e, Decidable (allowed σ e)] (σ : State) :
    List Event → Bool
  | [] => true
  | e :: events => decide (allowed σ e) &&
      match step σ e with
      | .ok σ' => permitted allowed σ' events
      | .error _ => false

theorem Reachable.of_permitted {allowed : State → Event → Prop} [∀ σ e, Decidable (allowed σ e)]
    {σ : State} {events : List Event} (reach : Reachable allowed σ)
    (steps : permitted allowed σ events = true) :
    ∃ final, Switchboard.run σ events = .ok final ∧ Reachable allowed final := by
  induction events generalizing σ with
  | nil => exact ⟨σ, rfl, reach⟩
  | cons e events ih =>
      obtain ⟨ok, rest⟩ := Bool.and_eq_true_iff.mp steps
      cases done : step σ e with
      | error fault => simp [done] at rest
      | ok middle =>
          simp only [done] at rest
          obtain ⟨final, execution, reached⟩ := ih (.next reach (of_decide_eq_true ok) done) rest
          refine ⟨final, ?_, reached⟩
          simpa [Switchboard.run, done, Except.bind] using execution

/-- One memory leads to another by steps which all meet `allowed`. -/
def Steps (allowed : State → Event → Prop) : State → State → Prop :=
  Relation.ReflTransGen fun μ ν => ∃ e, allowed μ e ∧ step μ e = .ok ν

theorem Reachable.steps {allowed wider : State → Event → Prop} {σ τ : State}
    (weaken : ∀ σ e, allowed σ e → wider σ e) (reach : Reachable wider σ)
    (steps : Steps allowed σ τ) :
    Reachable wider τ := by
  induction steps with
  | refl => exact reach
  | tail _ last earlier =>
      obtain ⟨e, ok, done⟩ := last
      exact .next earlier (weaken _ _ ok) done

theorem steps_of_permitted {allowed : State → Event → Prop} [∀ σ e, Decidable (allowed σ e)]
    {σ τ : State} {events : List Event} (execution : run σ events = .ok τ)
    (steps : permitted allowed σ events = true) :
    Steps allowed σ τ := by
  induction events generalizing σ with
  | nil =>
      obtain rfl := Except.ok.inj execution
      exact .refl
  | cons e events ih =>
      obtain ⟨μ, done, execution⟩ := run_cons_ok_iff.mp execution
      obtain ⟨ok, rest⟩ := Bool.and_eq_true_iff.mp steps
      simp only [done] at rest
      exact .head ⟨e, of_decide_eq_true ok, done⟩ (ih execution rest)

/-- Every step of a run of `events` from `σ` meets `allowed`. -/
def Meets (allowed : State → Event → Prop) (σ : State) : List Event → Prop
  | [] => True
  | e :: events => allowed σ e ∧ ∀ τ, step σ e = .ok τ → Meets allowed τ events

theorem meets_anyStep (σ : State) (events : List Event) : Meets anyStep σ events := by
  induction events generalizing σ with
  | nil => trivial
  | cons e events ih => exact ⟨trivial, fun τ _ => ih τ⟩

theorem Meets.of_permitted {allowed : State → Event → Prop} [∀ σ e, Decidable (allowed σ e)]
    {σ : State} {events : List Event} (steps : permitted allowed σ events = true) :
    Meets allowed σ events := by
  induction events generalizing σ with
  | nil => trivial
  | cons e events ih =>
      obtain ⟨ok, rest⟩ := Bool.and_eq_true_iff.mp steps
      refine ⟨of_decide_eq_true ok, fun τ done => ih ?_⟩
      simpa only [done] using rest

/-- What is left of a run after its first part meets the condition too. -/
theorem Meets.drop {allowed : State → Event → Prop} {σ τ : State} {first rest : List Event}
    (meets : Meets allowed σ (first ++ rest)) (execution : run σ first = .ok τ) :
    Meets allowed τ rest := by
  induction first generalizing σ with
  | nil =>
      obtain rfl := Except.ok.inj execution
      exact meets
  | cons e first ih =>
      obtain ⟨μ, done, execution⟩ := run_cons_ok_iff.mp execution
      exact ih (meets.2 μ done) execution

theorem Meets.take {allowed : State → Event → Prop} {σ : State} {first rest : List Event}
    (meets : Meets allowed σ (first ++ rest)) : Meets allowed σ first := by
  induction first generalizing σ with
  | nil => trivial
  | cons e first ih => exact ⟨meets.1, fun τ done => ih (meets.2 τ done)⟩

theorem Reachable.meets {allowed : State → Event → Prop} {σ τ : State} {events : List Event}
    (reach : Reachable allowed σ) (meets : Meets allowed σ events)
    (execution : Switchboard.run σ events = .ok τ) :
    Reachable allowed τ := by
  induction events generalizing σ with
  | nil =>
      obtain rfl := Except.ok.inj execution
      exact reach
  | cons e events ih =>
      obtain ⟨μ, done, execution⟩ := run_cons_ok_iff.mp execution
      exact ih (.next reach meets.1 done) (meets.2 μ done) execution

/-- An environment which visits trees in order of insertion. -/
def Env.plain (sec : Nat) (cd : BitVec 16) : Env where
  walk := id
  walk_perm := fun _ => .refl _
  arrival := ⟨sec, 0⟩
  cd := cd

end Switchboard
end Xatmi
