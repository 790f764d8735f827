import Mathlib.Logic.Relation
import Mathlib.Data.List.Basic
import Mathlib.Tactic.Common

/-!
# Programs that may fault

A program transforms a state and either returns a value or faults.  A fault discards the state:
nothing is observed of a program after it.  Every definition here is an instance of `StateT` over
`Except`, so programs are written with `do`; this file gives the inversion rules for successful
executions, the rules for total correctness, and the two loop forms used by imperative code.
-/

namespace Program

/-- A program over states `σ` which returns an `α` or faults with an `ε`. -/
abbrev Prog (ε σ α : Type) := StateT σ (Except ε) α

variable {ε σ α β : Type}

/-! ## Inversion of successful executions -/

/-- A sequence succeeds exactly when its first part does and the rest succeeds from there. -/
theorem bind_ok_iff {first : Prog ε σ α} {rest : α → Prog ε σ β} {before : σ} {result : β × σ} :
    (first >>= rest) before = .ok result ↔
      ∃ value middle, first before = .ok (value, middle) ∧ rest value middle = .ok result := by
  change (first before >>= fun outcome => rest outcome.1 outcome.2) = .ok result ↔ _
  cases h : first before with
  | error fault => simp [bind, Except.bind]
  | ok outcome =>
      obtain ⟨value, middle⟩ := outcome
      simp [bind, Except.bind]

/-- A sequence whose first part succeeds goes on with the rest. -/
theorem bind_of_ok {first : Prog ε σ α} {rest : α → Prog ε σ β} {before middle : σ} {value : α}
    (done : first before = .ok (value, middle)) : (first >>= rest) before = rest value middle := by
  change (first before >>= fun outcome => rest outcome.1 outcome.2) = _
  rw [done]
  rfl

/-- The same for a statement. -/
theorem seq_of_ok {first : Prog ε σ PUnit} {rest : PUnit → Prog ε σ β} {before middle : σ}
    (done : first before = .ok (⟨⟩, middle)) : (first >>= rest) before = rest ⟨⟩ middle :=
  bind_of_ok done

theorem bind_of_error {first : Prog ε σ α} {rest : α → Prog ε σ β} {before : σ} {fault : ε}
    (faults : first before = .error fault) : (first >>= rest) before = .error fault := by
  change (first before >>= fun outcome => rest outcome.1 outcome.2) = _
  rw [faults]
  rfl

/-- What comes after the first part matters only where the first part can end. -/
theorem bind_congr_of_ok {first : Prog ε σ α} {rest rest' : α → Prog ε σ β} {before : σ}
    (same : ∀ value middle, first before = .ok (value, middle) →
      rest value middle = rest' value middle) :
    (first >>= rest) before = (first >>= rest') before := by
  cases h : first before with
  | error fault => rw [bind_of_error h, bind_of_error h]
  | ok outcome =>
      obtain ⟨value, middle⟩ := outcome
      rw [bind_of_ok h, bind_of_ok h, same value middle h]

theorem pure_ok_iff {value result : α} {before after : σ} :
    (pure value : Prog ε σ α) before = .ok (result, after) ↔ result = value ∧ after = before := by
  change (Except.ok (value, before) : Except ε (α × σ)) = .ok (result, after) ↔ _
  simp [eq_comm]

theorem get_ok_iff {before result after : σ} :
    (get : Prog ε σ σ) before = .ok (result, after) ↔ result = before ∧ after = before := by
  change (Except.ok (before, before) : Except ε (σ × σ)) = .ok (result, after) ↔ _
  simp [eq_comm]

theorem set_ok_iff {next before after : σ} {result : PUnit} :
    (set next : Prog ε σ PUnit) before = .ok (result, after) ↔ after = next := by
  change (Except.ok (PUnit.unit, next) : Except ε (PUnit × σ)) = .ok (result, after) ↔ _
  simp [eq_comm]

theorem modify_ok_iff {update : σ → σ} {before after : σ} {result : PUnit} :
    (modify update : Prog ε σ PUnit) before = .ok (result, after) ↔ after = update before := by
  change (Except.ok (PUnit.unit, update before) : Except ε (PUnit × σ)) = .ok (result, after) ↔ _
  simp [eq_comm]

theorem throw_ok_iff {fault : ε} {before : σ} {result : α × σ} :
    (throw fault : Prog ε σ α) before = .ok result ↔ False := by
  change (Except.error fault : Except ε (α × σ)) = .ok result ↔ _
  simp

/-- The state a program leaves. -/
theorem map_snd_ok_iff {outcome : Except ε (α × σ)} {after : σ} :
    outcome.map Prod.snd = .ok after ↔ ∃ value, outcome = .ok (value, after) := by
  cases outcome with
  | error fault => simp [Except.map]
  | ok result =>
      obtain ⟨value, state⟩ := result
      simp [Except.map]

/-- Look something up in the state, faulting when it is not there. -/
def demand (fault : ε) (find : σ → Option α) : Prog ε σ α := do
  match find (← get) with
  | some value => pure value
  | none => throw fault

theorem demand_ok_iff {fault : ε} {find : σ → Option α} {before after : σ} {result : α} :
    demand fault find before = .ok (result, after) ↔
      find before = some result ∧ after = before := by
  simp only [demand, bind_ok_iff, get_ok_iff]
  constructor
  · rintro ⟨_, _, ⟨rfl, rfl⟩, found⟩
    cases lookup : find _ with
    | none => simp [lookup, throw_ok_iff] at found
    | some value =>
        simp only [lookup, pure_ok_iff] at found
        simp [found]
  · rintro ⟨found, rfl⟩
    exact ⟨_, _, ⟨rfl, rfl⟩, by simp [found, pure_ok_iff]⟩

theorem demand_of_none {fault : ε} {find : σ → Option α} {before : σ} (none_ : find before = none) :
    demand fault find before = .error fault := by
  rw [demand, bind_of_ok (get_ok_iff.mpr ⟨rfl, rfl⟩), none_]
  rfl

/-! ## Loops -/

/-- `while (cond) body`, given up with `fault` when `bound` rounds do not end it. -/
def whileLoop (fault : ε) (cond : Prog ε σ Bool) (body : Prog ε σ PUnit) : Nat → Prog ε σ PUnit
  | 0 => do
      if ← cond then throw fault else pure ()
  | bound + 1 => do
      if ← cond then do
        body
        whileLoop fault cond body bound
      else
        pure ()

variable {fault : ε} {cond : Prog ε σ Bool} {body : Prog ε σ PUnit}

/-- Rule for loops whose test does not change the state: what every round keeps holds at the end,
and the test fails there. -/
theorem whileLoop_ok {motive : σ → Prop} {bound : Nat} {before after : σ} {result : PUnit}
    (loop : whileLoop fault cond body bound before = .ok (result, after)) (start : motive before)
    (test : ∀ {s s' goes}, cond s = .ok (goes, s') → s' = s)
    (round : ∀ {s s' done}, motive s → cond s = .ok (true, s) → body s = .ok (done, s') →
      motive s') :
    motive after ∧ cond after = .ok (false, after) := by
  induction bound generalizing before with
  | zero =>
      obtain ⟨goes, middle, tested, rest⟩ := bind_ok_iff.mp loop
      obtain rfl := test tested
      cases goes with
      | false =>
          obtain ⟨_, rfl⟩ := pure_ok_iff.mp rest
          exact ⟨start, tested⟩
      | true => exact (throw_ok_iff.mp rest).elim
  | succ bound ih =>
      obtain ⟨goes, middle, tested, rest⟩ := bind_ok_iff.mp loop
      obtain rfl := test tested
      cases goes with
      | false =>
          obtain ⟨_, rfl⟩ := pure_ok_iff.mp rest
          exact ⟨start, tested⟩
      | true =>
          obtain ⟨_, later, worked, again⟩ := bind_ok_iff.mp rest
          exact ih again (round start tested worked)

/-- Total correctness of a loop: every round makes the variant smaller. -/
theorem whileLoop_total {motive : σ → Prop} (variant : σ → Nat) {bound : Nat} {before : σ}
    (start : motive before) (enough : variant before ≤ bound)
    (test : ∀ {s}, motive s → ∃ goes, cond s = .ok (goes, s))
    (round : ∀ {s}, motive s → cond s = .ok (true, s) →
      ∃ s', body s = .ok (⟨⟩, s') ∧ motive s' ∧ variant s' < variant s) :
    ∃ after, whileLoop fault cond body bound before = .ok (⟨⟩, after) ∧ motive after ∧
      cond after = .ok (false, after) := by
  induction bound generalizing before with
  | zero =>
      obtain ⟨goes, tested⟩ := test start
      cases goes with
      | false => exact ⟨before, bind_of_ok tested, start, tested⟩
      | true =>
          obtain ⟨_, _, _, less⟩ := round start tested
          omega
  | succ bound ih =>
      obtain ⟨goes, tested⟩ := test start
      cases goes with
      | false => exact ⟨before, bind_of_ok tested, start, tested⟩
      | true =>
          obtain ⟨next, worked, kept, less⟩ := round start tested
          obtain ⟨after, loop, final⟩ := ih kept (by omega)
          exact ⟨after, (bind_of_ok tested).trans ((seq_of_ok worked).trans loop), final⟩

theorem whileLoop_congr {motive : σ → Prop} {body' : Prog ε σ PUnit} {bound : Nat} {before : σ}
    (start : motive before) (test : ∀ {s s' goes}, cond s = .ok (goes, s') → s' = s)
    (same : ∀ {s}, motive s → cond s = .ok (true, s) → body' s = body s)
    (round : ∀ {s s' done}, motive s → cond s = .ok (true, s) → body s = .ok (done, s') →
      motive s') :
    whileLoop fault cond body' bound before = whileLoop fault cond body bound before := by
  induction bound generalizing before with
  | zero => rfl
  | succ bound ih =>
      refine bind_congr_of_ok fun goes middle tested => ?_
      obtain rfl := test tested
      cases goes with
      | false => rfl
      | true =>
          change (body' >>= _) middle = (body >>= _) middle
          cases worked : body middle with
          | error fault =>
              rw [bind_of_error worked, bind_of_error ((same start tested).trans worked)]
          | ok outcome =>
              obtain ⟨done, later⟩ := outcome
              rw [bind_of_ok worked, bind_of_ok ((same start tested).trans worked)]
              exact ih (round start tested worked)

/-- A loop whose first round does not return does not return. -/
theorem whileLoop_ne_ok {bound : Nat} {before after : σ} {result : PUnit}
    (test : ∀ {s' goes}, cond before = .ok (goes, s') → goes = true ∧ s' = before)
    (stuck : ∀ {s' done}, body before ≠ .ok (done, s')) :
    whileLoop fault cond body bound before ≠ .ok (result, after) := by
  intro loop
  cases bound with
  | zero =>
      obtain ⟨goes, middle, tested, rest⟩ := bind_ok_iff.mp loop
      obtain ⟨rfl, rfl⟩ := test tested
      exact throw_ok_iff.mp rest
  | succ bound =>
      obtain ⟨goes, middle, tested, rest⟩ := bind_ok_iff.mp loop
      obtain ⟨rfl, rfl⟩ := test tested
      obtain ⟨_, later, worked, _⟩ := bind_ok_iff.mp rest
      exact stuck worked

/-! ## Faults -/

/-- A sequence faults exactly when its first part does, or succeeds and the rest faults. -/
theorem bind_error_iff {first : Prog ε σ α} {rest : α → Prog ε σ β} {before : σ} {fault : ε} :
    (first >>= rest) before = .error fault ↔ first before = .error fault ∨
      ∃ value middle, first before = .ok (value, middle) ∧ rest value middle = .error fault := by
  change (first before >>= fun outcome => rest outcome.1 outcome.2) = .error fault ↔ _
  cases h : first before with
  | error fault' => simp [bind, Except.bind]
  | ok outcome =>
      obtain ⟨value, middle⟩ := outcome
      simp [bind, Except.bind]

theorem map_error_iff {view : α → β} {outcome : Except ε α} {fault : ε} :
    outcome.map view = .error fault ↔ outcome = .error fault := by
  cases outcome <;> simp [Except.map]

/-- The program does not fault with `fault`, whatever it is started in. -/
abbrev Avoids (fault : ε) (program : Prog ε σ α) : Prop :=
  ∀ before, program before ≠ .error fault

namespace Avoids

variable {other : ε} {first : Prog ε σ α} {rest : α → Prog ε σ β}

theorem pure (value : α) : Avoids fault (Pure.pure value : Prog ε σ α) := by
  rintro before ⟨⟩

theorem get : Avoids fault (MonadState.get : Prog ε σ σ) := by
  rintro before ⟨⟩

theorem set (next : σ) : Avoids fault (MonadStateOf.set next : Prog ε σ PUnit) := by
  rintro before ⟨⟩

theorem modify (update : σ → σ) :
    Avoids fault (modifyGet fun s => (PUnit.unit, update s) : Prog ε σ PUnit) := by
  rintro before ⟨⟩

theorem throw (different : other ≠ fault) :
    Avoids fault (MonadExcept.throw other : Prog ε σ α) := by
  intro before faults
  exact different (Except.error.inj faults)

theorem bind (one : Avoids fault first) (two : ∀ value, Avoids fault (rest value)) :
    Avoids fault (first >>= rest) := by
  intro before faults
  rcases bind_error_iff.mp faults with early | ⟨value, middle, _, late⟩
  · exact one before early
  · exact two value middle late

/-- A sequence can only fault in its second part. -/
theorem later (one : Avoids fault first) {before : σ}
    (faults : (first >>= rest) before = .error fault) :
    ∃ value middle, first before = .ok (value, middle) ∧ rest value middle = .error fault :=
  (bind_error_iff.mp faults).resolve_left (one before)

theorem demand {find : σ → Option α} (different : other ≠ fault) :
    Avoids fault (demand other find) := by
  refine get.bind fun s => ?_
  cases find s with
  | none => exact throw different
  | some value => exact pure value

theorem ite {p : Prop} [Decidable p] {yes no : Prog ε σ α} (one : Avoids fault yes)
    (two : Avoids fault no) : Avoids fault (if p then yes else no) := by
  split
  · exact one
  · exact two

theorem whileLoop {bound : Nat} (different : other ≠ fault) (test : Avoids fault cond)
    (round : Avoids fault body) : Avoids fault (whileLoop other cond body bound) := by
  induction bound with
  | zero =>
      refine test.bind fun goes => ?_
      cases goes with
      | true => exact throw different
      | false => exact pure _
  | succ bound ih =>
      refine test.bind fun goes => ?_
      cases goes with
      | true => exact round.bind fun _ => ih
      | false => exact pure _

theorem forM {visit : α → Prog ε σ PUnit} (each : ∀ x, Avoids fault (visit x)) (xs : List α) :
    Avoids fault (xs.forM visit) := by
  induction xs with
  | nil => exact pure _
  | cons x xs ih => exact (each x).bind fun _ => ih

end Avoids

/-- A loop that faults otherwise than by running out of rounds faults in its test or in a round. -/
theorem whileLoop_error {motive : σ → Prop} {other : ε} {bound : Nat} {before : σ}
    (different : fault ≠ other) (loop : whileLoop fault cond body bound before = .error other)
    (start : motive before) (test : ∀ {s s' goes}, cond s = .ok (goes, s') → s' = s)
    (round : ∀ {s s' done}, motive s → cond s = .ok (true, s) → body s = .ok (done, s') →
      motive s') :
    ∃ s, motive s ∧ (cond s = .error other ∨ cond s = .ok (true, s) ∧ body s = .error other) := by
  induction bound generalizing before with
  | zero =>
      rcases bind_error_iff.mp loop with faults | ⟨goes, middle, tested, rest⟩
      · exact ⟨before, start, .inl faults⟩
      · cases goes with
        | false => exact absurd rest (Avoids.pure _ _)
        | true => exact absurd rest (Avoids.throw different _)
  | succ bound ih =>
      rcases bind_error_iff.mp loop with faults | ⟨goes, middle, tested, rest⟩
      · exact ⟨before, start, .inl faults⟩
      · obtain rfl := test tested
        cases goes with
        | false => exact absurd rest (Avoids.pure _ _)
        | true =>
            rcases bind_error_iff.mp rest with faults | ⟨_, later, worked, again⟩
            · exact ⟨middle, start, .inr ⟨tested, faults⟩⟩
            · exact ih again (round start tested worked)

end Program
