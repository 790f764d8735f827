import Xatmi.Lib.Words

/-!
# Digits stored from the end

The loop `do *--p = digit(i); while (i = quotient(i))`, which stores the digits of a number from the
last to the first in front of a pointer.
-/

namespace Radix

open Words

variable {β : Type}

/-- The loop with `p` bytes in front of the pointer: where the pointer ends, and the memory. There
is no result when a digit would be stored in front of the first byte. -/
def fillBack [DecidableEq β] (digit : β → BitVec 8) (quotient : β → β) (zero : β) :
    Nat → β → Cells → Option (Nat × Cells)
  | 0, _, _ => none
  | p + 1, i, cell =>
      let cell := copy cell p [digit i]
      if quotient i = zero then some (p, cell) else fillBack digit quotient zero p (quotient i) cell

/-- The numbers `val n` of a machine are divided by `base`, and their last digits are stored as
`code` has them. -/
structure Divides (base : Nat) (val : Nat → β) (code : Char → BitVec 8) (digit : β → BitVec 8)
    (quotient : β → β) (n : Nat) : Prop where
  one_lt : 1 < base
  last : ∀ m ≤ n, digit (val m) = code (Nat.digitChar (m % base))
  rest : ∀ m ≤ n, quotient (val m) = val (m / base)
  injective : ∀ m ≤ n, val m = val 0 → m = 0

variable {base p n : Nat} {val : Nat → β} {code : Char → BitVec 8} {digit : β → BitVec 8}
  {quotient : β → β}

theorem Divides.mono {m : Nat} (divides : Divides base val code digit quotient n) (le : m ≤ n) :
    Divides base val code digit quotient m :=
  ⟨divides.one_lt, fun k small => divides.last k (Nat.le_trans small le),
    fun k small => divides.rest k (Nat.le_trans small le),
    fun k small => divides.injective k (Nat.le_trans small le)⟩

theorem Divides.quotient_eq_zero_iff (divides : Divides base val code digit quotient n) :
    quotient (val n) = val 0 ↔ n < base := by
  have positive : 0 < base := Nat.zero_lt_of_lt divides.one_lt
  rw [divides.rest n (Nat.le_refl n)]
  constructor
  · intro zero
    have none_ := divides.injective (n / base) (Nat.div_le_self n base) zero
    exact (Nat.div_eq_zero_iff_lt positive).mp none_
  · intro small
    rw [Nat.div_eq_of_lt small]

variable [DecidableEq β]

/-- The digits fit: they are stored in front of the pointer, and nothing else is touched. -/
theorem fillBack_of_le (divides : Divides base val code digit quotient n) (cell : Cells)
    (fits : (Nat.toDigits base n).length ≤ p) :
    ∃ filled, fillBack digit quotient (val 0) p (val n) cell =
        some (p - (Nat.toDigits base n).length, filled) ∧
      bytes filled (p - (Nat.toDigits base n).length) (Nat.toDigits base n).length =
        (Nat.toDigits base n).map code ∧
      ∀ i, p ≤ i → filled i = cell i := by
  induction p generalizing n cell with
  | zero =>
      have := Nat.length_toDigits_pos (b := base) (n := n)
      omega
  | succ p ih =>
      set stored := copy cell p [digit (val n)] with stored_eq
      have last : stored p = code (Nat.digitChar (n % base)) := by
        rw [← divides.last n (Nat.le_refl n), stored_eq]
        simp [copy]
      have behind : ∀ i, p + 1 ≤ i → stored i = cell i :=
        fun i later => copy_of_outside (.inr later)
      by_cases small : n < base
      · have digits := Nat.toDigits_of_lt_base small
        refine ⟨stored, ?_, ?_, behind⟩
        · simp only [fillBack, if_pos (divides.quotient_eq_zero_iff.mpr small), digits]
          rfl
        · simp [digits, bytes, last, Nat.mod_eq_of_lt small]
      · have digits := Nat.toDigits_of_base_le divides.one_lt (Nat.le_of_not_lt small)
        have length : (Nat.toDigits base n).length = (Nat.toDigits base (n / base)).length + 1 := by
          rw [digits, List.length_append]
          rfl
        obtain ⟨filled, done, read, kept⟩ :=
          ih (divides.mono (Nat.div_le_self n base)) stored (by omega)
        have start : p + 1 - (Nat.toDigits base n).length = p -
            (Nat.toDigits base (n / base)).length := by
          omega
        refine ⟨filled, ?_, ?_, fun i later => (kept i (Nat.le_of_succ_le later)).trans
          (behind i later)⟩
        · rw [start, ← done, ← divides.rest n (Nat.le_refl n)]
          simp only [fillBack, if_neg (mt divides.quotient_eq_zero_iff.mp small), stored_eq]
        · have there : p - (Nat.toDigits base (n / base)).length +
              (Nat.toDigits base (n / base)).length = p := by
            omega
          rw [start, length, bytes_succ, read, there, kept p (Nat.le_refl p), last, digits,
            List.map_append]
          rfl

theorem fillBack_of_lt (divides : Divides base val code digit quotient n) (cell : Cells)
    (long : p < (Nat.toDigits base n).length) :
    fillBack digit quotient (val 0) p (val n) cell = none := by
  induction p generalizing n cell with
  | zero => rfl
  | succ p ih =>
      have large : ¬n < base := by
        intro small
        rw [Nat.toDigits_of_lt_base small] at long
        simp at long
      have digits := Nat.toDigits_of_base_le divides.one_lt (Nat.le_of_not_lt large)
      simp only [fillBack, if_neg (mt divides.quotient_eq_zero_iff.mp large)]
      rw [divides.rest n (Nat.le_refl n)]
      refine ih (divides.mono (Nat.div_le_self n base)) _ ?_
      rw [digits, List.length_append, List.length_singleton] at long
      omega

/-! ## Machine words -/

variable {w m : Nat}

theorem ofNat_umod_ofNat (number : m < 2 ^ w) (divisor : base < 2 ^ w) :
    BitVec.ofNat w m % BitVec.ofNat w base = BitVec.ofNat w (m % base) := by
  apply BitVec.eq_of_toNat_eq
  simp only [BitVec.toNat_umod, BitVec.toNat_ofNat, Nat.mod_eq_of_lt number,
    Nat.mod_eq_of_lt divisor]
  rw [Nat.mod_eq_of_lt (Nat.lt_of_le_of_lt (Nat.mod_le m base) number)]

theorem ofNat_udiv_ofNat (number : m < 2 ^ w) (divisor : base < 2 ^ w) :
    BitVec.ofNat w m / BitVec.ofNat w base = BitVec.ofNat w (m / base) := by
  apply BitVec.eq_of_toNat_eq
  simp only [BitVec.toNat_udiv, BitVec.toNat_ofNat, Nat.mod_eq_of_lt number,
    Nat.mod_eq_of_lt divisor]
  rw [Nat.mod_eq_of_lt (Nat.lt_of_le_of_lt (Nat.div_le_self m base) number)]

end Radix
