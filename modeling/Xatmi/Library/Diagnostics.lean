import Xatmi.Lib.Radix
import Xatmi.ByteOrder
import Mathlib.Tactic.IntervalCases

/-!
# What the library says when a write fails

`tx_write` reports a write that fell short with a few calls of `write`, and converts the numbers
itself: `writei` and `writex` store digits from the end of a buffer of ten bytes. There is no result
where they store or read outside an object.
-/

namespace Xatmi
namespace Library
namespace Diagnostics

/-- `sizeof b` in `writei` and in `writex`. -/
def DIGITS : Nat := 10

/-- A character in memory. -/
def code (ch : Char) : Byte :=
  BitVec.ofNat 8 ch.toNat

/-- A string literal in memory. -/
def literal (text : String) : Bytes :=
  text.toList.map code ++ [0]

/-- `write(2, s, l)`, and what it writes. -/
def write (s : Bytes) (l : Nat) : Option Bytes :=
  if l ≤ s.length then some (s.take l) else none

/-- The bytes from `p` to the end of `b`. -/
def tail : Nat × Words.Cells → Bytes
  | (p, b) => Words.bytes b p (DIGITS - p)

/-- `*--p = ch`. -/
def push (ch : Char) : Nat × Words.Cells → Option (Nat × Words.Cells)
  | (0, _) => none
  | (p + 1, b) => some (p, Words.copy b p [code ch])

/-- The loop of `writei`. -/
def decimalDigits (i : BitVec 32) : Option (Nat × Words.Cells) :=
  Radix.fillBack (fun i => (BitVec.ofNat 32 '0'.toNat + i.srem 10).setWidth 8) (fun i => i.sdiv 10)
    0 DIGITS i
    fun _ => 0

/-- `writei`; negating the least `int` gives the same `int`. -/
def writei (s : Bytes) (l : Nat) (i : BitVec 32) : Option Bytes := do
  let neg := i.toInt < 0
  let digits ← decimalDigits (if neg then -i else i)
  let text ← write s l
  pure (text ++ (if neg then [code '-'] else []) ++ tail digits)

/-- The loop of `writex`. -/
def hexDigits (i : BitVec 64) : Option (Nat × Words.Cells) :=
  Radix.fillBack (fun i => ("0123456789abcdef".toList.map code).getD (i.umod 16).toNat 0)
    (fun i => i.udiv 16) 0 DIGITS i fun _ => 0

/-- `writex`. -/
def writex (s : Bytes) (l : Nat) (p : BitVec 64) : Option Bytes := do
  let digits ← hexDigits p
  let digits ← push 'x' digits
  let digits ← push '0' digits
  let text ← write s l
  pure (text ++ tail digits)

/-- The report of `tx_write`. -/
def report (server : BitVec 32) (val : BitVec 64) (len ret : BitVec 32) : Option Bytes := do
  let call ← writei (literal "write(") 6 server
  let first ← writex (literal ", ") 4 val
  let second ← writei (literal ", ") 2 len
  let result ← writei (literal ") returned ") 11 ret
  let rest ← write (literal ".  expect to go down with the ship.\n") 36
  pure (call ++ first ++ second ++ result ++ rest)

/-! ## Representations -/

/-- The decimal representation of a number. -/
def decimal (i : Int) : Bytes :=
  (toString i).toList.map code

/-- The hexadecimal representation of an address. -/
def hexadecimal (n : Nat) : Bytes :=
  ("0x".toList ++ Nat.toDigits 16 n).map code

theorem decimal_natCast (n : Nat) : decimal n = (Nat.toDigits 10 n).map code := by
  have digits : (toString (n : Int)).toList = Nat.toDigits 10 n := Nat.toList_repr
  rw [decimal, digits]

theorem decimal_neg {n : Nat} (positive : 0 < n) :
    decimal (-n) = code '-' :: (Nat.toDigits 10 n).map code := by
  obtain ⟨m, rfl⟩ := Nat.exists_eq_succ_of_ne_zero positive.ne'
  have digits : (toString (-((m + 1 : Nat) : Int))).toList = '-' :: Nat.toDigits 10 (m + 1) := by
    change ("-" ++ (m + 1).repr).toList = _
    rw [String.toList_append, Nat.toList_repr]
    rfl
  rw [decimal, digits, List.map_cons]

/-! ## The loops -/

theorem divides_decimal {n : Nat} (small : n < 2 ^ 31) : Radix.Divides 10 (BitVec.ofNat 32) code
    (fun i => (BitVec.ofNat 32 '0'.toNat + i.srem 10).setWidth 8) (fun i => i.sdiv 10) n := by
  have sign : ∀ m ≤ n, (BitVec.ofNat 32 m).msb = false := by
    intro m le
    rw [BitVec.msb_eq_false_iff_two_mul_lt, BitVec.toNat_ofNat]
    omega
  have ten : (10 : BitVec 32).msb = false := by decide
  have digit : ∀ d < 10, (BitVec.ofNat 32 '0'.toNat + BitVec.ofNat 32 d).setWidth 8 =
      code (Nat.digitChar d) := by
    decide
  refine ⟨by decide, ?_, ?_, ?_⟩
  · intro m le
    have last : (BitVec.ofNat 32 m).srem 10 = BitVec.ofNat 32 (m % 10) := by
      rw [BitVec.srem_eq, sign m le, ten]
      exact Radix.ofNat_umod_ofNat (by omega) (by decide)
    simp only [last]
    exact digit (m % 10) (Nat.mod_lt m (by decide))
  · intro m le
    rw [BitVec.sdiv_eq, sign m le, ten]
    exact Radix.ofNat_udiv_ofNat (by omega) (by decide)
  · intro m le same
    have := congrArg BitVec.toNat same
    simp only [BitVec.toNat_ofNat] at this
    omega

theorem divides_hexadecimal {n : Nat} (small : n < 2 ^ 64) : Radix.Divides 16 (BitVec.ofNat 64) code
    (fun i => ("0123456789abcdef".toList.map code).getD (i.umod 16).toNat 0)
    (fun i => i.udiv 16) n := by
  have digit : ∀ d < 16, ("0123456789abcdef".toList.map code).getD d 0 =
      code (Nat.digitChar d) := by decide
  refine ⟨by decide, ?_, ?_, ?_⟩
  · intro m le
    have last : (BitVec.ofNat 64 m).umod 16 = BitVec.ofNat 64 (m % 16) :=
      Radix.ofNat_umod_ofNat (by omega) (by decide)
    have index : (BitVec.ofNat 64 (m % 16)).toNat = m % 16 := by
      rw [BitVec.toNat_ofNat]
      omega
    simp only [last, index]
    exact digit (m % 16) (Nat.mod_lt m (by decide))
  · intro m le
    exact Radix.ofNat_udiv_ofNat (by omega) (by decide)
  · intro m le same
    have := congrArg BitVec.toNat same
    simp only [BitVec.toNat_ofNat] at this
    omega

theorem decimalDigits_run {n : Nat} (small : n < 2 ^ 31) :
    ∃ digits, decimalDigits (BitVec.ofNat 32 n) = some digits ∧
      tail digits = (Nat.toDigits 10 n).map code := by
  have fits : (Nat.toDigits 10 n).length ≤ DIGITS := by
    rw [Nat.length_toDigits_le_iff (by decide) (by decide)]
    exact small.trans (by decide)
  obtain ⟨b, filled, read, _⟩ := Radix.fillBack_of_le (divides_decimal small) (fun _ => 0) fits
  refine ⟨_, filled, ?_⟩
  rw [tail, Nat.sub_sub_self fits, read]

theorem push_run (ch : Char) {p : Nat} (b : Words.Cells) (room : 0 < p) (inside : p ≤ DIGITS) :
    ∃ b', push ch (p, b) = some (p - 1, b') ∧ tail (p - 1, b') = code ch :: tail (p, b) := by
  obtain ⟨p, rfl⟩ := Nat.exists_eq_succ_of_ne_zero room.ne'
  refine ⟨Words.copy b p [code ch], rfl, ?_⟩
  have length : DIGITS - p = DIGITS - (p + 1) + 1 := by omega
  have first : Words.copy b p [code ch] p = code ch := by simp [Words.copy]
  simp only [tail, Nat.succ_eq_add_one, Nat.add_sub_cancel]
  rw [length, Words.bytes_cons, first]
  congr 1
  exact Words.bytes_congr fun i later _ => Words.copy_of_outside (.inr later)

theorem hexDigits_run {n : Nat} (small : n < 2 ^ 32) :
    ∃ p b, hexDigits (BitVec.ofNat 64 n) = some (p, b) ∧ 2 ≤ p ∧ p ≤ DIGITS ∧
      tail (p, b) = (Nat.toDigits 16 n).map code := by
  have length : (Nat.toDigits 16 n).length ≤ 8 := by
    rw [Nat.length_toDigits_le_iff (by decide) (by decide)]
    exact small.trans_eq (by decide)
  have fits : (Nat.toDigits 16 n).length ≤ DIGITS := length.trans (by decide)
  obtain ⟨b, filled, read, _⟩ :=
    Radix.fillBack_of_le (divides_hexadecimal (small.trans (by decide))) (fun _ => 0) fits
  refine ⟨_, b, filled, ?_, Nat.sub_le _ _, ?_⟩
  · have : DIGITS = 10 := rfl
    omega
  · rw [tail, Nat.sub_sub_self fits, read]

theorem hexDigits_long {n : Nat} (large : 2 ^ 32 ≤ n) (small : n < 2 ^ 64) :
    hexDigits (BitVec.ofNat 64 n) = none ∨ ∃ p b, hexDigits (BitVec.ofNat 64 n) = some (p, b) ∧
      p < 2 := by
  have length : 8 < (Nat.toDigits 16 n).length := by
    rw [← Nat.not_le, Nat.length_toDigits_le_iff (by decide) (by decide), Nat.not_lt]
    exact large.trans_eq' (by decide)
  by_cases fits : (Nat.toDigits 16 n).length ≤ DIGITS
  · obtain ⟨b, filled, _⟩ := Radix.fillBack_of_le (divides_hexadecimal small) (fun _ => 0) fits
    refine .inr ⟨_, b, filled, ?_⟩
    have : DIGITS = 10 := rfl
    omega
  · exact .inl (Radix.fillBack_of_lt (divides_hexadecimal small) (fun _ => 0)
      (Nat.lt_of_not_le fits))

/-! ## The calls -/

variable {s : Bytes} {l : Nat}

theorem write_run (inside : l ≤ s.length) : write s l = some (s.take l) :=
  if_pos inside

theorem writei_run (inside : l ≤ s.length) {i : BitVec 32} (proper : i ≠ BitVec.intMin 32) :
    writei s l i = some (s.take l ++ decimal i.toInt) := by
  have least : -2 ^ 31 < i.toInt := by
    refine lt_of_le_of_ne (BitVec.le_toInt i) fun same => proper (BitVec.eq_of_toInt_eq ?_)
    rw [← same]
    decide
  have most : i.toInt < 2 ^ 31 := BitVec.toInt_lt
  obtain ⟨digits, done, read⟩ := decimalDigits_run (n := i.toInt.natAbs) (by omega)
  have positive : (BitVec.ofNat 32 i.toInt.natAbs).toInt = i.toInt.natAbs := by
    rw [BitVec.toInt_eq_toNat_of_lt] <;> simp only [BitVec.toNat_ofNat] <;> omega
  by_cases neg : i.toInt < 0
  · have magnitude : BitVec.ofNat 32 i.toInt.natAbs = -i := by
      apply BitVec.eq_of_toInt_eq
      rw [BitVec.toInt_neg_of_ne_intMin proper, positive]
      omega
    have value : i.toInt = -(i.toInt.natAbs : Int) := by omega
    rw [magnitude] at done
    simp only [writei, if_pos neg, done, write_run inside, Option.bind_eq_bind, Option.bind_some]
    rw [value, decimal_neg (by omega), read]
    simp
  · have magnitude : BitVec.ofNat 32 i.toInt.natAbs = i := by
      apply BitVec.eq_of_toInt_eq
      rw [positive]
      omega
    have value : i.toInt = (i.toInt.natAbs : Int) := by omega
    rw [magnitude] at done
    simp only [writei, if_neg neg, done, write_run inside, Option.bind_eq_bind, Option.bind_some]
    rw [value, decimal_natCast, read]
    simp

theorem writei_intMin (inside : l ≤ s.length) :
    writei s l (BitVec.intMin 32) = some (s.take l ++ "-./,),(-*,(".toList.map code) := by
  have same : -BitVec.intMin 32 = BitVec.intMin 32 := by decide
  have neg : (BitVec.intMin 32).toInt < 0 := by decide
  have read : (decimalDigits (BitVec.intMin 32)).map tail =
      some ("./,),(-*,(".toList.map code) := by decide
  obtain ⟨digits, done, read⟩ := Option.map_eq_some_iff.mp read
  simp only [writei, if_pos neg, same, done, read, write_run inside, Option.bind_eq_bind,
    Option.bind_some]
  simp

theorem writex_run (inside : l ≤ s.length) {p : BitVec 64} (low : p.toNat < 2 ^ 32) :
    writex s l p = some (s.take l ++ hexadecimal p.toNat) := by
  obtain ⟨q, b, filled, room, fits, digits⟩ := hexDigits_run low
  obtain ⟨b', first, tail'⟩ := push_run 'x' b (by omega) fits
  obtain ⟨b'', second, tail''⟩ := push_run '0' b' (p := q - 1) (by omega) (by omega)
  rw [BitVec.ofNat_toNat, BitVec.setWidth_eq] at filled
  simp only [writex, filled, first, second, write_run inside, Option.bind_eq_bind, Option.bind_some]
  rw [tail'', tail', digits]
  rfl

theorem writex_high {p : BitVec 64} (high : 2 ^ 32 ≤ p.toNat) : writex s l p = none := by
  have digits := hexDigits_long high p.isLt
  rw [BitVec.ofNat_toNat, BitVec.setWidth_eq] at digits
  rcases digits with stuck | ⟨q, b, filled, short⟩
  · simp [writex, stuck]
  · match q, short with
    | 0, _ => simp [writex, filled, push]
    | 1, _ => simp [writex, filled, push]

theorem report_eq_none (server : BitVec 32) (val : BitVec 64) (len ret : BitVec 32) :
    report server val len ret = none := by
  have beyond : writex (literal ", ") 4 val = none := by
    have text : write (literal ", ") 4 = none := by decide
    simp only [writex, text, Option.bind_eq_bind, Option.bind_none]
    cases hexDigits val with
    | none => rfl
    | some digits => cases push 'x' digits <;> simp
  cases call : writei (literal "write(") 6 server with
  | none => simp [report, call]
  | some text => simp [report, call, beyond]

/-- `writei` stores inside its buffer, and prints every `int` but the least; `writex` prints the
addresses of 32 bits, and stores in front of its buffer for all others. -/
theorem diagnostics_print (inside : l ≤ s.length) :
    (∀ i : BitVec 32, (∃ text, writei s l i = some text) ∧
      (writei s l i = some (s.take l ++ decimal i.toInt) ↔ i ≠ BitVec.intMin 32)) ∧
    ∀ p : BitVec 64, (writex s l p = some (s.take l ++ hexadecimal p.toNat) ↔ p.toNat < 2 ^ 32) ∧
      (writex s l p = none ↔ 2 ^ 32 ≤ p.toNat) := by
  constructor
  · intro i
    by_cases least : i = BitVec.intMin 32
    · subst least
      rw [writei_intMin inside]
      refine ⟨⟨_, rfl⟩, iff_of_false ?_ (not_not.mpr rfl)⟩
      intro same
      have digits := List.append_cancel_left (Option.some.inj same)
      exact absurd digits (by decide)
    · rw [writei_run inside least]
      exact ⟨⟨_, rfl⟩, iff_of_true rfl least⟩
  · intro p
    by_cases low : p.toNat < 2 ^ 32
    · rw [writex_run inside low]
      exact ⟨iff_of_true rfl low, iff_of_false nofun (Nat.not_le_of_lt low)⟩
    · have high := Nat.le_of_not_lt low
      rw [writex_high high]
      exact ⟨iff_of_false nofun low, iff_of_true rfl high⟩

/-- The least `int` but one, and the greatest address that is printed. -/
theorem diagnostics_print_bounds :
    writei (literal "write(") 6 (-2147483647) = some ((literal "write(").take 6 ++
      decimal (-2147483647)) ∧
    writex (literal ", ") 2 0xffffffff = some ((literal ", ").take 2 ++ hexadecimal 0xffffffff) :=
  ⟨((diagnostics_print (by decide)).1 _).2.mpr (by decide),
    ((diagnostics_print (by decide)).2 _).1.mpr (by decide)⟩

/-- The least `int` is printed without a digit, the first address of 33 bits leads out of the
buffer, and the report of `tx_write` reads beyond the end of one of its literals, whatever it is
about. -/
theorem diagnostics_misprint :
    writei (literal "write(") 6 (BitVec.intMin 32) = some ("write(-./,),(-*,(".toList.map code) ∧
    writex (literal ", ") 2 0x100000000 = none ∧
    ∀ server val len ret, report server val len ret = none :=
  ⟨by decide, by decide, report_eq_none⟩

end Diagnostics
end Library
end Xatmi
