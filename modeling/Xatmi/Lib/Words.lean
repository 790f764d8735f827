import Mathlib.Algebra.Group.Int.Defs
import Mathlib.Algebra.Group.Nat.Defs
import Mathlib.Data.List.Basic
import Mathlib.Tactic.Common

/-!
# Words in a memory of bytes

Reading and writing 64-bit words, low byte first, and strings of bytes at any offset of a memory
that is addressed by bytes.
-/

namespace Words

/-- A memory of bytes. -/
abbrev Cells := Nat → BitVec 8

/-- The word at offset `a`. -/
def load (cell : Cells) (a : Nat) : BitVec 64 :=
  cell (a + 7) ++ cell (a + 6) ++ cell (a + 5) ++ cell (a + 4) ++
    cell (a + 3) ++ cell (a + 2) ++ cell (a + 1) ++ cell a

/-- The memory after writing the word at offset `a`. -/
def store (cell : Cells) (a : Nat) (word : BitVec 64) : Cells :=
  fun i => if a ≤ i ∧ i < a + 8 then word.extractLsb' (8 * (i - a)) 8 else cell i

variable {cell other : Cells} {a b i : Nat} {word : BitVec 64}

/-- Bytes outside a word keep their value when it is written. -/
theorem store_of_outside (outside : i < a ∨ a + 8 ≤ i) : store cell a word i = cell i := by
  unfold store
  exact if_neg fun inside => by omega

theorem load_congr (same : ∀ i, a ≤ i → i < a + 8 → other i = cell i) :
    load other a = load cell a := by
  unfold load
  rw [same (a + 7) (by omega) (by omega), same (a + 6) (by omega) (by omega),
    same (a + 5) (by omega) (by omega), same (a + 4) (by omega) (by omega),
    same (a + 3) (by omega) (by omega), same (a + 2) (by omega) (by omega),
    same (a + 1) (by omega) (by omega), same a (by omega) (by omega)]

theorem load_store_of_apart (apart : b + 8 ≤ a ∨ a + 8 ≤ b) :
    load (store cell a word) b = load cell b :=
  load_congr fun i lower upper => store_of_outside (by omega)

/-- A word that has been written is read back. -/
theorem load_store : load (store cell a word) a = word := by
  have byte : ∀ k, k < 8 → store cell a word (a + k) = word.extractLsb' (8 * k) 8 := by
    intro k small
    unfold store
    rw [if_pos ⟨by omega, by omega⟩, Nat.add_sub_cancel_left]
  unfold load
  rw [byte 7 (by omega), byte 6 (by omega), byte 5 (by omega), byte 4 (by omega),
    byte 3 (by omega), byte 2 (by omega), byte 1 (by omega), show store cell a word a = _ from byte
    0 (by omega)]
  ext i inside
  simp only [BitVec.getElem_append, BitVec.getElem_extractLsb']
  repeat' split
  all_goals rw [BitVec.getLsbD_eq_getElem (by omega)]
  all_goals congr 1
  all_goals omega

/-! ## Strings -/

/-- The `n` bytes at offset `a`. -/
def bytes (cell : Cells) (a n : Nat) : List (BitVec 8) :=
  (List.range n).map fun i => cell (a + i)

/-- The memory after copying `data` to offset `a`. -/
def copy (cell : Cells) (a : Nat) (data : List (BitVec 8)) : Cells :=
  fun i => if a ≤ i ∧ i < a + data.length then data.getD (i - a) 0 else cell i

variable {data : List (BitVec 8)} {n : Nat}

theorem bytes_congr (same : ∀ i, a ≤ i → i < a + n → other i = cell i) :
    bytes other a n = bytes cell a n := by
  refine List.map_congr_left fun i member => ?_
  have := List.mem_range.mp member
  exact same (a + i) (by omega) (by omega)

theorem bytes_succ (cell : Cells) (a n : Nat) :
    bytes cell a (n + 1) = bytes cell a n ++ [cell (a + n)] := by
  simp [bytes, List.range_succ]

theorem bytes_cons (cell : Cells) (a n : Nat) :
    bytes cell a (n + 1) = cell a :: bytes cell (a + 1) n := by
  simp [bytes, List.range_succ_eq_map, Function.comp_def, Nat.add_comm, Nat.add_left_comm]

theorem copy_of_outside (outside : i < a ∨ a + data.length ≤ i) : copy cell a data i = cell i := by
  unfold copy
  exact if_neg fun inside => by omega

/-- What has been copied is read back, piece by piece. -/
theorem bytes_copy {k : Nat} (inside : k + n ≤ data.length) :
    bytes (copy cell a data) (a + k) n = (data.drop k).take n := by
  refine List.ext_getElem (by simp [bytes]; omega) fun i left right => ?_
  have small : i < n := by simpa [bytes] using left
  simp only [bytes, List.getElem_map, List.getElem_range, List.getElem_take, List.getElem_drop,
    copy]
  have covered : k + i < data.length := by omega
  rw [if_pos ⟨by omega, by omega⟩, show a + k + i - a = k + i by omega]
  simp [covered]

theorem bytes_copy_self : bytes (copy cell a data) a data.length = data := by
  have whole := @bytes_copy cell a data data.length 0 (by omega)
  rwa [Nat.add_zero, List.drop_zero, List.take_length] at whole

/-! ## Words of any width -/

/-- The order in which a machine has the bytes of a word. -/
inductive Order where
  | lowFirst
  | highFirst
  deriving DecidableEq

/-- Bytes between the order of a machine and low byte first. -/
def Order.arrange : Order → List (BitVec 8) → List (BitVec 8)
  | .lowFirst, data => data
  | .highFirst, data => data.reverse

variable {order : Order} {w : Nat}

theorem length_arrange : (order.arrange data).length = data.length := by
  cases order with
  | lowFirst => rfl
  | highFirst => exact List.length_reverse

theorem arrange_arrange : order.arrange (order.arrange data) = data := by
  cases order with
  | lowFirst => rfl
  | highFirst => exact List.reverse_reverse data

/-- The low `n` bytes of a word, low byte first. -/
def split (n : Nat) (word : BitVec w) : List (BitVec 8) :=
  (List.range n).map fun i => word.extractLsb' (8 * i) 8

/-- The number with the given bytes, low byte first. -/
def value : List (BitVec 8) → Nat
  | [] => 0
  | byte :: rest => byte.toNat + 256 * value rest

theorem length_split (n : Nat) (word : BitVec w) : (split n word).length = n := by
  simp [split]

theorem value_concat (byte : BitVec 8) :
    value (data ++ [byte]) = value data + 256 ^ data.length * byte.toNat := by
  induction data with
  | nil => simp [value]
  | cons first rest ih =>
      simp only [List.cons_append, value, ih, List.length_cons, Nat.pow_succ']
      rw [Nat.mul_add, Nat.add_assoc, Nat.mul_assoc]

theorem value_split (n : Nat) (word : BitVec w) : value (split n word) = word.toNat % 256 ^ n := by
  induction n with
  | zero => simp [split, value, Nat.mod_one]
  | succ n ih =>
      have last : split (n + 1) word = split n word ++ [word.extractLsb' (8 * n) 8] := by
        simp [split, List.range_succ]
      have byte : (word.extractLsb' (8 * n) 8).toNat = word.toNat / 256 ^ n % 256 := by
        rw [BitVec.extractLsb'_toNat, Nat.shiftRight_eq_div_pow, Nat.pow_mul]
      rw [last, value_concat, ih, length_split, byte, Nat.pow_succ, Nat.mod_mul]

/-- The memory after writing the low `n` bytes of a word at offset `a`. -/
def storeAs (order : Order) (cell : Cells) (a n : Nat) (word : BitVec w) : Cells :=
  copy cell a (order.arrange (split n word))

/-- The word in the `n` bytes at offset `a`. -/
def loadAs (order : Order) (cell : Cells) (a n : Nat) : BitVec w :=
  BitVec.ofNat w (value (order.arrange (bytes cell a n)))

theorem storeAs_of_outside {word : BitVec w} (outside : i < a ∨ a + n ≤ i) :
    storeAs order cell a n word i = cell i := by
  refine copy_of_outside ?_
  rwa [length_arrange, length_split]

theorem loadAs_congr (same : ∀ i, a ≤ i → i < a + n → other i = cell i) :
    (loadAs order other a n : BitVec w) = loadAs order cell a n := by
  rw [loadAs, loadAs, bytes_congr same]

/-- A word that has been written whole is read back. -/
theorem loadAs_storeAs {word : BitVec w} (whole : w ≤ 8 * n) :
    loadAs order (storeAs order cell a n word) a n = word := by
  have read : bytes (storeAs order cell a n word) a n = order.arrange (split n word) := by
    have copied : bytes (copy cell a (order.arrange (split n word))) a
        (order.arrange (split n word)).length = _ :=
      bytes_copy_self
    rwa [length_arrange, length_split] at copied
  have fits : word.toNat < 256 ^ n := by
    refine Nat.lt_of_lt_of_le word.isLt ?_
    rw [show 256 = 2 ^ 8 from rfl, ← Nat.pow_mul]
    exact Nat.pow_le_pow_right (by decide) whole
  rw [loadAs, read, arrange_arrange, value_split, Nat.mod_eq_of_lt fits, BitVec.ofNat_toNat,
    BitVec.setWidth_eq]

theorem storeAs_lowFirst : storeAs .lowFirst cell a 8 word = store cell a word := by
  funext i
  unfold storeAs store copy
  simp only [Order.arrange, length_split]
  split
  · next inside =>
      have small : i - a < 8 := by omega
      simp [split, small]
  · rfl

end Words
