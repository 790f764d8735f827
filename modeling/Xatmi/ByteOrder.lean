import Mathlib.Algebra.Group.Int.Defs
import Mathlib.Algebra.Group.Nat.Defs
import Mathlib.Data.List.Basic
import Mathlib.Tactic.Common

/-!
# Integers on the wire

The two codecs of `byteorder.c`, `svrio.c` and `tx_io.c`.  A short travels as two bytes and a long
as four, low byte first, whatever the width of `long` on either machine; `tolong` widens the four
bytes through `int`, so the decoded long is sign extended.
-/

namespace Xatmi

/-- One byte of a connection's stream. -/
abbrev Byte := BitVec 8

/-- A stretch of memory or of a connection's stream. -/
abbrev Bytes := List Byte

/-- Number of bytes of a short on the wire. -/
def IOSHORT : Nat := 2

/-- Number of bytes of a long on the wire. -/
def IOLONG : Nat := 4

/-- `toshort`: the unsigned short at the start of `data`. -/
def toshort (data : Bytes) : BitVec 16 :=
  (data.getD 0 0).setWidth 16 ||| ((data.getD 1 0).setWidth 16 <<< 8)

/-- `tolong`: two unsigned shorts joined as an `int` and converted to a 64-bit `unsigned long`. -/
def tolong (data : Bytes) : BitVec 64 :=
  ((toshort data).setWidth 32 ||| ((toshort (data.drop 2)).setWidth 32 <<< 16)).signExtend 64

/-- The bytes written by `svrwrites`. -/
def shortBytes (val : BitVec 16) : Bytes :=
  [(val &&& 0xFF).setWidth 8, ((val >>> 8) &&& 0xFF).setWidth 8]

/-- The bytes written by `svrwritel`. -/
def longBytes (val : BitVec 64) : Bytes :=
  shortBytes ((val &&& 0xFFFF).setWidth 16) ++ shortBytes (((val >>> 16) &&& 0xFFFF).setWidth 16)

@[simp] theorem length_shortBytes (val : BitVec 16) : (shortBytes val).length = IOSHORT := rfl

@[simp] theorem length_longBytes (val : BitVec 64) : (longBytes val).length = IOLONG := rfl

/-! ## Round trips -/

/-- What `svrwrites` writes, `toshort` reads. -/
theorem toshort_shortBytes_append (val : BitVec 16) (rest : Bytes) :
    toshort (shortBytes val ++ rest) = val := by
  have mask : ∀ i : Fin 16, (255#16)[i] = decide (i.val < 8) := by decide
  ext i hi
  simp only [toshort, shortBytes, List.cons_append, List.getD_cons_zero, List.getD_cons_succ]
  by_cases low : i < 8
  · simpa [low, hi] using fun _ => mask ⟨i, hi⟩ ▸ decide_eq_true low
  · have high := mask ⟨i - 8, by omega⟩
    have whole : 8 + (i - 8) = i := by omega
    simp [low, whole, show i - 8 < 8 by omega] at high ⊢
    simp [high, BitVec.getLsbD_eq_getElem hi]

theorem toshort_shortBytes (val : BitVec 16) : toshort (shortBytes val) = val := by
  have decoded := toshort_shortBytes_append val []
  rwa [List.append_nil] at decoded

/-- What `svrwritel` writes, `tolong` reads, up to the bits that do not travel. -/
theorem tolong_longBytes_append (val : BitVec 64) (rest : Bytes) :
    tolong (longBytes val ++ rest) = (val.setWidth 32).signExtend 64 := by
  have mask : ∀ i : Fin 32, (65535#32)[i] = decide (i.val < 16) := by decide
  have second : (shortBytes ((val &&& 0xFFFF).setWidth 16) ++
      (shortBytes (((val >>> 16) &&& 0xFFFF).setWidth 16) ++ rest)).drop 2 =
        shortBytes (((val >>> 16) &&& 0xFFFF).setWidth 16) ++ rest := rfl
  unfold tolong longBytes
  rw [List.append_assoc, second, toshort_shortBytes_append, toshort_shortBytes_append]
  congr 1
  ext i hi
  by_cases low : i < 16
  · simpa [low, hi] using fun _ => mask ⟨i, hi⟩ ▸ decide_eq_true low
  · have high := mask ⟨i - 16, by omega⟩
    have whole : 16 + (i - 16) = i := by omega
    simp [low, whole, show i - 16 < 16 by omega] at high ⊢
    simp [high]

/-- A decoded long fits an `int`. -/
theorem tolong_lt (data : Bytes) : (tolong data).toInt < 2 ^ 31 := by
  unfold tolong
  rw [BitVec.toInt_signExtend_of_le (by omega)]
  exact BitVec.toInt_lt

/-- What is left of a long that has been sent. -/
def wire (val : BitVec 64) : BitVec 64 :=
  (val.setWidth 32).signExtend 64

theorem tolong_longBytes (val : BitVec 64) : tolong (longBytes val) = wire val := by
  have decoded := tolong_longBytes_append val []
  rwa [List.append_nil] at decoded

theorem toInt_wire (val : BitVec 64) : (wire val).toInt = val.toInt.bmod (2 ^ 32) := by
  unfold wire
  rw [BitVec.toInt_signExtend_of_le (by omega), BitVec.toInt_setWidth]
  rw [BitVec.toInt_eq_toNat_bmod, Int.bmod_bmod_of_dvd (by decide)]

theorem setWidth_signExtend (val : BitVec 32) : (val.signExtend 64).setWidth 32 = val := by
  ext i inside
  simp only [BitVec.getElem_setWidth, BitVec.getLsbD_signExtend, inside, ↓reduceIte,
    BitVec.getLsbD_eq_getElem]
  simp
  omega

/-- A long survives exactly when it fits an `int`. -/
theorem wire_eq_self_iff (val : BitVec 64) :
    wire val = val ↔ -2 ^ 31 ≤ val.toInt ∧ val.toInt < 2 ^ 31 := by
  rw [← BitVec.toInt_inj, toInt_wire]
  constructor
  · intro same
    have := Int.bmod_lt (x := val.toInt) (m := 2 ^ 32) (by decide)
    have := Int.le_bmod (x := val.toInt) (m := 2 ^ 32) (by decide)
    omega
  · rintro ⟨lower, upper⟩
    rw [Int.bmod_def]
    omega

/-- The length of some data survives. -/
theorem wire_ofNat {len : Nat} (short : len < 2 ^ 31) :
    wire (BitVec.ofNat 64 len) = BitVec.ofNat 64 len := by
  have small : (BitVec.ofNat 64 len).toInt = len := by
    rw [BitVec.toInt_eq_toNat_of_lt] <;> simp only [BitVec.toNat_ofNat] <;> omega
  rw [wire_eq_self_iff, small]
  omega

end Xatmi
