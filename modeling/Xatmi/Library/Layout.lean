import Xatmi.Library.Calls

/-!
# Decoding a work frame in place

`tpservice` reads the fixed part of a work frame over the start of the caller's `TPSVCINFO`, and
converts the fields from the last to the first. The bytes of one field on the wire lie where another
is to be stored, and which one depends on the size of longs and pointers.
-/

namespace Xatmi
namespace Library

open Words

/-- The two sizes of longs and pointers. -/
inductive Machine where
  | ilp32
  | lp64
  deriving DecidableEq

/-- Number of bytes of a long and of a pointer. -/
def Machine.word : Machine → Nat
  | .ilp32 => 4
  | .lp64 => 8

/-- Number of bytes of an `int`. -/
def INT : Nat := 4

/-- The first multiple of `alignment` from `n` on. -/
def roundUp (n alignment : Nat) : Nat :=
  (n + (alignment - 1)) / alignment * alignment

/-- Offsets of the fields of a `TPSVCINFO` behind its name, and its size. -/
structure Layout where
  data : Nat
  len : Nat
  flags : Nat
  cd : Nat
  size : Nat
  deriving DecidableEq

/-- Every field is aligned to its own size, the structure to that of its largest field. -/
def Machine.layout (machine : Machine) : Layout :=
  let data := roundUp XATMI_SERVICE_NAME_LENGTH machine.word
  let len := roundUp (data + machine.word) machine.word
  let flags := roundUp (len + machine.word) machine.word
  let cd := roundUp (flags + machine.word) INT
  { data, len, flags, cd, size := roundUp (cd + INT) machine.word }

/-- `tolong` on either machine: an `int` converted to an `unsigned long`. -/
def Machine.tolong (machine : Machine) (data : Bytes) : BitVec (8 * machine.word) :=
  ((toshort data).setWidth 32 ||| ((toshort (data.drop 2)).setWidth 32 <<< 16)).signExtend
    (8 * machine.word)

section Fields

variable (machine : Machine) (order : Order)

/-- `svcinfo->cd = toshort(svcinfo->name + ...)`. -/
def convertCd (memory : Cells) : Cells :=
  storeAs order memory machine.layout.cd INT
    ((toshort (bytes memory (XATMI_SERVICE_NAME_LENGTH + IOLONG * 2) IOSHORT)).setWidth 32)

/-- `svcinfo->flags = tolong(svcinfo->name + ...)`. -/
def convertFlags (memory : Cells) : Cells :=
  storeAs order memory machine.layout.flags machine.word
    (machine.tolong (bytes memory (XATMI_SERVICE_NAME_LENGTH + IOLONG) IOLONG))

/-- `svcinfo->len = tolong(svcinfo->name + ...)`. -/
def convertLen (memory : Cells) : Cells :=
  storeAs order memory machine.layout.len machine.word
    (machine.tolong (bytes memory XATMI_SERVICE_NAME_LENGTH IOLONG))

/-- The three conversions of `tpservice`. -/
def convertFields (memory : Cells) : Cells :=
  convertLen machine order (convertFlags machine order (convertCd machine order memory))

/-- `svcinfo->cd`. -/
def cdField (memory : Cells) : BitVec 32 :=
  loadAs order memory machine.layout.cd INT

/-- `svcinfo->flags`. -/
def flagsField (memory : Cells) : BitVec (8 * machine.word) :=
  loadAs order memory machine.layout.flags machine.word

/-- `svcinfo->len`. -/
def lenField (memory : Cells) : BitVec (8 * machine.word) :=
  loadAs order memory machine.layout.len machine.word

end Fields

theorem split_short (short : BitVec 16) :
    split INT (short.setWidth 32) = shortBytes short ++ [0, 0] := by
  have mask : ∀ byte : Byte, byte &&& 0xFF#8 = byte := by decide
  have piece : ∀ k, (short.setWidth 32).extractLsb' k 8 = (short >>> k).setWidth 8 := by
    intro k
    ext i inside
    have := @BitVec.getLsbD_of_ge 16 short (k + i)
    simp only [BitVec.getElem_extractLsb', BitVec.getLsbD_setWidth, BitVec.getElem_setWidth,
      BitVec.getLsbD_ushiftRight]
    by_cases above : k + i < 32
    · simp [above]
    · simp [above, this (by omega)]
  have zero : ∀ k, 16 ≤ k → short >>> k = 0 := fun k above => BitVec.ushiftRight_eq_zero above
  change [(short.setWidth 32).extractLsb' 0 8, (short.setWidth 32).extractLsb' 8 8,
    (short.setWidth 32).extractLsb' 16 8, (short.setWidth 32).extractLsb' 24 8] = _
  rw [piece, piece, piece, piece, zero 16 (by decide), zero 24 (by decide)]
  simp [shortBytes, BitVec.setWidth_and, mask]

theorem convertFields_lp64 (svcinfo : TPSVCINFO) :
    convertFields .lp64 .lowFirst svcinfo.memory = svcinfo.convert.memory := by
  have cd : convertCd .lp64 .lowFirst svcinfo.memory = (svcinfo.setCd
      (toshort (bytes svcinfo.memory (XATMI_SERVICE_NAME_LENGTH + IOLONG * 2) IOSHORT))).memory :=
    congrArg (copy svcinfo.memory 40) (split_short _)
  have flags : ∀ memory, convertFlags .lp64 .lowFirst memory =
      store memory 32 (tolong (bytes memory 19 IOLONG)) :=
    fun _ => storeAs_lowFirst
  have len : ∀ memory, convertLen .lp64 .lowFirst memory =
      store memory 24 (tolong (bytes memory 15 IOLONG)) :=
    fun _ => storeAs_lowFirst
  rw [convertFields, len, flags, cd]
  rfl

section Decoding

theorem layout_bounds (machine : Machine) :
    20 ≤ machine.layout.len ∧ 24 ≤ machine.layout.flags ∧
      machine.layout.len + machine.word ≤ machine.layout.flags ∧
      machine.layout.flags + machine.word ≤ machine.layout.cd ∧
      machine.layout.cd + INT ≤ machine.layout.size ∧ 25 ≤ machine.layout.size := by
  cases machine <;> decide

theorem bytes_convertCd (machine : Machine) (order : Order) (memory : Cells) {k n : Nat}
    (low : k + n ≤ 24) :
    bytes (convertCd machine order memory) k n = bytes memory k n := by
  have bounds := layout_bounds machine
  exact bytes_congr fun i _ upper => storeAs_of_outside (.inl (by omega))

theorem bytes_convertFlags (machine : Machine) (order : Order) (memory : Cells) {k n : Nat}
    (low : k + n ≤ 24) :
    bytes (convertFlags machine order memory) k n = bytes memory k n := by
  have bounds := layout_bounds machine
  exact bytes_congr fun i _ upper => storeAs_of_outside (.inl (by omega))

theorem bytes_convertLen (machine : Machine) (order : Order) (memory : Cells) {k n : Nat}
    (low : k + n ≤ 20) :
    bytes (convertLen machine order memory) k n = bytes memory k n := by
  have bounds := layout_bounds machine
  exact bytes_congr fun i _ upper => storeAs_of_outside (.inl (by omega))

/-- No conversion destroys what is still to be decoded, and each is read back at the end. -/
theorem decoding_order_safe (machine : Machine) (order : Order) (memory : Cells) (header : Bytes)
    (full : header.length = XATMI_SERVICE_NAME_LENGTH + IOLONG * 2 + IOSHORT) :
    let received := copy memory 0 header
    let final := convertFields machine order received
    header.length ≤ machine.layout.size ∧
    (∀ i, machine.layout.size ≤ i → received i = memory i ∧ final i = memory i) ∧
    bytes received 23 IOSHORT = (header.drop 23).take IOSHORT ∧
    bytes (convertCd machine order received) 19 IOLONG = (header.drop 19).take IOLONG ∧
    bytes (convertFlags machine order (convertCd machine order received)) 15 IOLONG =
      (header.drop 15).take IOLONG ∧
    bytes final 0 XATMI_SERVICE_NAME_LENGTH = header.take XATMI_SERVICE_NAME_LENGTH ∧
    cdField machine order final = (toshort ((header.drop 23).take IOSHORT)).setWidth 32 ∧
    flagsField machine order final = machine.tolong ((header.drop 19).take IOLONG) ∧
    lenField machine order final = machine.tolong ((header.drop 15).take IOLONG) := by
  intro received final
  have bounds := layout_bounds machine
  have piece : ∀ k n, k + n ≤ header.length → bytes received k n = (header.drop k).take n := by
    intro k n inside
    have read : bytes (copy memory 0 header) (0 + k) n = _ := bytes_copy inside
    rwa [Nat.zero_add] at read
  have full : header.length = 25 := full
  have cd := piece 23 IOSHORT (by rw [full]; decide)
  have flags : bytes (convertCd machine order received) 19 IOLONG = _ :=
    (bytes_convertCd machine order received (by decide)).trans
      (piece 19 IOLONG (by rw [full]; decide))
  have len : bytes (convertFlags machine order (convertCd machine order received)) 15 IOLONG = _ :=
    (bytes_convertFlags machine order _ (by decide)).trans
      ((bytes_convertCd machine order received (by decide)).trans
        (piece 15 IOLONG (by rw [full]; decide)))
  refine ⟨full ▸ bounds.2.2.2.2.2, ?_, cd, flags, len, ?_, ?_, ?_, ?_⟩
  · intro i outside
    have read : received i = memory i := copy_of_outside (.inr (by omega))
    refine ⟨read, ?_⟩
    rw [← read]
    exact (storeAs_of_outside (.inr (by omega))).trans ((storeAs_of_outside (.inr (by omega))).trans
      (storeAs_of_outside (.inr (by omega))))
  · rw [← List.drop_zero (l := header), ← piece 0 XATMI_SERVICE_NAME_LENGTH (by rw [full]; decide)]
    exact (bytes_convertLen machine order _ (by decide)).trans
      ((bytes_convertFlags machine order _ (by decide)).trans
        (bytes_convertCd machine order received (by decide)))
  · have kept : cdField machine order final = cdField machine order
        (convertCd machine order received) :=
      loadAs_congr fun i lower _ => (storeAs_of_outside (.inr (by omega))).trans
        (storeAs_of_outside (.inr (by omega)))
    rw [kept, ← cd]
    exact loadAs_storeAs (by decide)
  · have kept : flagsField machine order final =
        flagsField machine order (convertFlags machine order (convertCd machine order received)) :=
      loadAs_congr fun i lower _ => storeAs_of_outside (.inr (by omega))
    rw [kept, ← flags]
    exact loadAs_storeAs (Nat.le_refl _)
  · rw [← len]
    exact loadAs_storeAs (Nat.le_refl _)

/-- The header of a work frame with three bytes of data. -/
def sampleHeader : Bytes :=
  List.replicate XATMI_SERVICE_NAME_LENGTH 65 ++ longBytes 3 ++ longBytes (-2) ++ shortBytes 9

theorem decoding_order_safe_sample :
    flagsField .ilp32 .lowFirst (convertFields .ilp32 .lowFirst
      (copy (fun _ => 0xAA) 0 sampleHeader)) = -2 ∧
    flagsField .lp64 .highFirst (convertFields .lp64 .highFirst
    (copy (fun _ => 0xAA) 0 sampleHeader)) = -2 := by
  constructor
  · obtain ⟨_, _, _, _, _, _, _, flags, _⟩ :=
      decoding_order_safe .ilp32 .lowFirst (fun _ => 0xAA) sampleHeader rfl
    rw [flags]
    decide
  · obtain ⟨_, _, _, _, _, _, _, flags, _⟩ :=
      decoding_order_safe .lp64 .highFirst (fun _ => 0xAA) sampleHeader rfl
    rw [flags]
    decide

/-- From the start of the structure towards its end it would not do. -/
example : cdField .lp64 .lowFirst (convertCd .lp64 .lowFirst (convertFlags .lp64 .lowFirst
    (convertLen .lp64 .lowFirst (copy (fun _ => 0xAA) 0 sampleHeader)))) ≠ 9 := by
  decide

end Decoding

end Library
end Xatmi
