import Xatmi.Protocol
import Xatmi.Lib.Program
import Xatmi.Lib.Words
import Mathlib.Logic.Function.Basic

/-!
# Typed buffers

`tpalloc`, `tprealloc`, `tpfree` and `tptypes` over the bytes of the blocks that `malloc` hands out.
The bytes a caller sees stand between a header and a guard, both of them a `struct tpmemory`, and
the place of the guard is computed from the length stored in the header. What `malloc` and `realloc`
answer, and what fresh memory holds, is an argument of every call.
-/

namespace Xatmi
namespace TypedBuffer

open Program Words

/-! ## Memory -/

/-- Address of a block.  The pointer a caller has is the one to the second unit of the block. -/
abbrev Ptr := Nat

/-- Memory between the address `malloc` returned and the end of the block. -/
structure Block where
  size : Nat
  cell : Cells

/-- Allocated blocks and the library's error number. -/
structure Memory where
  block : Ptr → Option Block
  tperrno : BitVec 32 := 0

/-- What stops a call. -/
inductive Fault
  /-- A failed `assert`. -/
  | assertion
  /-- An access outside the allocated blocks. -/
  | wild
  deriving DecidableEq

abbrev M := Prog Fault Memory

/-- The answer of `malloc` or `realloc`: null, or a block with what its fresh bytes hold. -/
abbrev Reply := Option (Ptr × Cells)

/-- `malloc(n)`. -/
def malloc (n : BitVec 64) : Reply → M (Option Ptr)
  | none => pure none
  | some (p, fresh) => do
      modify fun m => { m with block := Function.update m.block p (some ⟨n.toNat, fresh⟩) }
      pure (some p)

/-- `realloc(p, n)`: the bytes that fit are moved, and the old block is gone. -/
def realloc (p : Ptr) (n : BitVec 64) : Reply → M (Option Ptr)
  | none => pure none
  | some (q, fresh) => do
      let b ← demand .wild fun m => m.block p
      let moved : Cells := fun i => if i < b.size then b.cell i else fresh i
      modify fun m => { m with
        block := Function.update (Function.update m.block p none) q (some ⟨n.toNat, moved⟩) }
      pure (some q)

/-- `free(p)`. -/
def free (p : Ptr) : M PUnit :=
  modify fun m => { m with block := Function.update m.block p none }

/-- Assign `tperrno`. -/
def setErrno (errno : Nat) : M PUnit :=
  modify fun m => { m with tperrno := BitVec.ofNat 32 errno }

/-! ## The header and the guard -/

def MAGIC : BitVec 64 := 0xfee1900d

/-- `~MAGIC`, an `unsigned int` before it is stored as a long. -/
def notMagic : BitVec 64 := (~~~(0xfee1900d : BitVec 32)).setWidth 64

/-- `sizeof(struct tpmemory)`. -/
def sizeofTpmemory : BitVec 64 := 32

/-- `ALLOC_UNITS(s)`, in unsigned 64-bit arithmetic. -/
def ALLOC_UNITS (s : BitVec 64) : BitVec 64 :=
  (s + sizeofTpmemory - 1) / sizeofTpmemory + 2

/-- The fields of `struct tpmemory`. -/
inductive Field
  | type | subtype | len | magic
  deriving DecidableEq

/-- Offset of a field. -/
def Field.offset : Field → Nat
  | .type => 0
  | .subtype => 8
  | .len => 16
  | .magic => 24

/-- `(p + unit)->field`. -/
def readField (p : Ptr) (unit : BitVec 64) (field : Field) : M (BitVec 64) := do
  let b ← demand .wild fun m => m.block p
  let a := 32 * unit.toNat + field.offset
  if a + 8 ≤ b.size then pure (load b.cell a) else throw .wild

/-- `(p + unit)->field = value`. -/
def writeField (p : Ptr) (unit : BitVec 64) (field : Field) (value : BitVec 64) : M PUnit := do
  let b ← demand .wild fun m => m.block p
  let a := 32 * unit.toNat + field.offset
  if a + 8 ≤ b.size then
    modify fun m => { m with
      block := Function.update m.block p (some { b with cell := store b.cell a value }) }
  else
    throw .wild

/-- `assert(p->field == p2->field)`. -/
def assertField (p : Ptr) (p2 : BitVec 64) (field : Field) : M PUnit := do
  if (← readField p 0#64 field) = (← readField p p2 field) then pure () else throw .assertion

/-- The assertions about header and guard. -/
def assertGuard (p : Ptr) (p2 : BitVec 64) : M PUnit := do
  assertField p p2 .len
  assertField p p2 .magic
  assertField p p2 .type
  assertField p p2 .subtype

/-- `IS_MAGIC(ptr)`. -/
def IS_MAGIC : Option Ptr → M Bool
  | none => pure false
  | some p => do
      pure ((← readField p 0#64 .magic) = MAGIC)

/-! ## The functions -/

/-- `tpalloc`, which ignores the type and the subtype it is given; `emptystring` is the address of
the string that every buffer has for both. -/
def tpalloc (emptystring : BitVec 64) (size : BitVec 64) (reply : Reply) : M (Option Ptr) := do
  if size.slt 0#64 then do
    setErrno TPEINVAL
    pure none
  else do
    match ← malloc (ALLOC_UNITS size * sizeofTpmemory) reply with
    | none => do
        setErrno TPEOS
        pure none
    | some p => do
        let p2 := ALLOC_UNITS size - 1
        writeField p 0#64 .subtype emptystring
        writeField p p2 .subtype emptystring
        writeField p 0#64 .type emptystring
        writeField p p2 .type emptystring
        writeField p 0#64 .len size
        writeField p p2 .len size
        writeField p 0#64 .magic MAGIC
        writeField p p2 .magic MAGIC
        pure (some p)

/-- `tprealloc`. -/
def tprealloc (ptr : Option Ptr) (size : BitVec 64) (reply : Reply) : M (Option Ptr) := do
  match ptr, (← IS_MAGIC ptr), size.slt 0#64 with
  | some p, true, false => do
      let p2 := ALLOC_UNITS (← readField p 0#64 .len) - 1
      assertGuard p p2
      match ← realloc p (ALLOC_UNITS size * sizeofTpmemory) reply with
      | none => do
          setErrno TPEOS
          pure none
      | some q => do
          let q2 := ALLOC_UNITS size - 1
          writeField q 0#64 .len size
          writeField q q2 .len size
          writeField q q2 .type (← readField q 0#64 .type)
          writeField q q2 .subtype (← readField q 0#64 .subtype)
          writeField q q2 .magic (← readField q 0#64 .magic)
          pure (some q)
  | _, _, _ => do
      setErrno TPEINVAL
      pure none

/-- `tpfree`. -/
def tpfree (ptr : Option Ptr) : M PUnit := do
  match ptr, (← IS_MAGIC ptr) with
  | some p, true => do
      let p2 := ALLOC_UNITS (← readField p 0#64 .len) - 1
      assertGuard p p2
      writeField p 0#64 .magic notMagic
      writeField p p2 .magic notMagic
      free p
  | _, _ => throw .assertion

/-- `tptypes`: the length it returns, and the strings it copies to its arguments, if any. -/
def tptypes (ptr : Option Ptr) : M (BitVec 64 × Option (BitVec 64 × BitVec 64)) := do
  match ptr, (← IS_MAGIC ptr) with
  | some p, true => do
      let p2 := ALLOC_UNITS (← readField p 0#64 .len) - 1
      assertGuard p p2
      let type ← readField p 0#64 .type
      let subtype ← readField p 0#64 .subtype
      pure (← readField p 0#64 .len, some (type, subtype))
  | _, _ => do
      setErrno TPEINVAL
      pure (-1, none)

/-- A caller assigns byte `i` of the buffer at `ptr`. -/
def poke (p : Ptr) (i : Nat) (value : Byte) : M PUnit := do
  let b ← demand .wild fun m => m.block p
  if 32 + i < b.size then
    modify fun m => { m with
      block := Function.update m.block p
        (some { b with cell := Function.update b.cell (32 + i) value }) }
  else
    throw .wild

/-! ## Layout -/

/-- Offset of the guard of a buffer of `n` bytes. -/
def guardAt (n : Nat) : Nat := 32 * ((n + 31) / 32 + 1)

theorem data_le_guardAt (n : Nat) : 32 + n ≤ guardAt n := by
  unfold guardAt
  omega

section Units

variable {size : BitVec 64} (nonneg : size.slt 0#64 = false)
include nonneg

theorem toNat_lt_of_nonneg : size.toNat < 2 ^ 63 := by
  have sign := BitVec.slt_zero_eq_msb (x := size)
  rw [nonneg] at sign
  have := (BitVec.msb_eq_false_iff_two_mul_lt (x := size)).mp sign.symm
  omega

theorem toNat_ALLOC_UNITS : (ALLOC_UNITS size).toNat = (size.toNat + 31) / 32 + 2 := by
  have small := toNat_lt_of_nonneg nonneg
  have rounded : (size + sizeofTpmemory - 1).toNat = size.toNat + 31 := by
    unfold sizeofTpmemory
    bv_omega
  have whole : sizeofTpmemory.toNat = 32 := rfl
  rw [ALLOC_UNITS, BitVec.toNat_add, BitVec.toNat_udiv, rounded, whole]
  have two : (2 : BitVec 64).toNat = 2 := rfl
  omega

theorem toNat_guard : 32 * (ALLOC_UNITS size - 1).toNat = guardAt size.toNat := by
  have units := toNat_ALLOC_UNITS nonneg
  have small := toNat_lt_of_nonneg nonneg
  unfold guardAt
  bv_omega

theorem toNat_bytes : (ALLOC_UNITS size * sizeofTpmemory).toNat = guardAt size.toNat + 32 := by
  have units := toNat_ALLOC_UNITS nonneg
  have small := toNat_lt_of_nonneg nonneg
  rw [BitVec.toNat_mul, units]
  have whole : sizeofTpmemory.toNat = 32 := rfl
  rw [whole, Nat.mod_eq_of_lt (by omega)]
  unfold guardAt
  omega

end Units

/-! ## Fields of a block -/

/-- `(p + unit)->field` in the bytes of a block. -/
def Block.read (b : Block) (unit : BitVec 64) (field : Field) : BitVec 64 :=
  load b.cell (32 * unit.toNat + field.offset)

/-- The block after `(p + unit)->field = value`. -/
def Block.write (b : Block) (unit : BitVec 64) (field : Field) (value : BitVec 64) : Block :=
  { b with cell := store b.cell (32 * unit.toNat + field.offset) value }

theorem Field.offset_le (field : Field) : field.offset + 8 ≤ 32 := by
  cases field <;> decide

/-- Two fields do not overlap. -/
theorem Field.apart {field other : Field} (different : other ≠ field) :
    other.offset + 8 ≤ field.offset ∨ field.offset + 8 ≤ other.offset := by
  cases field <;> cases other <;> first | exact absurd rfl different | decide

theorem Block.read_write (b : Block) (unit unit' : BitVec 64) (field field' : Field)
    (value : BitVec 64) : (b.write unit field value).read unit' field' =
      if unit' = unit ∧ field' = field then value else b.read unit' field' := by
  have small := field.offset_le
  have small' := field'.offset_le
  by_cases same : unit' = unit ∧ field' = field
  · obtain ⟨rfl, rfl⟩ := same
    rw [if_pos ⟨rfl, rfl⟩]
    exact load_store
  · rw [if_neg same]
    refine load_store_of_apart ?_
    by_cases sameUnit : unit' = unit
    · subst sameUnit
      have := Field.apart fun sameField => same ⟨rfl, sameField⟩
      omega
    · have : unit'.toNat ≠ unit.toNat := fun equal => sameUnit (BitVec.eq_of_toNat_eq equal)
      omega

theorem Block.cell_write (b : Block) (unit : BitVec 64) (field : Field) (value : BitVec 64)
    {i : Nat} (outside : i < 32 * unit.toNat ∨ 32 * unit.toNat + 32 ≤ i) :
    (b.write unit field value).cell i = b.cell i := by
  have small := field.offset_le
  exact store_of_outside (by omega)

/-- The memory with another block at `p`. -/
def Memory.setBlock (m : Memory) (p : Ptr) (b : Block) : Memory :=
  { m with block := Function.update m.block p (some b) }

@[simp] theorem Memory.block_setBlock (m : Memory) (p : Ptr) (b : Block) :
    (m.setBlock p b).block p = some b := by
  simp [setBlock]

theorem Memory.block_setBlock_of_ne (m : Memory) {p q : Ptr} (b : Block) (other : q ≠ p) :
    (m.setBlock p b).block q = m.block q := by
  simp [setBlock, other]

@[simp] theorem Memory.setBlock_setBlock (m : Memory) (p : Ptr) (b b' : Block) :
    (m.setBlock p b).setBlock p b' = m.setBlock p b' := by
  simp [setBlock]

section Accesses

variable {m : Memory} {p : Ptr} {b : Block} {unit : BitVec 64} {field : Field}

theorem lookup_run (found : m.block p = some b) :
    (demand .wild fun m => m.block p : M Block) m = .ok (b, m) :=
  demand_ok_iff.mpr ⟨found, rfl⟩

theorem readField_run (found : m.block p = some b) (inside : 32 * unit.toNat + 32 ≤ b.size) :
    readField p unit field m = .ok (b.read unit field, m) := by
  have small := field.offset_le
  rw [readField, bind_of_ok (lookup_run found), if_pos (by omega)]
  rfl

theorem writeField_run (found : m.block p = some b) (inside : 32 * unit.toNat + 32 ≤ b.size)
    (value : BitVec 64) :
    writeField p unit field value m = .ok (⟨⟩, m.setBlock p (b.write unit field value)) := by
  have small := field.offset_le
  rw [writeField, bind_of_ok (lookup_run found), if_pos (by omega)]
  rfl

theorem writeField_bind {α : Type} {value : BitVec 64} {rest : PUnit → M α}
    (inside : 32 * unit.toNat + 32 ≤ b.size) :
    (writeField p unit field value >>= rest) (m.setBlock p b) =
      rest ⟨⟩ (m.setBlock p (b.write unit field value)) := by
  rw [seq_of_ok (writeField_run (m.block_setBlock p b) inside value), Memory.setBlock_setBlock]

theorem readField_bind {α : Type} {rest : BitVec 64 → M α}
    (inside : 32 * unit.toNat + 32 ≤ b.size) :
    (readField p unit field >>= rest) (m.setBlock p b) =
      rest (b.read unit field) (m.setBlock p b) :=
  bind_of_ok (readField_run (m.block_setBlock p b) inside)

end Accesses

/-! ## Well formed buffers -/

/-- What the header and the guard of a buffer of `size` bytes hold. -/
def Field.value (emptystring size : BitVec 64) : Field → BitVec 64
  | .type | .subtype => emptystring
  | .len => size
  | .magic => MAGIC

/-- A block that holds a buffer of `size` bytes. -/
structure Block.Formed (emptystring : BitVec 64) (b : Block) (size : BitVec 64) : Prop where
  nonneg : size.slt 0#64 = false
  size_eq : b.size = guardAt size.toNat + 32
  header : ∀ field, b.read 0#64 field = field.value emptystring size
  guard : ∀ field, b.read (ALLOC_UNITS size - 1) field = field.value emptystring size

namespace Block.Formed

variable {emptystring size : BitVec 64} {m : Memory} {p : Ptr} {b : Block}

theorem header_inside (formed : b.Formed emptystring size) : 32 * (0#64).toNat + 32 ≤ b.size := by
  rw [formed.size_eq]
  simp [guardAt]

theorem guard_inside (formed : b.Formed emptystring size) :
    32 * (ALLOC_UNITS size - 1).toNat + 32 ≤ b.size := by
  have last := toNat_guard formed.nonneg
  have whole := formed.size_eq
  omega

theorem readHeader (formed : b.Formed emptystring size) (found : m.block p = some b)
    (field : Field) :
    readField p 0#64 field m = .ok (field.value emptystring size, m) := by
  rw [readField_run found formed.header_inside, formed.header]

theorem readGuard (formed : b.Formed emptystring size) (found : m.block p = some b)
    (field : Field) :
    readField p (ALLOC_UNITS size - 1) field m = .ok (field.value emptystring size, m) := by
  rw [readField_run found formed.guard_inside, formed.guard]

theorem isMagic (formed : b.Formed emptystring size) (found : m.block p = some b) :
    IS_MAGIC (some p) m = .ok (true, m) := by
  rw [IS_MAGIC, bind_of_ok (formed.readHeader found .magic)]
  rfl

theorem assertGuard_run (formed : b.Formed emptystring size) (found : m.block p = some b) :
    assertGuard p (ALLOC_UNITS size - 1) m = .ok (⟨⟩, m) := by
  have holds : ∀ field, assertField p (ALLOC_UNITS size - 1) field m = .ok (⟨⟩, m) := by
    intro field
    rw [assertField, bind_of_ok (formed.readHeader found field),
      bind_of_ok (formed.readGuard found field), if_pos rfl]
    rfl
  rw [assertGuard, seq_of_ok (holds .len), seq_of_ok (holds .magic), seq_of_ok (holds .type)]
  exact holds .subtype

theorem tptypes_run (formed : b.Formed emptystring size) (found : m.block p = some b) :
    tptypes (some p) m = .ok ((size, some (emptystring, emptystring)), m) := by
  rw [tptypes, bind_of_ok (formed.isMagic found)]
  change (readField p 0#64 .len >>= _) m = _
  rw [bind_of_ok (formed.readHeader found .len)]
  change (assertGuard p (ALLOC_UNITS size - 1) >>= _) m = _
  rw [seq_of_ok (formed.assertGuard_run found), bind_of_ok (formed.readHeader found .type),
    bind_of_ok (formed.readHeader found .subtype), bind_of_ok (formed.readHeader found .len)]
  rfl

theorem tpfree_run (formed : b.Formed emptystring size) (found : m.block p = some b) :
    tpfree (some p) m = .ok (⟨⟩, { m with block := Function.update m.block p none }) := by
  rw [tpfree, bind_of_ok (formed.isMagic found)]
  change (readField p 0#64 .len >>= _) m = _
  rw [bind_of_ok (formed.readHeader found .len)]
  change (assertGuard p (ALLOC_UNITS size - 1) >>= _) m = _
  rw [seq_of_ok (formed.assertGuard_run found),
    seq_of_ok (writeField_run found formed.header_inside notMagic)]
  change (writeField p (ALLOC_UNITS size - 1) .magic notMagic >>= _) _ = _
  rw [writeField_bind (show _ ≤ (b.write 0#64 .magic notMagic).size from formed.guard_inside)]
  change Except.ok _ = _
  simp [Memory.setBlock]

theorem poke (formed : b.Formed emptystring size) {i : Nat} (inside : i < size.toNat)
    (value : Byte) :
    ({ b with cell := Function.update b.cell (32 + i) value } : Block).Formed emptystring size := by
  have before := data_le_guardAt size.toNat
  have last := toNat_guard formed.nonneg
  have same : ∀ unit field, unit = 0#64 ∨ unit = ALLOC_UNITS size - 1 →
      Block.read { b with cell := Function.update b.cell (32 + i) value } unit field =
        b.read unit field := by
    intro unit field place
    have small := field.offset_le
    refine load_congr fun j lower upper => Function.update_of_ne ?_ _ _
    rcases place with rfl | rfl
    · have zero : (0#64).toNat = 0 := rfl
      omega
    · omega
  refine ⟨formed.nonneg, formed.size_eq, fun field => ?_, fun field => ?_⟩
  · rw [same 0#64 field (.inl rfl), formed.header]
  · rw [same _ field (.inr rfl), formed.guard]

end Block.Formed

/-! ## Allocation -/

/-- The block after the assignments of `tpalloc`. -/
def Block.labelled (b : Block) (emptystring size : BitVec 64) : Block :=
  let p2 := ALLOC_UNITS size - 1
  (((((((b.write 0#64 .subtype emptystring).write p2 .subtype emptystring).write 0#64 .type
    emptystring).write p2 .type emptystring).write 0#64 .len size).write p2 .len size).write 0#64
    .magic MAGIC).write p2 .magic MAGIC

theorem Block.labelled_formed (b : Block) {emptystring size : BitVec 64}
    (nonneg : size.slt 0#64 = false) (size_eq : b.size = guardAt size.toNat + 32) :
    (b.labelled emptystring size).Formed emptystring size := by
  refine ⟨nonneg, size_eq, fun field => ?_, fun field => ?_⟩
  · cases field <;> simp [labelled, Block.read_write, Field.value]
  · cases field <;> simp [labelled, Block.read_write, Field.value]

theorem tpalloc_run (emptystring : BitVec 64) {m : Memory} {size : BitVec 64} {p : Ptr}
    {fresh : Cells} (nonneg : size.slt 0#64 = false) :
    tpalloc emptystring size (some (p, fresh)) m =
      .ok (some p, m.setBlock p
        (Block.labelled ⟨(ALLOC_UNITS size * sizeofTpmemory).toNat, fresh⟩ emptystring size)) := by
  have bytes := toNat_bytes nonneg
  have last := toNat_guard nonneg
  set b : Block := ⟨(ALLOC_UNITS size * sizeofTpmemory).toNat, fresh⟩ with hb
  have size_eq : b.size = guardAt size.toNat + 32 := bytes
  have first : 32 * (0#64).toNat + 32 ≤ b.size := by
    rw [size_eq]
    simp [guardAt]
  have second : 32 * (ALLOC_UNITS size - 1).toNat + 32 ≤ b.size := by omega
  have allocated : malloc (ALLOC_UNITS size * sizeofTpmemory) (some (p, fresh)) m =
      .ok (some p, m.setBlock p b) := rfl
  rw [tpalloc, nonneg, if_neg (by simp), bind_of_ok allocated]
  change (writeField p 0#64 .subtype emptystring >>= _) (m.setBlock p b) = _
  rw [writeField_bind first, writeField_bind, writeField_bind, writeField_bind, writeField_bind,
    writeField_bind, writeField_bind, writeField_bind]
  · rfl
  all_goals first | exact first | exact second

theorem tpalloc_refused (emptystring : BitVec 64) {m : Memory} {size : BitVec 64} {reply : Reply}
    (refused : size.slt 0#64 = true ∨ reply = none) :
    ∃ errno, tpalloc emptystring size reply m = .ok (none, { m with tperrno := errno }) := by
  by_cases negative : size.slt 0#64 = true
  · refine ⟨BitVec.ofNat 32 TPEINVAL, ?_⟩
    rw [tpalloc, if_pos negative]
    rfl
  · obtain rfl := refused.resolve_left negative
    refine ⟨BitVec.ofNat 32 TPEOS, ?_⟩
    rw [tpalloc, if_neg negative]
    rfl

/-! ## Reallocation -/

/-- The block after the assignments of `tprealloc`. -/
def Block.relabelled (b : Block) (size : BitVec 64) : Block :=
  let p2 := ALLOC_UNITS size - 1
  let b := (b.write 0#64 .len size).write p2 .len size
  let b := b.write p2 .type (b.read 0#64 .type)
  let b := b.write p2 .subtype (b.read 0#64 .subtype)
  b.write p2 .magic (b.read 0#64 .magic)

theorem Block.relabelled_formed (b : Block) {emptystring old size : BitVec 64}
    (nonneg : size.slt 0#64 = false) (size_eq : b.size = guardAt size.toNat + 32)
    (header : ∀ field, b.read 0#64 field = field.value emptystring old) :
    (b.relabelled size).Formed emptystring size := by
  refine ⟨nonneg, size_eq, fun field => ?_, fun field => ?_⟩
  · cases field <;> simp [relabelled, Block.read_write, header, Field.value]
  · cases field <;> simp [relabelled, Block.read_write, header, Field.value]

theorem Block.cell_relabelled (b : Block) {size : BitVec 64} (nonneg : size.slt 0#64 = false)
    {i : Nat} (inside : i < size.toNat) : (b.relabelled size).cell (32 + i) = b.cell (32 + i) := by
  have before := data_le_guardAt size.toNat
  have last := toNat_guard nonneg
  have header : 32 + i < 32 * (0#64).toNat ∨ 32 * (0#64).toNat + 32 ≤ 32 + i := by
    right
    simp
  have guard : 32 + i < 32 * (ALLOC_UNITS size - 1).toNat ∨
      32 * (ALLOC_UNITS size - 1).toNat + 32 ≤ 32 + i := by
    left
    omega
  simp only [relabelled, Block.cell_write _ _ _ _ header, Block.cell_write _ _ _ _ guard]

/-- What `realloc` leaves in a block of `n` bytes. -/
def Block.moved (b : Block) (n : Nat) (fresh : Cells) : Block :=
  ⟨n, fun i => if i < b.size then b.cell i else fresh i⟩

theorem Block.read_moved (b : Block) (n : Nat) (fresh : Cells) (field : Field)
    (inside : 32 * (0#64).toNat + 32 ≤ b.size) :
    (b.moved n fresh).read 0#64 field = b.read 0#64 field := by
  have small := field.offset_le
  refine load_congr fun i lower upper => if_pos ?_
  omega

section Moved

variable {emptystring old size : BitVec 64} {b : Block} (formed : b.Formed emptystring old)
  (accepted : size.slt 0#64 = false) (fresh : Cells)

include formed accepted

theorem Block.Formed.relabelled_moved :
    ((b.moved (ALLOC_UNITS size * sizeofTpmemory).toNat fresh).relabelled size).Formed
      emptystring size := by
  have header : ∀ field,
      (b.moved (ALLOC_UNITS size * sizeofTpmemory).toNat fresh).read 0#64 field =
        field.value emptystring old := by
    intro field
    rw [Block.read_moved _ _ _ _ formed.header_inside, formed.header]
  exact Block.relabelled_formed _ accepted (toNat_bytes accepted) header

theorem Block.Formed.cell_moved {i : Nat} (stays : i < size.toNat) (inside : i < old.toNat) :
    ((b.moved (ALLOC_UNITS size * sizeofTpmemory).toNat fresh).relabelled size).cell (32 + i) =
      b.cell (32 + i) := by
  have before := data_le_guardAt old.toNat
  have whole := formed.size_eq
  rw [Block.cell_relabelled _ accepted stays]
  exact if_pos (by omega)

end Moved

theorem tprealloc_run {emptystring old size : BitVec 64} {m : Memory} {p q : Ptr} {b : Block}
    {fresh : Cells} (formed : b.Formed emptystring old) (found : m.block p = some b)
    (nonneg : size.slt 0#64 = false) :
    tprealloc (some p) size (some (q, fresh)) m =
      .ok (some q, Memory.setBlock { m with block := Function.update m.block p none } q
        ((b.moved (ALLOC_UNITS size * sizeofTpmemory).toNat fresh).relabelled size)) := by
  have bytes := toNat_bytes nonneg
  have last := toNat_guard nonneg
  set b' := b.moved (ALLOC_UNITS size * sizeofTpmemory).toNat fresh with hb
  set m' : Memory := { m with block := Function.update m.block p none } with hm
  have size_eq : b'.size = guardAt size.toNat + 32 := bytes
  have first : 32 * (0#64).toNat + 32 ≤ b'.size := by
    rw [size_eq]
    simp [guardAt]
  have second : 32 * (ALLOC_UNITS size - 1).toNat + 32 ≤ b'.size := by omega
  have reallocated : realloc p (ALLOC_UNITS size * sizeofTpmemory) (some (q, fresh)) m =
      .ok (some q, m'.setBlock q b') := by
    rw [realloc, bind_of_ok (lookup_run found)]
    rfl
  rw [tprealloc, bind_of_ok (formed.isMagic found), nonneg]
  change (readField p 0#64 .len >>= _) m = _
  rw [bind_of_ok (formed.readHeader found .len)]
  change (assertGuard p (ALLOC_UNITS old - 1) >>= _) m = _
  rw [seq_of_ok (formed.assertGuard_run found), bind_of_ok reallocated]
  change (writeField q 0#64 .len size >>= _) (m'.setBlock q b') = _
  rw [writeField_bind first, writeField_bind, readField_bind, writeField_bind, readField_bind,
    writeField_bind, readField_bind, writeField_bind]
  · rfl
  all_goals first | exact first | exact second

theorem tprealloc_refused {emptystring old size : BitVec 64} {m : Memory} {p : Ptr} {b : Block}
    {reply : Reply} (formed : b.Formed emptystring old) (found : m.block p = some b)
    (refused : size.slt 0#64 = true ∨ reply = none) :
    ∃ errno, tprealloc (some p) size reply m = .ok (none, { m with tperrno := errno }) := by
  rw [tprealloc, bind_of_ok (formed.isMagic found)]
  cases negative : size.slt 0#64 with
  | true => exact ⟨BitVec.ofNat 32 TPEINVAL, rfl⟩
  | false =>
      obtain rfl := refused.resolve_left (by simp [negative])
      refine ⟨BitVec.ofNat 32 TPEOS, ?_⟩
      change (readField p 0#64 .len >>= _) m = _
      rw [bind_of_ok (formed.readHeader found .len)]
      change (assertGuard p (ALLOC_UNITS old - 1) >>= _) m = _
      rw [seq_of_ok (formed.assertGuard_run found)]
      rfl

/-! ## Sequences of calls -/

/-- What a program does with its buffers. -/
inductive Call
  | alloc (size : BitVec 64) (reply : Reply)
  | realloc (p : Ptr) (size : BitVec 64) (reply : Reply)
  | free (p : Ptr)
  /-- Assign byte `i` of the data. -/
  | poke (p : Ptr) (i : Nat) (value : Byte)

/-- The call, with the pointer it returns, if any. -/
def Call.run (emptystring : BitVec 64) : Call → M (Option Ptr)
  | .alloc size reply => tpalloc emptystring size reply
  | .realloc p size reply => tprealloc (some p) size reply
  | .free p => do
      tpfree (some p)
      pure none
  | .poke p i value => do
      TypedBuffer.poke p i value
      pure none

/-- The size last requested for every live buffer. -/
abbrev Sizes := Ptr → Option (BitVec 64)

/-- The sizes after a call that returned `result`. -/
def Call.sizes (sizes : Sizes) : Call → Option Ptr → Sizes
  | .alloc size _, some p => Function.update sizes p (some size)
  | .realloc p size _, some q => Function.update (Function.update sizes p none) q (some size)
  | .free p, _ => Function.update sizes p none
  | _, _ => sizes

/-- Buffers that are used are live, data is assigned within the size of its buffer, and `malloc` and
`realloc` return memory that is not in use. -/
def Call.Allowed (m : Memory) (sizes : Sizes) : Call → Prop
  | .alloc _ reply => ∀ p fresh, reply = some (p, fresh) → m.block p = none
  | .realloc p _ reply => (sizes p).isSome ∧
      ∀ q fresh, reply = some (q, fresh) → q = p ∨ m.block q = none
  | .free p => (sizes p).isSome
  | .poke p i _ => ∃ size, sizes p = some size ∧ i < size.toNat

/-- What a call does to memory. -/
def Call.Effect (m : Memory) (sizes : Sizes) (m' : Memory) : Call → Option Ptr → Prop
  | .alloc size reply, result =>
      (result = none ↔ size.slt 0#64 = true ∨ reply = none) ∧
        ∀ q, result ≠ some q → m'.block q = m.block q
  | .realloc p size reply, result =>
      (result = none ↔ size.slt 0#64 = true ∨ reply = none) ∧
        (result = none → m'.block = m.block) ∧
        (∀ q, q ≠ p → result ≠ some q → m'.block q = m.block q) ∧
        ∀ q, result = some q → ∃ b b' old, m.block p = some b ∧ m'.block q = some b' ∧
          sizes p = some old ∧
          ∀ i, i < min old.toNat size.toNat → b'.cell (32 + i) = b.cell (32 + i)
  | .free p, _ => ∀ q, m'.block q = if q = p then none else m.block q
  | .poke p i value, _ => ∃ b b', m.block p = some b ∧ m'.block p = some b' ∧
      (∀ j, b'.cell (32 + j) = if j = i then value else b.cell (32 + j)) ∧
      ∀ q, q ≠ p → m'.block q = m.block q

/-- Memory and sizes after allowed calls, from memory without buffers. -/
inductive Reached (emptystring : BitVec 64) : Memory → Sizes → Prop
  | start (m : Memory) : Reached emptystring m fun _ => none
  | next {m m' : Memory} {sizes : Sizes} {call : Call} {result : Option Ptr} :
      Reached emptystring m sizes →
      call.Allowed m sizes →
      call.run emptystring m = .ok (result, m') →
      Reached emptystring m' (call.sizes sizes result)

/-- Every live buffer is well formed. -/
def Holds (emptystring : BitVec 64) (m : Memory) (sizes : Sizes) : Prop :=
  ∀ p size, sizes p = some size → ∃ b, m.block p = some b ∧ b.Formed emptystring size

section Calls

variable {emptystring : BitVec 64} {m : Memory} {sizes : Sizes}

/-- One buffer changes and the blocks of all others stay. -/
theorem Holds.replace {m' : Memory} {sizes' : Sizes} {p : Ptr} {size : BitVec 64} {b : Block}
    (holds : Holds emptystring m sizes) (found : m'.block p = some b)
    (formed : b.Formed emptystring size) (here : sizes' p = some size)
    (others : ∀ q, q ≠ p → ∀ size', sizes' q = some size' →
      sizes q = some size' ∧ m'.block q = m.block q) :
    Holds emptystring m' sizes' := by
  intro q size' live
  by_cases same : q = p
  · subst same
    obtain rfl := Option.some.inj (here.symm.trans live)
    exact ⟨b, found, formed⟩
  · obtain ⟨before, kept⟩ := others q same size' live
    rw [kept]
    exact holds q size' before

theorem alloc_holds (holds : Holds emptystring m sizes) (size : BitVec 64) (reply : Reply) :
    ∃ result m', tpalloc emptystring size reply m = .ok (result, m') ∧
      Holds emptystring m' ((Call.alloc size reply).sizes sizes result) ∧
      (Call.alloc size reply).Effect m sizes m' result := by
  by_cases refused : size.slt 0#64 = true ∨ reply = none
  · obtain ⟨errno, done⟩ := tpalloc_refused emptystring (m := m) refused
    exact ⟨none, _, done, holds, ⟨fun _ => refused, fun _ => rfl⟩, fun _ _ => rfl⟩
  · obtain ⟨nonneg, given⟩ := not_or.mp refused
    replace nonneg : size.slt 0#64 = false := by simpa using nonneg
    obtain ⟨⟨p, fresh⟩, rfl⟩ := Option.ne_none_iff_exists'.mp given
    refine ⟨some p, _, tpalloc_run emptystring nonneg, ?_,
      ⟨by simp, fun both => absurd both refused⟩, ?_⟩
    · refine holds.replace (Memory.block_setBlock _ _ _)
        (Block.labelled_formed _ nonneg (toNat_bytes nonneg)) (Function.update_self ..) ?_
      intro q other size' live
      rw [Call.sizes, Function.update_of_ne other] at live
      exact ⟨live, Memory.block_setBlock_of_ne _ _ other⟩
    · intro q other
      exact Memory.block_setBlock_of_ne _ _ fun same => other (by rw [same])

theorem realloc_holds (holds : Holds emptystring m sizes) {p : Ptr} {size : BitVec 64}
    {reply : Reply} (allowed : (Call.realloc p size reply).Allowed m sizes) :
    ∃ result m', tprealloc (some p) size reply m = .ok (result, m') ∧
      Holds emptystring m' ((Call.realloc p size reply).sizes sizes result) ∧
      (Call.realloc p size reply).Effect m sizes m' result := by
  obtain ⟨old, live⟩ := Option.isSome_iff_exists.mp allowed.1
  obtain ⟨b, found, formed⟩ := holds p old live
  by_cases refused : size.slt 0#64 = true ∨ reply = none
  · obtain ⟨errno, done⟩ := tprealloc_refused formed found refused
    exact ⟨none, _, done, holds, ⟨fun _ => refused, fun _ => rfl⟩, fun _ => rfl, fun _ _ _ => rfl,
      by simp⟩
  · obtain ⟨nonneg, given⟩ := not_or.mp refused
    replace nonneg : size.slt 0#64 = false := by simpa using nonneg
    obtain ⟨⟨q, fresh⟩, rfl⟩ := Option.ne_none_iff_exists'.mp given
    have apart : ∀ r, r ≠ p → r ≠ q →
        (Memory.setBlock { m with block := Function.update m.block p none } q
          ((b.moved (ALLOC_UNITS size * sizeofTpmemory).toNat fresh).relabelled size)).block r =
            m.block r := by
      intro r other other'
      rw [Memory.block_setBlock_of_ne _ _ other']
      exact Function.update_of_ne other _ _
    refine ⟨some q, _, tprealloc_run formed found nonneg, ?_,
      ⟨by simp, fun both => absurd both refused⟩, by simp, ?_, ?_⟩
    · refine holds.replace (Memory.block_setBlock _ _ _)
        (formed.relabelled_moved nonneg fresh) (Function.update_self ..) ?_
      intro r other size' live'
      rw [Call.sizes, Function.update_of_ne other] at live'
      by_cases same : r = p
      · simp [same] at live'
      · rw [Function.update_of_ne same] at live'
        exact ⟨live', apart r same other⟩
    · intro r other other'
      exact apart r other fun same => other' (by rw [same])
    · intro r same
      obtain rfl := Option.some.inj same
      refine ⟨b, _, old, found, Memory.block_setBlock _ _ _, live, fun i inside => ?_⟩
      exact formed.cell_moved nonneg fresh (by omega) (by omega)

theorem free_holds (holds : Holds emptystring m sizes) {p : Ptr}
    (allowed : (Call.free p).Allowed m sizes) :
    ∃ result m', (Call.free p).run emptystring m = .ok (result, m') ∧
      Holds emptystring m' ((Call.free p).sizes sizes result) ∧
      (Call.free p).Effect m sizes m' result := by
  obtain ⟨size, live⟩ := Option.isSome_iff_exists.mp allowed
  obtain ⟨b, found, formed⟩ := holds p size live
  refine ⟨none, { m with block := Function.update m.block p none }, ?_, ?_,
    fun q => Function.update_apply ..⟩
  · rw [Call.run, seq_of_ok (formed.tpfree_run found)]
    rfl
  · intro q size' live'
    simp only [Call.sizes] at live'
    by_cases same : q = p
    · simp [same] at live'
    · rw [Function.update_of_ne same] at live'
      obtain ⟨b', found', formed'⟩ := holds q size' live'
      exact ⟨b', (Function.update_of_ne same _ _).trans found', formed'⟩

theorem poke_holds (holds : Holds emptystring m sizes) {p : Ptr} {i : Nat} {value : Byte}
    (allowed : (Call.poke p i value).Allowed m sizes) :
    ∃ result m', (Call.poke p i value).run emptystring m = .ok (result, m') ∧
      Holds emptystring m' ((Call.poke p i value).sizes sizes result) ∧
      (Call.poke p i value).Effect m sizes m' result := by
  obtain ⟨size, live, inside⟩ := allowed
  obtain ⟨b, found, formed⟩ := holds p size live
  have before := data_le_guardAt size.toNat
  have whole := formed.size_eq
  let b' : Block := { b with cell := Function.update b.cell (32 + i) value }
  have done : poke p i value m = .ok (⟨⟩, m.setBlock p b') := by
    rw [poke, bind_of_ok (lookup_run found), if_pos (by omega)]
    rfl
  refine ⟨none, m.setBlock p b', ?_, ?_, b, b', found, Memory.block_setBlock _ _ _, ?_, ?_⟩
  · rw [Call.run, seq_of_ok done]
    rfl
  · refine holds.replace (Memory.block_setBlock _ _ _) (formed.poke inside value) live ?_
    intro q other size' live'
    exact ⟨live', Memory.block_setBlock_of_ne _ _ other⟩
  · intro j
    simp [b', Function.update_apply]
  · intro q other
    exact Memory.block_setBlock_of_ne _ _ other

theorem call_holds (holds : Holds emptystring m sizes) {call : Call}
    (allowed : call.Allowed m sizes) :
    ∃ result m', call.run emptystring m = .ok (result, m') ∧
      Holds emptystring m' (call.sizes sizes result) ∧ call.Effect m sizes m' result := by
  cases call with
  | alloc size reply => exact alloc_holds holds size reply
  | realloc p size reply => exact realloc_holds holds allowed
  | free p => exact free_holds holds allowed
  | poke p i value => exact poke_holds holds allowed

theorem holds_of_reached (reached : Reached emptystring m sizes) : Holds emptystring m sizes := by
  induction reached with
  | start m => exact fun p size live => absurd live (by simp)
  | next _ allowed done ih =>
      obtain ⟨result, m', done', holds, -⟩ := call_holds ih allowed
      obtain ⟨rfl, rfl⟩ := Prod.mk.inj (Except.ok.inj (done.symm.trans done'))
      exact holds

end Calls

/-- After any sequence of calls: the number of bytes asked of `malloc` does not wrap; in the block
of every live buffer header, data and guard follow one another, header and guard agree, and
`tptypes` returns the size last requested; and every further call returns without a failed assertion
or a wild access, moves the bytes that fit when it resizes, and changes nothing when it refuses. -/
theorem buffers_keep_guards {emptystring : BitVec 64} {m : Memory} {sizes : Sizes}
    (reached : Reached emptystring m sizes) :
    (∀ size : BitVec 64, size.slt 0#64 = false →
      (ALLOC_UNITS size * sizeofTpmemory).toNat = 32 * ((size.toNat + 31) / 32 + 2)) ∧
    (∀ p size, sizes p = some size → ∃ b, m.block p = some b ∧
      32 + size.toNat ≤ 32 * (ALLOC_UNITS size - 1).toNat ∧
      32 * (ALLOC_UNITS size - 1).toNat + 32 = b.size ∧
      (∀ field, b.read 0#64 field = b.read (ALLOC_UNITS size - 1) field) ∧
      tptypes (some p) m = .ok ((size, some (emptystring, emptystring)), m)) ∧
    ∀ call : Call, call.Allowed m sizes → ∃ result m', call.run emptystring m = .ok (result, m') ∧
      call.Effect m sizes m' result := by
  have holds := holds_of_reached reached
  refine ⟨fun size nonneg => ?_, fun p size live => ?_, fun call allowed => ?_⟩
  · rw [toNat_bytes nonneg, guardAt]
    omega
  · obtain ⟨b, found, formed⟩ := holds p size live
    have last := toNat_guard formed.nonneg
    have whole := formed.size_eq
    refine ⟨b, found, ?_, ?_, fun field => ?_, formed.tptypes_run found⟩
    · rw [last]
      exact data_le_guardAt size.toNat
    · rw [last, whole]
    · rw [formed.header, formed.guard]
  · obtain ⟨result, m', done, -, effect⟩ := call_holds holds allowed
    exact ⟨result, m', done, effect⟩

/-- A buffer of 33 bytes in empty memory. -/
theorem buffers_keep_guards_allocated :
    ∃ m, tpalloc 7 33 (some (1, fun _ => 0)) { block := fun _ => none } = .ok (some 1, m) ∧
      tptypes (some 1) m = .ok ((33, some (7, 7)), m) := by
  have done : tpalloc 7 33 (some (1, fun _ => 0)) { block := fun _ => none } = .ok (some 1, _) :=
    tpalloc_run 7 (by decide)
  have start : Reached 7 { block := fun _ => none } fun _ => none := .start _
  have reached : Reached 7 _ ((Call.alloc 33 (some (1, fun _ => 0))).sizes (fun _ => none)
      (some 1)) :=
    start.next (fun _ _ _ => rfl) done
  obtain ⟨b, -, -, -, -, types⟩ := (buffers_keep_guards reached).2.1 1 33 rfl
  exact ⟨_, done, types⟩

end TypedBuffer
end Xatmi
