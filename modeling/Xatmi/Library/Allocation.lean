import Xatmi.Library.Calls
import Xatmi.Library.TypedBuffer
import Xatmi.Switchboard.Execution

/-!
# Allocation

The switchboard and the library work on buffers that are strings of bytes, `tpalloc.c` and
`tprealloc.c` on the blocks of `malloc`. All of them allocate alike: the result is null for a
negative size and when there is no memory, and otherwise a buffer of the size asked for that begins
as the old one did. What else a new buffer holds is left open; in the switchboard and in the library
it is 0.
-/

namespace Xatmi

/-- What becomes of a buffer that holds `contents` when `size` bytes are asked for; `granted` says
whether there is memory.  A new buffer is one that held nothing. -/
def Reallocates (granted : Bool) (contents : Bytes) (size : Int) : Option Bytes → Prop
  | none => size < 0 ∨ granted = false
  | some after => (0 ≤ size ∧ granted = true) ∧ after.length = size.toNat ∧
      after.take contents.length = contents.take size.toNat

variable {granted : Bool} {contents : Bytes} {size : Int}

/-- Both are null, or both have one length and begin with the same of what there was. -/
def Alike (contents : Bytes) (x y : Option Bytes) : Prop :=
  x.map (fun after => (after.length, after.take contents.length)) =
    y.map fun after => (after.length, after.take contents.length)

theorem Reallocates.alike {x y : Option Bytes} (first : Reallocates granted contents size x)
    (second : Reallocates granted contents size y) : Alike contents x y := by
  cases x with
  | none =>
      cases y with
      | none => rfl
      | some after =>
          obtain ⟨⟨nonneg, memory⟩, _⟩ := second
          rcases first with negative | short
          · exact absurd negative (Int.not_lt.mpr nonneg)
          · cases short.symm.trans memory
  | some after =>
      obtain ⟨⟨nonneg, memory⟩, length, kept⟩ := first
      cases y with
      | none =>
          rcases second with negative | short
          · exact absurd negative (Int.not_lt.mpr nonneg)
          · cases short.symm.trans memory
      | some after' =>
          obtain ⟨_, length', kept'⟩ := second
          rw [Alike, Option.map_some, Option.map_some, length, length', kept, kept']

theorem toNat_toInt {size : BitVec 64} (nonneg : 0 ≤ size.toInt) :
    size.toInt.toNat = size.toNat := by
  have small := size.isLt
  simp only [BitVec.toInt_eq_toNat_cond] at nonneg ⊢
  omega

/-! ## The switchboard and the library -/

theorem reallocates_resize (contents : Bytes) (nonneg : 0 ≤ size) :
    Reallocates true contents size (some (Switchboard.resize contents size.toNat)) := by
  refine ⟨⟨nonneg, rfl⟩, ?_, ?_⟩
  · simp only [Switchboard.resize, List.length_append, List.length_take, List.length_replicate]
    omega
  · rcases Nat.le_total contents.length size.toNat with grows | shrinks
    · rw [Switchboard.resize, List.take_of_length_le grows, List.take_left]
    · have nothing : size.toNat - contents.length = 0 := Nat.sub_eq_zero_of_le shrinks
      rw [Switchboard.resize, nothing, List.replicate_zero, List.append_nil, List.take_take,
        Nat.min_eq_right shrinks]

namespace Switchboard

variable {σ : State} {b : BufId}

/-- The buffer at the address that is returned, if any; without it the memory is what it was. -/
def Returned (σ σ' : State) (result : Option BufId) : Option Bytes → Prop
  | none => result = none ∧ σ' = σ
  | some after => ∃ b, result = some b ∧ σ'.buf b = some after

theorem tpreallocWith_reallocates (granted : Bool) (size : Int) (held : σ.buf b = some contents) :
    ∃ result σ' after, tpreallocWith granted b size σ = .ok (result, σ') ∧
      Reallocates granted contents size after ∧ Returned σ σ' result after := by
  by_cases refused : size < 0 ∨ granted = false
  · exact ⟨none, σ, none, tpreallocWith_ok_iff.mpr ⟨contents, held, .inl ⟨refused, rfl, rfl⟩⟩,
      refused, rfl, rfl⟩
  · obtain ⟨nonneg, memory⟩ := not_or.mp refused
    have nonneg : 0 ≤ size := Int.not_lt.mp nonneg
    obtain rfl : granted = true := by simpa using memory
    refine ⟨some σ.next, _, some (resize contents size.toNat),
      tpreallocWith_ok_iff.mpr ⟨contents, held, .inr ⟨nonneg, rfl, rfl, rfl⟩⟩,
      reallocates_resize contents nonneg, σ.next, rfl, if_pos rfl⟩

theorem tpalloc_reallocates (σ : State) (size : Int) :
    ∃ result σ' after, tpalloc size σ = .ok (result, σ') ∧ Reallocates true [] size after ∧
      Returned σ σ' result after := by
  rcases Int.lt_or_le size 0 with negative | nonneg
  · exact ⟨none, σ, none, tpalloc_ok_iff.mpr (.inl ⟨negative, rfl, rfl⟩), .inl negative, rfl, rfl⟩
  · have zeros : resize [] size.toNat = List.replicate size.toNat 0 := by simp [resize]
    refine ⟨some σ.next, _, some (resize [] size.toNat),
      tpalloc_ok_iff.mpr (.inr ⟨nonneg, rfl, rfl⟩), reallocates_resize [] nonneg, σ.next, rfl, ?_⟩
    rw [zeros]
    exact if_pos rfl

end Switchboard

namespace Library

theorem tprealloc_reallocates (contents : Bytes) (size : Int) (session : Session) :
    Reallocates true contents size (tprealloc (some contents) size session).1 := by
  simp only [tprealloc]
  rcases Int.lt_or_le size 0 with negative | nonneg
  · rw [if_pos negative]
    exact .inl negative
  · rw [if_neg (Int.not_lt.mpr nonneg)]
    exact reallocates_resize contents nonneg

theorem tpalloc_reallocates (size : BitVec 64) (session : Session) :
    Reallocates true [] size.toInt (tpalloc size session).1 := by
  simp only [tpalloc]
  rcases Int.lt_or_le size.toInt 0 with negative | nonneg
  · rw [if_pos negative]
    exact .inl negative
  · rw [if_neg (Int.not_lt.mpr nonneg)]
    exact ⟨⟨nonneg, rfl⟩, by simp [toNat_toInt nonneg], by simp⟩

end Library

/-! ## Blocks -/

namespace TypedBuffer

open Words

variable {emptystring : BitVec 64} {m : Memory} {p : Ptr}

/-- There is a buffer with `contents` at `p`. -/
def Stores (emptystring : BitVec 64) (m : Memory) (p : Ptr) (contents : Bytes) : Prop :=
  ∃ b size, m.block p = some b ∧ b.Formed emptystring size ∧ contents = bytes b.cell 32 size.toNat

/-- The buffer at the address that is returned, if any; without it no block has changed. -/
def Returned (emptystring : BitVec 64) (m m' : Memory) (result : Option Ptr) : Option Bytes → Prop
  | none => result = none ∧ m'.block = m.block
  | some after => ∃ q, result = some q ∧ Stores emptystring m' q after

theorem slt_zero_iff {size : BitVec 64} : size.slt 0#64 = true ↔ size.toInt < 0 := by
  simp [BitVec.slt]

theorem reallocates_refused {size : BitVec 64} {reply : Reply}
    (refused : size.slt 0#64 = true ∨ reply = none) :
    Reallocates reply.isSome contents size.toInt none := by
  refine refused.imp slt_zero_iff.mp ?_
  rintro rfl
  rfl

theorem reallocates_formed {size : BitVec 64} {b : Block} (nonneg : size.slt 0#64 = false)
    (kept : ∀ i, i < min contents.length size.toNat → contents[i]? = some (b.cell (32 + i))) :
    Reallocates true contents size.toInt (some (bytes b.cell 32 size.toNat)) := by
  have nonneg : 0 ≤ size.toInt := by
    rw [← Int.not_lt, ← slt_zero_iff, nonneg]
    simp
  refine ⟨⟨nonneg, rfl⟩, ?_, ?_⟩
  · simp [bytes, toNat_toInt nonneg]
  · rw [toNat_toInt nonneg]
    refine List.ext_getElem? fun i => ?_
    rw [List.getElem?_take, List.getElem?_take, bytes, List.getElem?_map]
    by_cases inside : i < size.toNat
    · by_cases before : i < contents.length
      · rw [if_pos before, if_pos inside, List.getElem?_range inside, kept i (by omega)]
        rfl
      · rw [if_neg before, if_pos inside, List.getElem?_eq_none (Nat.le_of_not_lt before)]
    · have outside : (List.range size.toNat)[i]? = none :=
        List.getElem?_eq_none (by simpa using inside)
      rw [outside, if_neg inside]
      split <;> rfl

theorem tprealloc_reallocates (stores : Stores emptystring m p contents) (size : BitVec 64)
    (reply : Reply) :
    ∃ result m' after, tprealloc (some p) size reply m = .ok (result, m') ∧
      Reallocates reply.isSome contents size.toInt after ∧
      Returned emptystring m m' result after := by
  obtain ⟨b, old, found, formed, rfl⟩ := stores
  by_cases refused : size.slt 0#64 = true ∨ reply = none
  · obtain ⟨errno, done⟩ := tprealloc_refused formed found refused
    exact ⟨none, _, none, done, reallocates_refused refused, rfl, rfl⟩
  · obtain ⟨nonneg, given⟩ := not_or.mp refused
    replace nonneg : size.slt 0#64 = false := by simpa using nonneg
    obtain ⟨⟨q, fresh⟩, rfl⟩ := Option.ne_none_iff_exists'.mp given
    refine ⟨some q, _, some _, tprealloc_run formed found nonneg, reallocates_formed nonneg ?_, q,
      rfl, _, size, Memory.block_setBlock _ _ _, formed.relabelled_moved nonneg fresh, rfl⟩
    intro i inside
    have length : (bytes b.cell 32 old.toNat).length = old.toNat := by simp [bytes]
    rw [length] at inside
    rw [formed.cell_moved nonneg fresh (by omega) (by omega), bytes, List.getElem?_map,
      List.getElem?_range (by omega)]
    rfl

theorem tpalloc_reallocates (emptystring : BitVec 64) (m : Memory) (size : BitVec 64)
    (reply : Reply) :
    ∃ result m' after, tpalloc emptystring size reply m = .ok (result, m') ∧
      Reallocates reply.isSome [] size.toInt after ∧ Returned emptystring m m' result after := by
  by_cases refused : size.slt 0#64 = true ∨ reply = none
  · obtain ⟨errno, done⟩ := @tpalloc_refused emptystring m size reply refused
    exact ⟨none, _, none, done, reallocates_refused refused, rfl, rfl⟩
  · obtain ⟨nonneg, given⟩ := not_or.mp refused
    replace nonneg : size.slt 0#64 = false := by simpa using nonneg
    obtain ⟨⟨p, fresh⟩, rfl⟩ := Option.ne_none_iff_exists'.mp given
    refine ⟨some p, _, some _, tpalloc_run emptystring nonneg, reallocates_formed nonneg ?_,
      p, rfl, _, size, Memory.block_setBlock _ _ _, Block.labelled_formed _ nonneg
      (toNat_bytes nonneg), rfl⟩
    intro i inside
    simp at inside

end TypedBuffer

/-! ## Agreement -/

open TypedBuffer (Stores Memory Ptr Reply)

variable {σ : Switchboard.State} {b : Switchboard.BufId} {m : Memory} {p : Ptr}
  {emptystring : BitVec 64}

/-- `tprealloc` of the switchboard and of the library do what `tprealloc.c` does to the block that
holds the buffer; the library is modelled while there is memory. -/
theorem tprealloc_agrees (held : σ.buf b = some contents)
    (stores : Stores emptystring m p contents) (size : BitVec 64) (reply : Reply) :
    ∃ result m' after, TypedBuffer.tprealloc (some p) size reply m = .ok (result, m') ∧
      TypedBuffer.Returned emptystring m m' result after ∧
      (∃ result' σ' after', Switchboard.tpreallocWith reply.isSome b size.toInt σ =
        .ok (result', σ') ∧ Switchboard.Returned σ σ' result' after' ∧
        Alike contents after' after) ∧
      (reply.isSome = true → ∀ session,
        Alike contents (Library.tprealloc (some contents) size.toInt session).1 after) := by
  obtain ⟨result, m', after, done, reallocates, returned⟩ :=
    TypedBuffer.tprealloc_reallocates stores size reply
  obtain ⟨result', σ', after', done', reallocates', returned'⟩ :=
    Switchboard.tpreallocWith_reallocates reply.isSome size.toInt held
  refine ⟨result, m', after, done, returned,
    ⟨result', σ', after', done', returned', reallocates'.alike reallocates⟩, ?_⟩
  intro memory session
  rw [memory] at reallocates
  exact (Library.tprealloc_reallocates contents size.toInt session).alike reallocates

/-- `tpalloc` of the switchboard and of the library do what `tpalloc.c` does while there is
memory. -/
theorem tpalloc_agrees (σ : Switchboard.State) (m : Memory) (emptystring size : BitVec 64)
    {reply : Reply} (memory : reply.isSome = true) :
    ∃ result m' after, TypedBuffer.tpalloc emptystring size reply m = .ok (result, m') ∧
      TypedBuffer.Returned emptystring m m' result after ∧
      (∃ result' σ' after', Switchboard.tpalloc size.toInt σ = .ok (result', σ') ∧
        Switchboard.Returned σ σ' result' after' ∧ Alike [] after' after) ∧
      ∀ session, Alike [] (Library.tpalloc size session).1 after := by
  obtain ⟨result, m', after, done, reallocates, returned⟩ :=
    TypedBuffer.tpalloc_reallocates emptystring m size reply
  obtain ⟨result', σ', after', done', reallocates', returned'⟩ :=
    Switchboard.tpalloc_reallocates σ size.toInt
  rw [memory] at reallocates
  exact ⟨result, m', after, done, returned,
    ⟨result', σ', after', done', returned', reallocates'.alike reallocates⟩,
    fun session => (Library.tpalloc_reallocates size session).alike reallocates⟩

end Xatmi
