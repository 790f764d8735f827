import Xatmi.ByteOrder
import Mathlib.Logic.Relation

/-!
# Call descriptors

The part of `new_transaction` that finds a descriptor.  Descriptors come from the table `free_cd`,
which is filled with random numbers when it is used up; entries that some current transaction
already has are struck out at that moment.  The loop that looks for an entry tests the word behind
the table before it refills, so the memory behind the table is part of the model.
-/

namespace Xatmi
namespace Descriptor

/-- Number of descriptors generated at a time. -/
def NUM_FREE_CD : Nat := 10

/-- `free_cd`, its cursor, and the memory behind it. -/
structure Table where
  /-- `free_cd[i]`; behind the table for `i` from `NUM_FREE_CD` on. -/
  cell : Nat → BitVec 16
  /-- `cdp - free_cd`. -/
  cdp : Nat := 0

/-- Ten values of `rand`, truncated to `short`. -/
abbrev Batch := Fin NUM_FREE_CD → BitVec 16

/-- The cells after `for (...) *cdp = rand()`. -/
def fill (cell : Nat → BitVec 16) (batch : Batch) : Nat → BitVec 16 :=
  fun i => if inside : i < NUM_FREE_CD then batch ⟨i, inside⟩ else cell i

/-- Strike out the entries equal to `cd`. -/
def prune (cell : Nat → BitVec 16) (cd : BitVec 16) : Nat → BitVec 16 :=
  fun i => if i < NUM_FREE_CD ∧ cell i = cd then 0 else cell i

/-- Generate a new list, given the descriptors of the current transactions. -/
def Table.refill (table : Table) (current : List (BitVec 16)) (batch : Batch) : Table where
  cell := current.foldl prune (fill table.cell batch)
  cdp := 0

/-- How far `cdp++` takes the cursor, with `room` cells of the table left. -/
def seek (cell : Nat → BitVec 16) : Nat → Nat → Nat
  | 0, cdp => cdp
  | room + 1, cdp => if cell cdp = 0 then seek cell room (cdp + 1) else cdp

/-- The cursor where the loop either ends or generates a new list. -/
def Table.found (table : Table) : Nat :=
  seek table.cell (NUM_FREE_CD - table.cdp) table.cdp

/-- `t->cd = *cdp; *cdp++ = 0` at index `i`. -/
def Table.take (table : Table) (i : Nat) : BitVec 16 × Table :=
  (table.cell i, { cell := fun j => if j = i then 0 else table.cell j, cdp := i + 1 })

/-- The loop of `new_transaction` and the taking of the descriptor; nothing when the given batches
do not end the loop. -/
def newCd (current : List (BitVec 16)) : List Batch → Table → Option (BitVec 16 × Table)
  | [], table => if table.cell table.found ≠ 0 then some (table.take table.found) else none
  | batch :: batches, table =>
      if table.cell table.found ≠ 0 then some (table.take table.found)
      else newCd current batches (table.refill current batch)

/-! ## Sequences of calls -/

/-- The table and the descriptors of the current transactions, in queue order. -/
structure Pool where
  table : Table
  current : List (BitVec 16) := []

/-- Calls that change the set of current transactions. -/
inductive Call
  /-- `new_transaction`, with what `rand` returns meanwhile. -/
  | create (batches : List Batch)
  /-- `del_transaction` of the transaction at position `i`. -/
  | delete (i : Nat)

/-- The pool after a call; nothing while the loop of `new_transaction` is running. -/
def Pool.step (pool : Pool) : Call → Option Pool
  | .create batches =>
      (newCd pool.current batches pool.table).map fun (cd, table) =>
        { table, current := pool.current ++ [cd] }
  | .delete i => some { pool with current := pool.current.eraseIdx i }

/-- The pool before the first call, with `behind` in the memory behind the table. -/
def Pool.initial (behind : Nat → BitVec 16) : Pool where
  table := { cell := fun i => if i < NUM_FREE_CD then 0 else behind i }

/-- Pools reached by calls which all meet `allowed`. -/
inductive Reached (behind : Nat → BitVec 16) (allowed : Pool → Call → Prop) : Pool → Prop
  | initial : Reached behind allowed (.initial behind)
  | next {pool after : Pool} {call : Call} :
      Reached behind allowed pool →
      allowed pool call →
      pool.step call = some after →
      Reached behind allowed after

/-- No value that gets into the table unpruned gets there twice. -/
def Batch.Distinct (current : List (BitVec 16)) (batch : Batch) : Prop :=
  ∀ i j, batch i = batch j → batch i ≠ 0 → batch i ∉ current → i = j

/-- `rand` repeats nothing that matters during the call. -/
def NoRepeat (pool : Pool) : Call → Prop
  | .create batches => ∀ batch ∈ batches, batch.Distinct pool.current
  | .delete _ => True

/-! ## The invariant -/

theorem le_seek (cell : Nat → BitVec 16) (room cdp : Nat) : cdp ≤ seek cell room cdp := by
  induction room generalizing cdp with
  | zero => exact Nat.le_refl cdp
  | succ room ih =>
      rw [seek]
      split
      · exact Nat.le_trans (Nat.le_succ cdp) (ih (cdp + 1))
      · exact Nat.le_refl cdp

theorem seek_le (cell : Nat → BitVec 16) (room cdp : Nat) : seek cell room cdp ≤ cdp + room := by
  induction room generalizing cdp with
  | zero => exact Nat.le_refl cdp
  | succ room ih =>
      have further := ih (cdp + 1)
      rw [seek]
      split <;> omega

theorem foldl_prune_apply (current : List (BitVec 16)) (cell : Nat → BitVec 16) (i : Nat) :
    current.foldl prune cell i = if i < NUM_FREE_CD ∧ cell i ∈ current then 0 else cell i := by
  induction current generalizing cell with
  | nil => simp
  | cons cd current ih =>
      rw [List.foldl_cons, ih]
      simp only [prune, List.mem_cons]
      grind

/-- The entries in front of the cursor, the word behind the table and the descriptors in use. -/
structure Sound (current : List (BitVec 16)) (table : Table) : Prop where
  behind : table.cell NUM_FREE_CD = 0
  cursor : table.cdp ≤ NUM_FREE_CD
  unused : ∀ i, table.cdp ≤ i → i < NUM_FREE_CD → table.cell i ≠ 0 → table.cell i ∉ current
  distinct : ∀ i j, table.cdp ≤ i → i < NUM_FREE_CD → table.cdp ≤ j → j < NUM_FREE_CD →
    table.cell i ≠ 0 → table.cell i = table.cell j → i = j

theorem Sound.initial {behind : Nat → BitVec 16} (zero : behind NUM_FREE_CD = 0) :
    Sound [] (Pool.initial behind).table := by
  constructor <;> simp only [Pool.initial] <;> grind

theorem Sound.refill {current : List (BitVec 16)} {table : Table} {batch : Batch}
    (sound : Sound current table) (distinct : batch.Distinct current) :
    Sound current (table.refill current batch) := by
  have inside (i : Nat) (h : i < NUM_FREE_CD) : (table.refill current batch).cell i =
      if batch ⟨i, h⟩ ∈ current then 0 else batch ⟨i, h⟩ := by
    simp [Table.refill, foldl_prune_apply, fill, h]
  constructor
  · simp [Table.refill, foldl_prune_apply, fill, sound.behind]
  · exact Nat.zero_le _
  · intro i _ small nonzero
    rw [inside i small] at nonzero ⊢
    grind
  · intro i j _ iSmall _ jSmall nonzero same
    rw [inside i iSmall] at nonzero same
    rw [inside j jSmall] at same
    have := distinct ⟨i, iSmall⟩ ⟨j, jSmall⟩
    grind

theorem Sound.found_lt {current : List (BitVec 16)} {table : Table} (sound : Sound current table)
    (hit : table.cell table.found ≠ 0) : table.found < NUM_FREE_CD := by
  have upper := seek_le table.cell (NUM_FREE_CD - table.cdp) table.cdp
  have cursor := sound.cursor
  have behind := sound.behind
  have bound : table.found ≤ NUM_FREE_CD := by unfold Table.found; omega
  refine Nat.lt_of_le_of_ne bound ?_
  intro last
  rw [last] at hit
  exact hit behind

/-- Taking an entry keeps the others usable. -/
theorem Sound.take {current : List (BitVec 16)} {table : Table} (sound : Sound current table)
    (hit : table.cell table.found ≠ 0) :
    Sound (current ++ [table.cell table.found]) (table.take table.found).2 := by
  have small := sound.found_lt hit
  have lower : table.cdp ≤ table.found := le_seek _ _ _
  obtain ⟨behind, cursor, unused, distinct⟩ := sound
  constructor <;> simp only [Table.take] <;> grind

theorem newCd_sound {current : List (BitVec 16)} {batches : List Batch} {table after : Table}
    {cd : BitVec 16} (sound : Sound current table)
    (distinct : ∀ batch ∈ batches, batch.Distinct current)
    (drawn : newCd current batches table = some (cd, after)) :
    Sound (current ++ [cd]) after ∧ cd ∉ current ∧ cd ≠ 0 := by
  have taken (table : Table) (sound : Sound current table) (hit : table.cell table.found ≠ 0)
      (drawn : some (table.take table.found) = some (cd, after)) :
      Sound (current ++ [cd]) after ∧ cd ∉ current ∧ cd ≠ 0 := by
    obtain ⟨rfl, rfl⟩ := Prod.mk.inj (Option.some.inj drawn)
    exact ⟨sound.take hit, sound.unused _ (le_seek _ _ _) (sound.found_lt hit) hit, hit⟩
  induction batches generalizing table with
  | nil =>
      rw [newCd] at drawn
      split at drawn
      · next hit => exact taken table sound hit drawn
      · cases drawn
  | cons batch batches ih =>
      rw [newCd] at drawn
      split at drawn
      · next hit => exact taken table sound hit drawn
      · exact ih (sound.refill (distinct batch List.mem_cons_self))
          (fun b member => distinct b (List.mem_cons_of_mem _ member)) drawn

theorem Sound.mono {current fewer : List (BitVec 16)} {table : Table} (sound : Sound current table)
    (subset : fewer ⊆ current) : Sound fewer table :=
  ⟨sound.behind, sound.cursor,
    fun i lower small nonzero member => sound.unused i lower small nonzero (subset member),
    sound.distinct⟩

/-- When the word behind the table is zero and no refill stores an unused value twice, the current
transactions always have pairwise different descriptors, none of them zero. -/
theorem descriptors_unique {behind : Nat → BitVec 16} (zero : behind NUM_FREE_CD = 0) {pool : Pool}
    (reached : Reached behind NoRepeat pool) : pool.current.Nodup ∧ 0 ∉ pool.current := by
  have invariant : Sound pool.current pool.table ∧ pool.current.Nodup ∧ 0 ∉ pool.current := by
    induction reached with
    | initial => exact ⟨.initial zero, by simp [Pool.initial], by simp [Pool.initial]⟩
    | @next pool after call _ allowed stepped ih =>
        obtain ⟨sound, nodup, nonzero⟩ := ih
        cases call with
        | create batches =>
            simp only [Pool.step, Option.map_eq_some_iff] at stepped
            obtain ⟨⟨cd, table⟩, drawn, rfl⟩ := stepped
            obtain ⟨sound', fresh, ne⟩ := newCd_sound sound allowed drawn
            refine ⟨sound', ?_, ?_⟩
            · exact List.nodup_append.mpr ⟨nodup, by simp, by grind⟩
            · grind
        | delete i =>
            simp only [Pool.step, Option.some.injEq] at stepped
            subst stepped
            have sublist : (pool.current.eraseIdx i).Sublist pool.current :=
              List.eraseIdx_sublist _ _
            exact ⟨sound.mono sublist.subset, nodup.sublist sublist,
              fun member => nonzero (sublist.subset member)⟩
  exact invariant.2

/-- The ten numbers from `n` on. -/
def Batch.from (n : BitVec 16) : Batch :=
  fun i => n + BitVec.ofNat 16 i

theorem descriptors_unique_example :
    ∃ pool, Reached (fun _ => 0) NoRepeat pool ∧ pool.current = [7, 8] ∧
      (pool.current.Nodup ∧ 0 ∉ pool.current) := by
  have injective : ∀ i j, Batch.from 7 i = Batch.from 7 j → i = j := by decide
  have first : Reached (fun _ => 0) NoRepeat _ :=
    @Reached.next _ _ _ _ (.create [Batch.from 7]) .initial
      (List.forall_mem_singleton.mpr fun i j same _ _ => injective i j same) rfl
  have second : Reached (fun _ => 0) NoRepeat _ :=
    @Reached.next _ _ _ _ (.create []) first (List.forall_mem_nil _) rfl
  exact ⟨_, second, by decide, descriptors_unique rfl second⟩

/-- `rand` returns 7 ten times: the first two transactions share a descriptor. -/
theorem descriptors_repeat :
    ((Pool.initial fun _ => 0).step (.create [fun _ => 7])).bind
        (fun pool => (pool.step (.create [])).map Pool.current) = some [7, 7] := by
  decide

end Descriptor
end Xatmi
