import Xatmi.Switchboard.Descriptor

/-!
# The cursor of the descriptor table

Where the loop of `new_transaction` reads and writes through `cdp`, and how often it fills the table
when the clock stands still.
-/

namespace Xatmi
namespace Descriptor

/-! ## Where the cursor stops -/

theorem seek_spec (cell : Nat → BitVec 16) (room cdp : Nat) :
    (∀ i, cdp ≤ i → i < seek cell room cdp → cell i = 0) ∧
      (seek cell room cdp = cdp + room ∨
        seek cell room cdp < cdp + room ∧ cell (seek cell room cdp) ≠ 0) := by
  induction room generalizing cdp with
  | zero =>
      refine ⟨fun i lower upper => ?_, .inl rfl⟩
      exact absurd upper (Nat.not_lt.mpr lower)
  | succ room ih =>
      rw [seek]
      split
      · next zero =>
          obtain ⟨passed, stop⟩ := ih (cdp + 1)
          refine ⟨fun i lower upper => ?_, ?_⟩
          · rcases Nat.eq_or_lt_of_le lower with rfl | further
            · exact zero
            · exact passed i further upper
          · rcases stop with last | ⟨small, entry⟩
            · exact .inl (by omega)
            · exact .inr ⟨by omega, entry⟩
      · next entry => exact ⟨fun i lower upper => absurd upper (by omega), .inr ⟨by omega, entry⟩⟩

/-- Some entry at or behind the cursor is left. -/
def Table.Stocked (table : Table) : Prop :=
  ∃ i, table.cdp ≤ i ∧ i < NUM_FREE_CD ∧ table.cell i ≠ 0

theorem Table.Stocked.found {table : Table} (stocked : table.Stocked) :
    table.found < NUM_FREE_CD ∧ table.cell table.found ≠ 0 := by
  obtain ⟨i, lower, upper, entry⟩ := stocked
  obtain ⟨passed, stop⟩ := seek_spec table.cell (NUM_FREE_CD - table.cdp) table.cdp
  rcases stop with last | ⟨small, hit⟩
  · have behind : i < seek table.cell (NUM_FREE_CD - table.cdp) table.cdp := by omega
    exact absurd (passed i lower behind) entry
  · exact ⟨by unfold Table.found; omega, hit⟩

theorem Table.le_found_of_not_stocked {table : Table} (spent : ¬table.Stocked) :
    NUM_FREE_CD ≤ table.found := by
  have lower : table.cdp ≤ table.found := le_seek _ _ _
  obtain ⟨-, stop⟩ := seek_spec table.cell (NUM_FREE_CD - table.cdp) table.cdp
  by_contra small
  rcases stop with last | ⟨-, hit⟩
  · have : table.found = table.cdp + (NUM_FREE_CD - table.cdp) := last
    omega
  · exact spent ⟨table.found, lower, Nat.lt_of_not_le small, hit⟩

/-! ## Reads and writes through the cursor -/

/-- The indices at which the loop tests `*cdp` before it ends or generates a new list. -/
def seekReads (cell : Nat → BitVec 16) : Nat → Nat → List Nat
  | 0, cdp => [cdp]
  | room + 1, cdp => if cell cdp = 0 then cdp :: seekReads cell room (cdp + 1) else [cdp]

/-- The indices at which the list is generated: `*cdp = rand()` for every entry, and for every
current transaction a test of every entry, with an assignment to those that are equal. -/
def refillAccesses : List (BitVec 16) → (Nat → BitVec 16) → List Nat
  | [], _ => []
  | cd :: current, cell =>
      (List.range NUM_FREE_CD).flatMap (fun i => if cell i = cd then [i, i] else [i]) ++
        refillAccesses current (prune cell cd)

/-- The indices of all reads and writes through `cdp` in one call. -/
def accesses (current : List (BitVec 16)) : List Batch → Table → List Nat
  | [], table =>
      seekReads table.cell (NUM_FREE_CD - table.cdp) table.cdp ++
        if table.cell table.found ≠ 0 then [table.found, table.found] else []
  | batch :: batches, table =>
      seekReads table.cell (NUM_FREE_CD - table.cdp) table.cdp ++
        if table.cell table.found ≠ 0 then [table.found, table.found]
        else List.range NUM_FREE_CD ++ refillAccesses current (fill table.cell batch) ++
          accesses current batches (table.refill current batch)

theorem mem_seekReads_iff (cell : Nat → BitVec 16) (room cdp i : Nat) :
    i ∈ seekReads cell room cdp ↔ cdp ≤ i ∧ i ≤ seek cell room cdp := by
  induction room generalizing cdp with
  | zero =>
      simp only [seekReads, seek, List.mem_singleton]
      omega
  | succ room ih =>
      have further := le_seek cell room (cdp + 1)
      rw [seekReads, seek]
      split
      · rw [List.mem_cons, ih]
        omega
      · rw [List.mem_singleton]
        omega

theorem seekReads_subset (current : List (BitVec 16)) (batches : List Batch) (table : Table) :
    seekReads table.cell (NUM_FREE_CD - table.cdp) table.cdp ⊆ accesses current batches table := by
  cases batches <;> exact List.subset_append_left _ _

theorem Table.Stocked.accesses_eq {table : Table} (stocked : table.Stocked)
    (current : List (BitVec 16)) (batches : List Batch) :
    accesses current batches table =
      seekReads table.cell (NUM_FREE_CD - table.cdp) table.cdp ++ [table.found, table.found] := by
  cases batches <;> rw [accesses, if_pos stocked.found.2]

theorem accesses_inside_iff (current : List (BitVec 16)) (batches : List Batch) (table : Table) :
    (∀ i ∈ accesses current batches table, i < NUM_FREE_CD) ↔ table.Stocked := by
  constructor
  · intro inside
    by_contra spent
    have read : table.found ∈ accesses current batches table :=
      seekReads_subset _ _ _ ((mem_seekReads_iff _ _ _ _).mpr ⟨le_seek _ _ _, Nat.le_refl _⟩)
    exact absurd (inside _ read) (Nat.not_lt.mpr (Table.le_found_of_not_stocked spent))
  · intro stocked i member
    have small := stocked.found.1
    rw [stocked.accesses_eq, List.mem_append, mem_seekReads_iff] at member
    rcases member with ⟨-, upper⟩ | taken
    · exact Nat.lt_of_le_of_lt upper small
    · have : i = table.found := by simpa using taken
      omega

/-- The indices of all reads and writes through `cdp` in a sequence of calls. -/
def Pool.accesses (pool : Pool) : List Call → List Nat
  | [] => []
  | .create batches :: calls =>
      Descriptor.accesses pool.current batches pool.table ++
        match pool.step (.create batches) with
        | some after => after.accesses calls
        | none => []
  | .delete i :: calls => Pool.accesses { pool with current := pool.current.eraseIdx i } calls

/-- Every call of `new_transaction` finds an entry left at or behind the cursor. -/
def Pool.Supplied (pool : Pool) : List Call → Prop
  | [] => True
  | .create batches :: calls =>
      pool.table.Stocked ∧
        match pool.step (.create batches) with
        | some after => after.Supplied calls
        | none => True
  | .delete i :: calls => Pool.Supplied { pool with current := pool.current.eraseIdx i } calls

/-- A sequence of calls stays inside the table exactly if each call finds an entry left. -/
theorem cursor_inside_iff (pool : Pool) (calls : List Call) :
    (∀ i ∈ pool.accesses calls, i < NUM_FREE_CD) ↔ pool.Supplied calls := by
  induction calls generalizing pool with
  | nil => simp [Pool.accesses, Pool.Supplied]
  | cons call calls ih =>
      cases call with
      | delete i => exact ih _
      | create batches =>
          simp only [Pool.accesses, Pool.Supplied, List.forall_mem_append, accesses_inside_iff]
          cases pool.step (.create batches) with
          | none => simp
          | some after => simp only [ih after]

/-- The first call tests the word behind the table. -/
theorem cursor_outside :
    NUM_FREE_CD ∈ (Pool.initial fun _ => 0).accesses [.create [Batch.from 7]] := by
  decide

/-! ## The search with the clock standing still -/

/-- The ten values of `rand` after `srand(seed)`, for a generator that is a function of its seed. -/
def draw (rand : Nat → Nat → BitVec 16) (seed : Nat) : Batch := fun i => rand seed i

theorem refill_cell (table : Table) (current : List (BitVec 16)) (batch : Batch) {i : Nat}
    (inside : i < NUM_FREE_CD) : (table.refill current batch).cell i =
      if batch ⟨i, inside⟩ ∈ current then 0 else batch ⟨i, inside⟩ := by
  simp [Table.refill, foldl_prune_apply, fill, inside]

theorem refill_stocked_iff (table : Table) (current : List (BitVec 16)) (batch : Batch) :
    (table.refill current batch).Stocked ↔ ∃ i, batch i ≠ 0 ∧ batch i ∉ current := by
  constructor
  · rintro ⟨i, -, inside, entry⟩
    rw [refill_cell _ _ _ inside] at entry
    refine ⟨⟨i, inside⟩, ?_⟩
    by_cases used : batch ⟨i, inside⟩ ∈ current
    · exact absurd (if_pos used) entry
    · rw [if_neg used] at entry
      exact ⟨entry, used⟩
  · rintro ⟨i, nonzero, unused⟩
    refine ⟨i, Nat.zero_le _, i.isLt, ?_⟩
    rw [refill_cell _ _ _ i.isLt, if_neg unused]
    exact nonzero

/-- The word behind the table is zero, and the cursor has not left the table. -/
structure Table.Bounded (table : Table) : Prop where
  behind : table.cell NUM_FREE_CD = 0
  cursor : table.cdp ≤ NUM_FREE_CD

theorem Table.Bounded.refill {table : Table} (bounded : table.Bounded) (current : List (BitVec 16))
    (batch : Batch) : (table.refill current batch).Bounded where
  behind := by simp [Table.refill, foldl_prune_apply, fill, bounded.behind]
  cursor := Nat.zero_le _

theorem Table.Bounded.cell_found_iff {table : Table} (bounded : table.Bounded) :
    table.cell table.found ≠ 0 ↔ table.Stocked := by
  constructor
  · intro hit
    by_contra spent
    have upper := seek_le table.cell (NUM_FREE_CD - table.cdp) table.cdp
    have cursor := bounded.cursor
    have lower := Table.le_found_of_not_stocked spent
    have last : table.found = NUM_FREE_CD := by unfold Table.found at lower ⊢; omega
    rw [last] at hit
    exact hit bounded.behind
  · exact fun stocked => stocked.found.2

theorem newCd_replicate_none {current : List (BitVec 16)} {batch : Batch}
    (useless : ¬∃ i, batch i ≠ 0 ∧ batch i ∉ current) (n : Nat) {table : Table}
    (bounded : table.Bounded) (spent : ¬table.Stocked) :
    newCd current (List.replicate n batch) table = none := by
  have zero := bounded.cell_found_iff.not.mpr spent
  induction n generalizing table with
  | zero => rw [List.replicate_zero, newCd, if_neg zero]
  | succ n ih =>
      rw [List.replicate_succ, newCd, if_neg zero]
      have spent' := (refill_stocked_iff table current batch).not.mpr useless
      have bounded' := bounded.refill current batch
      exact ih bounded' spent' (bounded'.cell_found_iff.not.mpr spent')

/-- The entry the cursor stops at is unused; if there is none, the seed offers a new descriptor. -/
def Fruitful (current : List (BitVec 16)) (table : Table) (batch : Batch) : Prop :=
  (table.Stocked → table.cell table.found ∉ current) ∧
    (¬table.Stocked → ∃ i, batch i ≠ 0 ∧ batch i ∉ current)

theorem newCd_of_fruitful {current : List (BitVec 16)} {table : Table} {batch : Batch}
    (bounded : table.Bounded) (fruitful : Fruitful current table batch) :
    ∃ cd after, newCd current [batch] table = some (cd, after) ∧ cd ≠ 0 ∧ cd ∉ current := by
  by_cases stocked : table.Stocked
  · have hit := stocked.found.2
    exact ⟨_, _, by rw [newCd, if_pos hit, Table.take], hit, fruitful.1 stocked⟩
  · have filled := (refill_stocked_iff table current batch).mpr (fruitful.2 stocked)
    obtain ⟨inside, hit⟩ := filled.found
    have zero := bounded.cell_found_iff.not.mpr stocked
    refine ⟨_, _, by rw [newCd, if_neg zero, newCd, if_pos hit, Table.take], hit, ?_⟩
    rw [refill_cell _ _ _ inside] at hit ⊢
    by_cases used : batch ⟨_, inside⟩ ∈ current
    · exact absurd (if_pos used) hit
    · rwa [if_neg used]

/-- While the clock stands still every refill draws the same ten values. The loop ends with an
unused descriptor exactly if the entry at the cursor is unused or, when no entry is left, the values
of the seed include an unused one. -/
theorem search_ends_iff {rand : Nat → Nat → BitVec 16} {seed : Nat} {current : List (BitVec 16)}
    {table : Table} (bounded : table.Bounded) :
    (∃ refills cd after,
        newCd current (List.replicate refills (draw rand seed)) table = some (cd, after) ∧
        cd ≠ 0 ∧ cd ∉ current) ↔ Fruitful current table (draw rand seed) := by
  constructor
  · rintro ⟨refills, cd, after, drawn, nonzero, unused⟩
    constructor
    · intro stocked
      have hit := stocked.found.2
      have first : newCd current (List.replicate refills (draw rand seed)) table =
          some (table.take table.found) := by
        cases refills with
        | zero => rw [List.replicate_zero, newCd, if_pos hit]
        | succ refills => rw [List.replicate_succ, newCd, if_pos hit]
      rw [first] at drawn
      obtain ⟨rfl, -⟩ := Prod.mk.inj (Option.some.inj drawn)
      exact unused
    · intro spent
      by_contra useless
      simp [newCd_replicate_none useless refills bounded spent] at drawn
  · intro fruitful
    obtain ⟨cd, after, drawn, fresh⟩ := newCd_of_fruitful bounded fruitful
    exact ⟨1, cd, after, drawn, fresh⟩

/-- A generator that counts up from its seed. -/
def countUp (seed i : Nat) : BitVec 16 := BitVec.ofNat 16 (seed + i)

theorem search_ends_iff_first :
    ∃ refills cd after,
      newCd [7] (List.replicate refills (draw countUp 7)) (Pool.initial fun _ => 0).table =
          some (cd, after) ∧ cd ≠ 0 ∧ cd ∉ [(7 : BitVec 16)] := by
  have bounded : (Pool.initial fun _ => 0).table.Bounded := ⟨rfl, by decide⟩
  have spent : ¬(Pool.initial fun _ => 0).table.Stocked := by
    rintro ⟨i, -, inside, entry⟩
    simp [Pool.initial] at entry
  exact (search_ends_iff bounded).mpr
    ⟨fun stocked => absurd stocked spent, fun _ => ⟨⟨1, by decide⟩, by decide, by decide⟩⟩

/-- Any call. -/
def anyCall (_ : Pool) (_ : Call) : Prop := True

theorem Reached.calls {behind : Nat → BitVec 16} {pool after : Pool} (calls : List Call)
    (reached : Reached behind anyCall pool) (done : calls.foldlM Pool.step pool = some after) :
    Reached behind anyCall after := by
  induction calls generalizing pool with
  | nil =>
      obtain rfl := Option.some.inj done
      exact reached
  | cons call calls ih =>
      rw [List.foldlM_cons] at done
      obtain ⟨next, stepped, rest⟩ := Option.bind_eq_some_iff.mp done
      exact ih (.next reached trivial stepped) rest

/-- Ten requests within a second have used up the values of its seed: the eleventh never gets a
descriptor while the second lasts. -/
theorem search_stalls :
    ∃ pool, Reached (fun _ => 0) anyCall pool ∧ pool.current.length = 10 ∧
      ¬∃ refills, (pool.step (.create (List.replicate refills (draw countUp 7)))).isSome := by
  have run : ∃ pool, List.foldlM Pool.step (Pool.initial fun _ => 0)
      (.create [draw countUp 7] :: List.replicate 9 (.create [])) = some pool ∧
      (pool.current = [7, 8, 9, 10, 11, 12, 13, 14, 15, 16] ∧ pool.table.cell NUM_FREE_CD = 0 ∧
        pool.table.cdp = NUM_FREE_CD) := by
    refine ⟨_, rfl, ?_⟩
    decide +kernel
  obtain ⟨pool, done, current, behind, cursor⟩ := run
  refine ⟨pool, Reached.calls _ .initial done, by rw [current]; rfl, ?_⟩
  have spent : ¬pool.table.Stocked := by
    rintro ⟨i, lower, upper, -⟩
    omega
  have useless : ¬∃ i, draw countUp 7 i ≠ 0 ∧ draw countUp 7 i ∉ pool.current := by
    rw [current]
    decide +kernel
  rintro ⟨refills, found⟩
  rw [Pool.step, newCd_replicate_none useless refills ⟨behind, Nat.le_of_eq cursor⟩ spent] at found
  cases found

end Descriptor
end Xatmi
