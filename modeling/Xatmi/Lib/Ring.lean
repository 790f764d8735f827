import Mathlib.Data.List.Chain
import Mathlib.Data.List.Nodup
import Mathlib.Tactic.Common

/-!
# Intrusive rings

Circular doubly linked rings threaded through the nodes of a heap.  A heap of links gives every
node a predecessor `p1` and a successor `p2`; a ring is a head node followed by its elements, the
last of which points back to the head.  The operations are the pointer assignments themselves, so
they are defined on every heap of links, well formed or not.
-/

namespace Intrusive

universe u

/-- The two link fields of every node. -/
structure Links (ν : Type u) where
  /-- Predecessor. -/
  p1 : ν → ν
  /-- Successor. -/
  p2 : ν → ν

namespace Links

variable {ν : Type u}

/-- Every node is linked to itself. -/
def initial : Links ν where
  p1 := id
  p2 := id

variable [DecidableEq ν]

/-- Assign the predecessor of one node. -/
def setP1 (links : Links ν) (node target : ν) : Links ν :=
  { links with p1 := fun n => if n = node then target else links.p1 n }

/-- Assign the successor of one node. -/
def setP2 (links : Links ν) (node target : ν) : Links ν :=
  { links with p2 := fun n => if n = node then target else links.p2 n }

/-- Make a node a ring of its own. -/
def init (links : Links ν) (node : ν) : Links ν :=
  (links.setP1 node node).setP2 node node

/-- Link `new` after `node`, assignment by assignment. -/
def append (links : Links ν) (node new : ν) : Links ν :=
  let links := links.setP1 new node
  let links := links.setP2 new (links.p2 node)
  let links := links.setP1 (links.p2 new) new
  links.setP2 node new

/-- Link `new` before `node`, assignment by assignment. -/
def prepend (links : Links ν) (node new : ν) : Links ν :=
  let links := links.setP2 new node
  let links := links.setP1 new (links.p1 node)
  let links := links.setP2 (links.p1 new) new
  links.setP1 node new

/-- Take `node` out of its ring, assignment by assignment. -/
def delete (links : Links ν) (node : ν) : Links ν :=
  let links := links.setP2 (links.p1 node) (links.p2 node)
  let links := links.setP1 (links.p2 node) (links.p1 node)
  let links := links.setP1 node node
  links.setP2 node node

/-! ## The links after an operation -/

theorem init_p1 (links : Links ν) (node n : ν) :
    (links.init node).p1 n = if n = node then node else links.p1 n := by
  simp only [init, setP1, setP2]

theorem init_p2 (links : Links ν) (node n : ν) :
    (links.init node).p2 n = if n = node then node else links.p2 n := by
  simp only [init, setP1, setP2]

theorem append_p1 (links : Links ν) (node new n : ν) :
    (links.append node new).p1 n =
      if n = links.p2 node then new else if n = new then node else links.p1 n := by
  simp only [append, setP1, setP2]
  grind

theorem append_p2 (links : Links ν) (node new n : ν) :
    (links.append node new).p2 n =
      if n = node then new else if n = new then links.p2 node else links.p2 n := by
  simp only [append, setP1, setP2]

theorem prepend_eq_append {links : Links ν} {node new : ν}
    (round : links.p2 (links.p1 node) = node) :
    links.prepend node new = links.append (links.p1 node) new := by
  have back : (links.prepend node new).p1 = (links.append (links.p1 node) new).p1 := by
    funext n
    simp only [prepend, append, setP1, setP2]
    grind
  have forth : (links.prepend node new).p2 = (links.append (links.p1 node) new).p2 := by
    funext n
    simp only [prepend, append, setP1, setP2]
    grind
  calc
    links.prepend node new = ⟨(links.prepend node new).p1, (links.prepend node new).p2⟩ := rfl
    _ = links.append (links.p1 node) new := by rw [back, forth]

theorem delete_p1 (links : Links ν) (node n : ν) :
    (links.delete node).p1 n =
      if n = node then node else if n = links.p2 node then links.p1 node else links.p1 n := by
  simp only [delete, setP1, setP2]
  grind

theorem delete_p2 (links : Links ν) (node n : ν) :
    (links.delete node).p2 n =
      if n = node then node else if n = links.p1 node then links.p2 node else links.p2 n := by
  simp only [delete, setP1, setP2]

end Links

/-! ## Rings -/

namespace Links

variable {ν : Type u}

/-- `y` follows `x`, seen from both ends. -/
def Linked (links : Links ν) (x y : ν) : Prop :=
  links.p2 x = y ∧ links.p1 y = x

/-- A node which is a ring of its own. -/
def Alone (links : Links ν) (node : ν) : Prop :=
  links.p1 node = node ∧ links.p2 node = node

/-- The ring with head `head` and elements `elems`, in order of `p2`. -/
structure IsRing (links : Links ν) (head : ν) (elems : List ν) : Prop where
  /-- No node occurs twice. -/
  nodup : (head :: elems).Nodup
  /-- Consecutive nodes are linked, and the last one to the head. -/
  chain : List.IsChain links.Linked (head :: elems ++ [head])

theorem isRing_nil_iff {links : Links ν} {head : ν} :
    links.IsRing head [] ↔ links.Alone head := by
  constructor
  · intro ring
    have linked : links.Linked head head := by simpa using ring.chain
    exact ⟨linked.2, linked.1⟩
  · rintro ⟨back, forth⟩
    exact ⟨by simp, by simpa using ⟨forth, back⟩⟩

namespace IsRing

variable {links : Links ν} {head : ν} {elems : List ν}

/-- Two nodes next to each other in the round trip from the head to itself are linked. -/
theorem linked (ring : links.IsRing head elems) (left right : List ν) {x y : ν}
    (split : head :: elems ++ [head] = left ++ x :: y :: right) : links.Linked x y :=
  List.isChain_iff_forall_rel_of_append_cons_cons.mp ring.chain split

/-- Links of nodes outside a ring may change freely. -/
theorem congr {other : Links ν} (ring : links.IsRing head elems)
    (same : ∀ n ∈ head :: elems, other.p1 n = links.p1 n ∧ other.p2 n = links.p2 n) :
    other.IsRing head elems := by
  refine ⟨ring.nodup, ring.chain.imp_of_mem_imp ?_⟩
  intro x y xMem yMem linked
  have xMem : x ∈ head :: elems := by simp at xMem ⊢; tauto
  have yMem : y ∈ head :: elems := by simp at yMem ⊢; tauto
  exact ⟨(same x xMem).2.trans linked.1, (same y yMem).1.trans linked.2⟩

theorem linked_first {first : ν} {rest : List ν} (ring : links.IsRing head (first :: rest)) :
    links.Linked head first :=
  ring.linked [] (rest ++ [head]) (by simp)

theorem linked_last {front : List ν} {last : ν} (ring : links.IsRing head (front ++ [last])) :
    links.Linked last head :=
  ring.linked (head :: front) [] (by simp)

theorem linked_before {left right : List ν} {x : ν}
    (ring : links.IsRing head (left ++ x :: right)) :
    links.Linked ((head :: left).getLast (by simp)) x := by
  refine ring.linked (head :: left).dropLast (right ++ [head]) ?_
  have whole := List.dropLast_append_getLast (l := head :: left) (by simp)
  calc
    head :: (left ++ x :: right) ++ [head] = (head :: left) ++ x :: (right ++ [head]) := by simp
    _ = (head :: left).dropLast ++ [(head :: left).getLast (by simp)] ++ x ::
      (right ++ [head]) := by
      rw [whole]
    _ = _ := by simp

theorem linked_after {left right : List ν} {x : ν}
    (ring : links.IsRing head (left ++ x :: right)) :
    links.Linked x ((right ++ [head]).head (by simp)) := by
  refine ring.linked (head :: left) (right ++ [head]).tail ?_
  rw [List.cons_head_tail]
  simp

/-- Neighbours of a member are members. -/
theorem neighbours_mem (ring : links.IsRing head elems) {n : ν} (member : n ∈ head :: elems) :
    links.p1 n ∈ head :: elems ∧ links.p2 n ∈ head :: elems := by
  rcases List.mem_cons.mp member with rfl | inside
  · constructor
    · rcases List.eq_nil_or_concat elems with rfl | ⟨front, last, rfl⟩
      · simp [(isRing_nil_iff.mp ring).1]
      · rw [List.concat_eq_append] at ring ⊢
        simp [ring.linked_last.2]
    · cases elems with
      | nil => simp [(isRing_nil_iff.mp ring).2]
      | cons first rest => simp [ring.linked_first.1]
  · obtain ⟨left, right, rfl⟩ := List.append_of_mem inside
    constructor
    · rw [ring.linked_before.2]
      have := List.getLast_mem (l := head :: left) (by simp)
      simp only [List.mem_cons, List.mem_append] at this ⊢
      tauto
    · rw [ring.linked_after.1]
      have := List.head_mem (l := right ++ [head]) (by simp)
      simp only [List.mem_cons, List.mem_append, List.not_mem_nil] at this ⊢
      tauto

/-- Going back and forth from a member returns to it. -/
theorem p2_p1 (ring : links.IsRing head elems) {n : ν} (member : n ∈ head :: elems) :
    links.p2 (links.p1 n) = n := by
  rcases List.mem_cons.mp member with rfl | inside
  · rcases List.eq_nil_or_concat elems with rfl | ⟨front, last, rfl⟩
    · rw [(isRing_nil_iff.mp ring).1, (isRing_nil_iff.mp ring).2]
    · rw [List.concat_eq_append] at ring
      rw [ring.linked_last.2, ring.linked_last.1]
  · obtain ⟨left, right, rfl⟩ := List.append_of_mem inside
    rw [ring.linked_before.2, ring.linked_before.1]

theorem p1_p2 (ring : links.IsRing head elems) {n : ν} (member : n ∈ head :: elems) :
    links.p1 (links.p2 n) = n := by
  rcases List.mem_cons.mp member with rfl | inside
  · cases elems with
    | nil => rw [(isRing_nil_iff.mp ring).2, (isRing_nil_iff.mp ring).1]
    | cons first rest => rw [ring.linked_first.1, ring.linked_first.2]
  · obtain ⟨left, right, rfl⟩ := List.append_of_mem inside
    rw [ring.linked_after.1, ring.linked_after.2]

theorem p1_head (ring : links.IsRing head elems) :
    links.p1 head = (head :: elems).getLast (by simp) := by
  rcases List.eq_nil_or_concat elems with rfl | ⟨front, last, rfl⟩
  · exact (isRing_nil_iff.mp ring).1
  · rw [List.concat_eq_append] at ring
    rw [ring.linked_last.2]
    simp

theorem p1_head_eq_iff (ring : links.IsRing head elems) : links.p1 head = head ↔ elems = [] := by
  rcases List.eq_nil_or_concat elems with rfl | ⟨front, last, rfl⟩
  · simp [(isRing_nil_iff.mp ring).1]
  · rw [List.concat_eq_append] at ring ⊢
    have outside := (List.nodup_cons.mp ring.nodup).1
    rw [ring.linked_last.2]
    simp only [List.append_eq_nil_iff, List.cons_ne_self, and_false, iff_false]
    rintro rfl
    simp at outside

/-- The elements of a ring are determined by the links. -/
theorem unique {others : List ν} (ring : links.IsRing head elems)
    (other : links.IsRing head others) : elems = others := by
  have outside := (List.nodup_cons.mp ring.nodup).1
  have outside' := (List.nodup_cons.mp other.nodup).1
  have follow : ∀ (xs ys : List ν) (n : ν), head ∉ xs → head ∉ ys →
      List.IsChain links.Linked (n :: xs ++ [head]) →
      List.IsChain links.Linked (n :: ys ++ [head]) → xs = ys := by
    intro xs
    induction xs with
    | nil =>
        intro ys n _ ysOut first second
        cases ys with
        | nil => rfl
        | cons y ys =>
            simp only [List.cons_append, List.isChain_cons_cons, List.nil_append] at first second
            have : y = head := second.1.1.symm.trans first.1.1
            simp [this] at ysOut
    | cons x xs ih =>
        intro ys n xsOut ysOut first second
        cases ys with
        | nil =>
            simp only [List.cons_append, List.isChain_cons_cons, List.nil_append] at first second
            have : x = head := first.1.1.symm.trans second.1.1
            simp [this] at xsOut
        | cons y ys =>
            simp only [List.cons_append, List.isChain_cons_cons] at first second
            obtain rfl : x = y := first.1.1.symm.trans second.1.1
            rw [ih ys x (by simp_all) (by simp_all) first.2 second.2]
  exact follow elems others head outside outside' ring.chain other.chain

/-- An element of a ring is no ring of its own. -/
theorem not_alone (ring : links.IsRing head elems) {n : ν} (member : n ∈ elems) :
    ¬links.Alone n := by
  obtain ⟨left, right, rfl⟩ := List.append_of_mem member
  intro alone
  have next := ring.linked_after.1
  rw [alone.2] at next
  have whole := ring.nodup
  cases right with
  | nil =>
      simp only [List.nil_append, List.head_cons] at next
      simp [next] at whole
  | cons first rest =>
      simp only [List.cons_append, List.head_cons] at next
      subst next
      simp [List.nodup_append] at whole

variable [DecidableEq ν]

/-- A new node behind the last one of `head :: left`. -/
theorem insert {left right : List ν} {new : ν} (ring : links.IsRing head (left ++ right))
    (outside : new ∉ head :: (left ++ right)) :
    (links.append ((head :: left).getLast (by simp)) new).IsRing head (left ++ new :: right) := by
  have whole := ring.nodup
  set u := (head :: left).getLast (by simp) with hu
  set v := (right ++ [head]).head (by simp) with hv
  have uMem : u ∈ head :: left := List.getLast_mem _
  have vMem : v ∈ right ++ [head] := List.head_mem _
  have chain : List.IsChain links.Linked ((head :: left) ++ (right ++ [head])) := by
    simpa using ring.chain
  obtain ⟨forth, back⟩ : links.Linked u v := by
    refine (List.isChain_append.mp chain).2.2 u ?_ v ?_
    · simp [hu, List.getLast?_eq_some_getLast]
    · simp [hv, List.head?_eq_some_head]
  have u_new : u ≠ new := by
    rintro same
    exact outside (by simp only [List.mem_cons, List.mem_append] at uMem ⊢; rw [← same]; tauto)
  have v_new : v ≠ new := by
    rintro same
    refine outside ?_
    simp only [List.mem_cons, List.mem_append, List.not_mem_nil] at vMem ⊢
    rw [← same]
    tauto
  constructor
  · simp only [List.nodup_cons, List.nodup_append, List.mem_cons,
      List.mem_append] at whole outside ⊢
    grind
  · rw [show head :: (left ++ new :: right) ++ [head] = (head :: left) ++ new :: (right ++ [head])
      by simp]
    refine List.IsChain.append ?_ ?_ ?_
    · refine (List.IsChain.left_of_append chain).imp_of_mem_tail_imp ?_
      intro a b aMem bMem linked
      have bMem : b ∈ left := bMem
      have := linked.1
      have := linked.2
      constructor
      · rw [append_p2]
        grind
      · rw [append_p1]
        grind
    · refine List.isChain_cons.mpr ⟨?_, ?_⟩
      · intro y yFirst
        obtain rfl : y = v := by simpa [hv, List.head?_eq_some_head] using yFirst.symm
        constructor
        · rw [append_p2, if_neg u_new.symm, if_pos rfl, forth]
        · rw [append_p1, forth, if_pos rfl]
      · refine (List.IsChain.right_of_append chain).imp_of_mem_tail_imp ?_
        intro a b aMem bMem linked
        have aMem : a ∈ right ++ [head] := aMem
        have bMem : b ∈ (right ++ [head]).tail := bMem
        have := linked.1
        have := linked.2
        cases right with
        | nil => simp at bMem
        | cons first rest =>
            have v_first : v = first := by simp [hv]
            have bMem : b ∈ rest ++ [head] := by simpa using bMem
            constructor
            · rw [append_p2]
              grind
            · rw [append_p1]
              grind
    · intro a aLast b bFirst
      obtain rfl : a = u := by simpa [hu, List.getLast?_eq_some_getLast] using aLast.symm
      obtain rfl : new = b := by simpa using bFirst
      constructor
      · rw [append_p2, if_pos rfl]
      · rw [append_p1, forth, if_neg v_new.symm, if_pos rfl]

/-- Appending after the last element lengthens the ring at its end. -/
theorem append {new : ν} (ring : links.IsRing head elems) (outside : new ∉ head :: elems) :
    (links.append (links.p1 head) new).IsRing head (elems ++ [new]) := by
  have whole : links.IsRing head (elems ++ []) := by simpa using ring
  rw [ring.p1_head]
  exact whole.insert (by simpa using outside)

/-- Deleting an element shortens the ring by it. -/
theorem delete {left right : List ν} {x : ν} (ring : links.IsRing head (left ++ x :: right)) :
    (links.delete x).IsRing head (left ++ right) := by
  have before := ring.linked_before
  have after := ring.linked_after
  have whole := ring.nodup
  set u := (head :: left).getLast (by simp) with hu
  set v := (right ++ [head]).head (by simp) with hv
  have uMem : u ∈ head :: left := List.getLast_mem _
  have vMem : v ∈ right ++ [head] := List.head_mem _
  have u_eq : links.p1 x = u := before.2
  have v_eq : links.p2 x = v := after.1
  have chain : List.IsChain links.Linked ((head :: left) ++ x :: (right ++ [head])) := by
    simpa using ring.chain
  have chainLeft := List.IsChain.left_of_append chain
  have chainRight := (List.IsChain.right_of_append chain).tail
  constructor
  · refine whole.sublist ?_
    simp
  · rw [show head :: (left ++ right) ++ [head] = (head :: left) ++ (right ++ [head]) by simp]
    refine List.IsChain.append ?_ ?_ ?_
    · refine chainLeft.imp_of_mem_tail_imp ?_
      intro a b aMem bMem linked
      have bMem : b ∈ left := bMem
      have := linked.1
      have := linked.2
      have := before.1
      constructor
      · rw [delete_p2]
        grind
      · rw [delete_p1]
        grind
    · refine chainRight.imp_of_mem_tail_imp ?_
      intro a b aMem bMem linked
      have := linked.1
      have := linked.2
      have := after.2
      have aMem : a ∈ right ++ [head] := aMem
      have bMem : b ∈ (right ++ [head]).tail := bMem
      cases right with
      | nil => simp at bMem
      | cons first rest =>
          have v_first : v = first := by simp [hv]
          have bMem : b ∈ rest ++ [head] := by simpa using bMem
          have := before.1
          constructor
          · rw [delete_p2]
            grind
          · rw [delete_p1]
            grind
    · intro a aLast b bFirst
      obtain rfl : a = u := by simpa [hu, List.getLast?_eq_some_getLast] using aLast.symm
      obtain rfl : b = v := by simpa [hv, List.head?_eq_some_head] using bFirst.symm
      constructor
      · rw [delete_p2]
        grind
      · rw [delete_p1]
        grind

end IsRing

/-- Deleting a node that is a ring of its own changes nothing. -/
theorem init_alone_iff [DecidableEq ν] {links : Links ν} {new node : ν} (different : node ≠ new) :
    (links.init new).Alone node ↔ links.Alone node := by
  simp [Alone, init_p1, init_p2, different]

theorem delete_of_alone [DecidableEq ν] {links : Links ν} {node : ν} (alone : links.Alone node) :
    links.delete node = links := by
  obtain ⟨before, after⟩ := alone
  have back : (links.delete node).p1 = links.p1 := by
    funext n
    rw [delete_p1]
    grind
  have forth : (links.delete node).p2 = links.p2 := by
    funext n
    rw [delete_p2]
    grind
  calc
    links.delete node = ⟨(links.delete node).p1, (links.delete node).p2⟩ := rfl
    _ = links := by rw [back, forth]

theorem delete_alone [DecidableEq ν] (links : Links ν) (node : ν) :
    (links.delete node).Alone node :=
  ⟨by simp [delete_p1], by simp [delete_p2]⟩

/-! ## Heads of damaged rings

A node that is linked a second time while it is linked leaves links that are no ring any more.  What
follows holds at a head whatever is linked behind it. -/

/-- The two tests for an empty ring agree at `head`, and at most one live node has the head before
it, and at most one behind it. -/
structure Anchored (links : Links ν) (live : ν → Prop) (head : ν) : Prop where
  empty_iff : links.p1 head = head ↔ links.p2 head = head
  p1_unique : ∀ n m, live n → live m → links.p1 n = head → links.p1 m = head → n = m
  p2_unique : ∀ n m, live n → live m → links.p2 n = head → links.p2 m = head → n = m

namespace Anchored

variable {links : Links ν} {live : ν → Prop} {head : ν}

theorem mono {fewer : ν → Prop} (anchored : links.Anchored live head)
    (shrink : ∀ n, fewer n → live n) : links.Anchored fewer head :=
  ⟨anchored.empty_iff,
    fun n m liveN liveM => anchored.p1_unique n m (shrink n liveN) (shrink m liveM),
    fun n m liveN liveM => anchored.p2_unique n m (shrink n liveN) (shrink m liveM)⟩

theorem mem_of_points {elems : List ν} (anchored : links.Anchored live head)
    (ring : links.IsRing head elems) (members : ∀ n ∈ head :: elems, live n) {n : ν}
    (nodeLive : live n) (points : links.p1 n = head ∨ links.p2 n = head) : n ∈ head :: elems := by
  have headMem : head ∈ head :: elems := List.mem_cons_self
  have ⟨lastMem, firstMem⟩ := ring.neighbours_mem headMem
  rcases points with back | forth
  · have same := anchored.p1_unique n _ nodeLive (members _ firstMem) back (ring.p1_p2 headMem)
    exact same ▸ firstMem
  · have same := anchored.p2_unique n _ nodeLive (members _ lastMem) forth (ring.p2_p1 headMem)
    exact same ▸ lastMem

variable [DecidableEq ν]

theorem append {other new : ν} (anchored : links.Anchored live head) (headLive : live head)
    (lastLive : live (links.p1 other))
    (apart : head = other ∨ links.p1 other ≠ head ∧ links.p2 (links.p1 other) ≠ head)
    (different : new ≠ head) : (links.append (links.p1 other) new).Anchored live head := by
  obtain ⟨empty_iff, p1_unique, p2_unique⟩ := anchored
  constructor
  · simp only [append_p1, append_p2]
    grind
  · intro n m
    simp only [append_p1]
    grind
  · intro n m
    simp only [append_p2]
    grind

theorem delete {node : ν} (anchored : links.Anchored live head) (headLive : live head)
    (nodeLive : live node) (different : node ≠ head) : (links.delete node).Anchored live head := by
  obtain ⟨empty_iff, p1_unique, p2_unique⟩ := anchored
  constructor
  · simp only [delete_p1, delete_p2]
    grind
  · intro n m
    simp only [delete_p1]
    grind
  · intro n m
    simp only [delete_p2]
    grind

end Anchored

end Links

end Intrusive
