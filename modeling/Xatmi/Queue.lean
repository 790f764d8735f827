import Xatmi.Lib.Ring
import Mathlib.Logic.Relation
import Mathlib.Logic.Function.Basic

/-!
# Queues

The `QUEUE` macros of `queue.h` and the three functions of `queue.c`, over the two pointers of every
`QUEUE` in memory.  A queue stands for the list of the nodes on its ring; the operations on the
pointers refine the operations on the lists, whatever other queues share the memory.
-/

namespace Xatmi.Queue

open Intrusive

variable {ν : Type}

/-! ## The macros and functions -/

/-- `QPREV(q)`. -/
def qprev (links : Links ν) (q : ν) : ν := links.p1 q

/-- `QNEXT(q)`. -/
def qnext (links : Links ν) (q : ν) : ν := links.p2 q

/-- `QFIRST(q)`. -/
def qfirst (links : Links ν) (q : ν) : ν := links.p2 q

/-- `QLAST(q)`. -/
def qlast (links : Links ν) (q : ν) : ν := links.p1 q

/-- `for (p = from; p != &queue; p = next(p))`, with the nodes it comes by; `none` if it takes more
than `fuel` tests to get to the end. -/
def traverse [DecidableEq ν] (next : ν → ν) (queue : ν) : Nat → ν → Option (List ν)
  | 0, _ => none
  | fuel + 1, p =>
      if p = queue then some [] else (traverse next queue fuel (next p)).map (p :: ·)

variable [DecidableEq ν]

/-- `QISEMPTY(q)`. -/
def qisempty (links : Links ν) (q : ν) : Bool := links.p1 q = q

/-- `QINIT(q)`. -/
def qinit (q : ν) (links : Links ν) : Links ν :=
  let links := links.setP2 q q
  links.setP1 q q

/-- `qappend`, with the node it returns. -/
def qappend (node newnode : ν) (links : Links ν) : ν × Links ν :=
  let links := links.setP1 newnode node
  let links := links.setP2 newnode (qnext links node)
  let links := links.setP1 (qnext links newnode) newnode
  let links := links.setP2 node newnode
  (newnode, links)

/-- `qprepend`, with the node it returns. -/
def qprepend (node newnode : ν) (links : Links ν) : ν × Links ν :=
  let links := links.setP2 newnode node
  let links := links.setP1 newnode (qprev links node)
  let links := links.setP2 (qprev links newnode) newnode
  let links := links.setP1 node newnode
  (newnode, links)

/-- `qdelete`, with the node it returns. -/
def qdelete (node : ν) (links : Links ν) : ν × Links ν :=
  let links := links.setP2 (qprev links node) (qnext links node)
  let links := links.setP1 (qnext links node) (qprev links node)
  let links := links.setP1 node node
  let links := links.setP2 node node
  (node, links)

theorem qappend_eq (node newnode : ν) (links : Links ν) :
    qappend node newnode links = (newnode, links.append node newnode) := rfl

theorem qdelete_eq (node : ν) (links : Links ν) :
    qdelete node links = (node, links.delete node) := rfl

theorem qinit_eq (q : ν) (links : Links ν) : qinit q links = links.init q := rfl

/-! ## The lists that queues stand for -/

/-- The queues in memory and the list each one stands for. -/
abbrev Lists (ν : Type) := ν → Option (List ν)

/-- The memory is a disjoint union of rings, one for each queue. -/
structure Holds (links : Links ν) (lists : Lists ν) : Prop where
  ring : ∀ {h l}, lists h = some l → links.IsRing h l
  apart : ∀ {h k l m n}, lists h = some l → lists k = some m → n ∈ h :: l → n ∈ k :: m → h = k

/-- A node that is on no ring, or is one of its own. -/
def Spare (lists : Lists ν) (n : ν) : Prop :=
  ∀ h l, lists h = some l → n ∈ h :: l → h = n ∧ l = []

/-- Queue `h` gets the list `l`, and `n` is no queue any more. -/
def Lists.extend (lists : Lists ν) (h : ν) (l : List ν) (n : ν) : Lists ν :=
  Function.update (Function.update lists h (some l)) n none

/-- Queue `h` gets the list `l`, and `x` a ring of its own. -/
def Lists.release (lists : Lists ν) (h : ν) (l : List ν) (x : ν) : Lists ν :=
  Function.update (Function.update lists h (some l)) x (some [])

/-- What each operation is for: the pointers it leaves, and the lists it should leave. -/
inductive Step : Links ν × Lists ν → Links ν × Lists ν → Prop
  | init {links lists n} (spare : Spare lists n) :
      Step (links, lists) (qinit n links, Function.update lists n (some []))
  | appendLast {links lists h l n} (queue : lists h = some l) (spare : Spare lists n)
      (new : n ≠ h) :
      Step (links, lists) ((qappend (qlast links h) n links).2, lists.extend h (l ++ [n]) n)
  | appendFirst {links lists h l n} (queue : lists h = some l) (spare : Spare lists n)
      (new : n ≠ h) :
      Step (links, lists) ((qappend h n links).2, lists.extend h (n :: l) n)
  | appendAfter {links lists h left x right n} (queue : lists h = some (left ++ x :: right))
      (spare : Spare lists n) (new : n ≠ h) :
      Step (links, lists) ((qappend x n links).2, lists.extend h (left ++ x :: n :: right) n)
  | prependHead {links lists h l n} (queue : lists h = some l) (spare : Spare lists n)
      (new : n ≠ h) :
      Step (links, lists) ((qprepend h n links).2, lists.extend h (l ++ [n]) n)
  | prepend {links lists h left x right n} (queue : lists h = some (left ++ x :: right))
      (spare : Spare lists n) (new : n ≠ h) :
      Step (links, lists) ((qprepend x n links).2, lists.extend h (left ++ n :: x :: right) n)
  | delete {links lists h left x right} (queue : lists h = some (left ++ x :: right)) :
      Step (links, lists) ((qdelete x links).2, lists.release h (left ++ right) x)
  | deleteAlone {links lists x} (queue : lists x = some []) :
      Step (links, lists) ((qdelete x links).2, lists)

/-- The rings whose lists stay the same keep their pointers. -/
def Frame (before after : Links ν × Lists ν) : Prop :=
  ∀ h l, before.2 h = some l → after.2 h = some l →
    ∀ n ∈ h :: l, after.1.p1 n = before.1.p1 n ∧ after.1.p2 n = before.1.p2 n

/-! ## One operation -/

section Operation

variable {links : Links ν} {lists : Lists ν} {h n : ν}

omit [DecidableEq ν] in
theorem Spare.not_mem {l : List ν} (spare : Spare lists n) (queue : lists h = some l)
    (new : n ≠ h) :
    n ∉ h :: l := by
  intro member
  exact new (spare h l queue member).1.symm

/-- Insertion behind `u`, the last node of `h :: left`; the other queues and their pointers stay. -/
theorem Holds.insert {left right : List ν} {u : ν} (holds : Holds links lists)
    (queue : lists h = some (left ++ right)) (spare : Spare lists n) (new : n ≠ h)
    (last : u = (h :: left).getLast (by simp)) :
    Holds (links.append u n) (lists.extend h (left ++ n :: right) n) ∧
      Frame (links, lists) (links.append u n, lists.extend h (left ++ n :: right) n) := by
  have ring := holds.ring queue
  have outside := spare.not_mem queue new
  have ring' := ring.insert outside
  rw [← last] at ring'
  have uMem : u ∈ h :: (left ++ right) := by
    have := List.getLast_mem (l := h :: left) (by simp)
    rw [← last] at this
    simp only [List.mem_cons, List.mem_append] at this ⊢
    tauto
  have vMem := (ring.neighbours_mem uMem).2
  have same : ∀ m, m ∉ h :: (left ++ right) → m ≠ n →
      (links.append u n).p1 m = links.p1 m ∧ (links.append u n).p2 m = links.p2 m := by
    intro m away different
    have after : m ≠ links.p2 u := fun same => away (same ▸ vMem)
    have before : m ≠ u := fun same => away (same ▸ uMem)
    rw [Links.append_p1, Links.append_p2, if_neg after, if_neg different, if_neg before,
      if_neg different]
    exact ⟨rfl, rfl⟩
  have found : ∀ {k m}, lists.extend h (left ++ n :: right) n k = some m →
      k = h ∧ m = left ++ n :: right ∨ k ≠ h ∧ k ≠ n ∧ lists k = some m := by
    intro k m at_
    simp only [Lists.extend, Function.update_apply] at at_
    grind
  have kept : ∀ {k m}, k ≠ h → k ≠ n → lists k = some m → ∀ x ∈ k :: m,
      x ∉ h :: (left ++ right) ∧ x ≠ n := by
    intro k m other other' at_ x member
    refine ⟨fun both => other (holds.apart at_ queue member both), ?_⟩
    rintro rfl
    exact other' (spare k m at_ member).1
  refine ⟨⟨?_, ?_⟩, ?_⟩
  · intro k m at_
    rcases found at_ with ⟨rfl, rfl⟩ | ⟨other, other', at_⟩
    · exact ring'
    · exact (holds.ring at_).congr fun x member =>
        same x (kept other other' at_ x member).1 (kept other other' at_ x member).2
  · intro k k' m m' x at_ at' member member'
    rcases found at_ with ⟨rfl, rfl⟩ | ⟨other, other', old⟩ <;>
      rcases found at' with ⟨rfl, rfl⟩ | ⟨away, away', old'⟩
    · rfl
    · have := kept away away' old' x member'
      simp only [List.mem_cons, List.mem_append] at member this
      tauto
    · have := kept other other' old x member
      simp only [List.mem_cons, List.mem_append] at member' this
      tauto
    · exact holds.apart old old' member member'
  · intro k m before after x member
    rcases found after with ⟨rfl, rfl⟩ | ⟨other, other', -⟩
    · have longer := congrArg List.length (Option.some.inj (queue.symm.trans before))
      simp only [List.length_append, List.length_cons] at longer
      omega
    · exact same x (kept other other' before x member).1 (kept other other' before x member).2

theorem Holds.prepend_eq {l : List ν} {x : ν} (holds : Holds links lists) (queue : lists h = some l)
    (member : x ∈ h :: l) : (qprepend x n links).2 = links.append (links.p1 x) n :=
  Links.prepend_eq_append ((holds.ring queue).p2_p1 member)

theorem Holds.init (holds : Holds links lists) (spare : Spare lists n) :
    Holds (qinit n links) (Function.update lists n (some [])) ∧
      Frame (links, lists) (qinit n links, Function.update lists n (some [])) := by
  have same : ∀ m, m ≠ n →
      (qinit n links).p1 m = links.p1 m ∧ (qinit n links).p2 m = links.p2 m := by
    intro m different
    rw [qinit_eq, Links.init_p1, Links.init_p2, if_neg different, if_neg different]
    exact ⟨rfl, rfl⟩
  have alone : (qinit n links).Alone n := by simp [qinit_eq, Links.Alone, Links.init_p1,
    Links.init_p2]
  have kept : ∀ {k m}, k ≠ n → lists k = some m → ∀ x ∈ k :: m, x ≠ n := by
    rintro k m other at_ x member rfl
    exact other (spare k m at_ member).1
  have found : ∀ {k m}, Function.update lists n (some []) k = some m →
      k = n ∧ m = [] ∨ k ≠ n ∧ lists k = some m := by
    intro k m at_
    rw [Function.update_apply] at at_
    grind
  refine ⟨⟨?_, ?_⟩, ?_⟩
  · intro k m at_
    rcases found at_ with ⟨rfl, rfl⟩ | ⟨other, at_⟩
    · exact Links.isRing_nil_iff.mpr alone
    · exact (holds.ring at_).congr fun x member => same x (kept other at_ x member)
  · intro k k' m m' x at_ at' member member'
    rcases found at_ with ⟨rfl, rfl⟩ | ⟨other, old⟩ <;>
      rcases found at' with ⟨rfl, rfl⟩ | ⟨away, old'⟩
    · rfl
    · exact absurd (by simpa using member) (kept away old' x member')
    · exact absurd (by simpa using member') (kept other old x member)
    · exact holds.apart old old' member member'
  · intro k m before after x member
    rcases found after with ⟨rfl, rfl⟩ | ⟨other, -⟩
    · obtain rfl : x = k := by simpa using member
      have before := Links.isRing_nil_iff.mp (holds.ring before)
      exact ⟨alone.1.trans before.1.symm, alone.2.trans before.2.symm⟩
    · exact same x (kept other before x member)

theorem Holds.delete {left right : List ν} {x : ν} (holds : Holds links lists)
    (queue : lists h = some (left ++ x :: right)) :
    Holds (links.delete x) (lists.release h (left ++ right) x) ∧
      Frame (links, lists) (links.delete x, lists.release h (left ++ right) x) := by
  have ring := holds.ring queue
  have xMem : x ∈ h :: (left ++ x :: right) := by simp
  have neighbours := ring.neighbours_mem xMem
  have different : x ≠ h := by
    rintro rfl
    simpa using ring.nodup
  have same : ∀ m, m ∉ h :: (left ++ x :: right) →
      (links.delete x).p1 m = links.p1 m ∧ (links.delete x).p2 m = links.p2 m := by
    intro m away
    have other : m ≠ x := fun same => away (same ▸ xMem)
    have before : m ≠ links.p1 x := fun same => away (same ▸ neighbours.1)
    have after : m ≠ links.p2 x := fun same => away (same ▸ neighbours.2)
    rw [Links.delete_p1, Links.delete_p2, if_neg other, if_neg after, if_neg other, if_neg before]
    exact ⟨rfl, rfl⟩
  have found : ∀ {k m}, lists.release h (left ++ right) x k = some m →
      k = x ∧ m = [] ∨ k = h ∧ m = left ++ right ∨ k ≠ h ∧ k ≠ x ∧ lists k = some m := by
    intro k m at_
    simp only [Lists.release, Function.update_apply] at at_
    grind
  have kept : ∀ {k m}, k ≠ h → lists k = some m → ∀ y ∈ k :: m, y ∉ h :: (left ++ x :: right) :=
    fun other at_ y member both => other (holds.apart at_ queue member both)
  refine ⟨⟨?_, ?_⟩, ?_⟩
  · intro k m at_
    rcases found at_ with ⟨rfl, rfl⟩ | ⟨rfl, rfl⟩ | ⟨other, -, at_⟩
    · exact Links.isRing_nil_iff.mpr (Links.delete_alone links k)
    · exact ring.delete
    · exact (holds.ring at_).congr fun y member => same y (kept other at_ y member)
  · have distinct := ring.nodup
    have inside : ∀ {k m y}, lists.release h (left ++ right) x k = some m → y ∈ k :: m →
        k = x ∧ y = x ∨ k = h ∧ y ≠ x ∧ y ∈ h :: (left ++ x :: right) ∨
          k ≠ h ∧ k ≠ x ∧ lists k = some m ∧ y ∉ h :: (left ++ x :: right) := by
      intro k m y at_ member
      rcases found at_ with ⟨rfl, rfl⟩ | ⟨rfl, rfl⟩ | ⟨other, other', at_⟩
      · exact .inl ⟨rfl, by simpa using member⟩
      · refine .inr (.inl ⟨rfl, ?_, ?_⟩)
        · rintro rfl
          simp only [List.nodup_cons, List.nodup_append, List.mem_cons,
            List.mem_append] at distinct member
          grind
        · simp only [List.mem_cons, List.mem_append] at member ⊢
          tauto
      · exact .inr (.inr ⟨other, other', at_, kept other at_ y member⟩)
    intro k k' m m' y at_ at' member member'
    have first := inside at_ member
    have second := inside at' member'
    rcases first with ⟨rfl, rfl⟩ | ⟨rfl, other, both⟩ | ⟨-, -, at_, away⟩ <;>
      rcases second with ⟨rfl, same'⟩ | ⟨rfl, other', both'⟩ | ⟨-, -, at', away'⟩
    · rfl
    · exact absurd rfl other'
    · exact absurd xMem away'
    · exact absurd same' other
    · rfl
    · exact absurd both away'
    · exact absurd (same' ▸ xMem) away
    · exact absurd both' away
    · exact holds.apart at_ at' member member'
  · intro k m before after y member
    rcases found after with ⟨rfl, rfl⟩ | ⟨rfl, rfl⟩ | ⟨other, -, -⟩
    · exact absurd (holds.apart before queue (by simp) xMem) different
    · have shorter := congrArg List.length (Option.some.inj (queue.symm.trans before))
      simp only [List.length_append, List.length_cons] at shorter
      omega
    · exact same y (kept other before y member)

/-- Every operation leaves the pointers of the lists it should leave. -/
theorem Holds.step {before after : Links ν × Lists ν} (step : Step before after)
    (holds : Holds before.1 before.2) : Holds after.1 after.2 ∧ Frame before after := by
  cases step with
  | init spare => exact holds.init spare
  | @appendLast links lists h l n queue spare new =>
      have last := (holds.ring queue).p1_head
      have whole : lists h = some (l ++ []) := by simpa using queue
      exact holds.insert whole spare new last
  | @appendFirst links lists h l n queue spare new =>
      have whole : lists h = some ([] ++ l) := queue
      exact holds.insert whole spare new rfl
  | @appendAfter links lists h left x right n queue spare new =>
      have whole : lists h = some (left ++ [x] ++ right) := by simpa using queue
      have inserted := holds.insert (u := x) whole spare new (by simp)
      simpa [qappend_eq] using inserted
  | @prependHead links lists h l n queue spare new =>
      have last := (holds.ring queue).p1_head
      have whole : lists h = some (l ++ []) := by simpa using queue
      rw [holds.prepend_eq queue List.mem_cons_self]
      exact holds.insert whole spare new last
  | @prepend links lists h left x right n queue spare new =>
      have before := (holds.ring queue).linked_before.2
      rw [holds.prepend_eq queue (show x ∈ h :: (left ++ x :: right) by simp)]
      exact holds.insert queue spare new before
  | delete queue => exact holds.delete queue
  | @deleteAlone links lists x queue =>
      have same := Links.delete_of_alone (Links.isRing_nil_iff.mp (holds.ring queue))
      rw [qdelete_eq, same]
      exact ⟨holds, fun _ _ _ _ _ _ => ⟨rfl, rfl⟩⟩

end Operation

/-! ## Traversal -/

theorem traverse_of_chain {next : ν → ν} {queue : ν} (l : List ν) (p : ν) {fuel : Nat}
    (away : queue ∉ l) (enough : l.length < fuel)
    (chain : List.IsChain (fun x y => next x = y) (p :: l ++ [queue])) :
    traverse next queue fuel (next p) = some l := by
  induction l generalizing p fuel with
  | nil =>
      obtain ⟨fuel, rfl⟩ := Nat.exists_eq_succ_of_ne_zero (Nat.ne_of_gt enough)
      have reached : next p = queue := by simpa using chain
      simp [traverse, reached]
  | cons x l ih =>
      obtain ⟨fuel, rfl⟩ := Nat.exists_eq_succ_of_ne_zero (Nat.ne_of_gt (Nat.zero_lt_of_lt enough))
      simp only [List.cons_append, List.isChain_cons_cons] at chain
      have other : x ≠ queue := fun same => away (by simp [same])
      have rest : traverse next queue fuel (next x) = some l :=
        ih x (fun member => away (List.mem_cons_of_mem x member))
          (by simpa using enough) chain.2
      simp [traverse, chain.1, other, rest]

variable {links : Links ν} {h : ν} {l : List ν}

theorem traverse_forward (ring : links.IsRing h l) {fuel : Nat} (enough : l.length < fuel) :
    traverse (qnext links) h fuel (qfirst links h) = some l :=
  traverse_of_chain l h (List.nodup_cons.mp ring.nodup).1 enough
    (ring.chain.imp fun _ _ linked => linked.1)

theorem traverse_backward (ring : links.IsRing h l) {fuel : Nat} (enough : l.length < fuel) :
    traverse (qprev links) h fuel (qlast links h) = some l.reverse := by
  refine traverse_of_chain l.reverse h ?_ (by simpa using enough) ?_
  · simpa using (List.nodup_cons.mp ring.nodup).1
  · have turned := List.isChain_reverse.mpr (ring.chain.imp fun x y linked => linked.2)
    simp only [List.reverse_append, List.reverse_cons, List.reverse_nil, List.nil_append] at turned
    exact turned.imp fun x y before => before

theorem qisempty_iff (ring : links.IsRing h l) : qisempty links h = true ↔ l = [] := by
  simp only [qisempty, decide_eq_true_eq]
  exact ring.p1_head_eq_iff

/-- In memory that is a disjoint union of rings, every operation leaves the rings of the lists it
should leave and the pointers of all others; deleting a node linked to itself leaves everything.  So
after any number of operations both traversals of a queue return its list, and its test for being
empty tells whether the list is. -/
theorem queues_implement_lists {links : Links ν} {lists : Lists ν} (holds : Holds links lists) :
    (∀ after, Step (links, lists) after → Holds after.1 after.2 ∧ Frame (links, lists) after) ∧
      (∀ x, qprev links x = x → qnext links x = x → qdelete x links = (x, links)) ∧
      ∀ after, Relation.ReflTransGen Step (links, lists) after → Holds after.1 after.2 ∧
        ∀ h l, after.2 h = some l →
          (∀ fuel, l.length < fuel →
            traverse (qnext after.1) h fuel (qfirst after.1 h) = some l ∧
              traverse (qprev after.1) h fuel (qlast after.1 h) = some l.reverse) ∧
          (qisempty after.1 h = true ↔ l = []) := by
  refine ⟨fun after step => holds.step step, ?_, ?_⟩
  · intro x back forth
    rw [qdelete_eq, Links.delete_of_alone ⟨back, forth⟩]
  · intro after steps
    have holds' : Holds after.1 after.2 := by
      induction steps with
      | refl => exact holds
      | tail _ step ih => exact (ih.step step).1
    refine ⟨holds', fun h l queue => ⟨fun fuel enough => ?_, qisempty_iff (holds'.ring queue)⟩⟩
    exact ⟨traverse_forward (holds'.ring queue) enough,
      traverse_backward (holds'.ring queue) enough⟩

omit [DecidableEq ν] in
theorem holds_initial : Holds (Links.initial : Links ν) fun _ => some [] where
  ring := by
    intro h l queue
    obtain rfl := Option.some.inj queue
    exact Links.isRing_nil_iff.mpr ⟨rfl, rfl⟩
  apart := by
    intro h k l m n queue queue' member member'
    obtain rfl := Option.some.inj queue
    obtain rfl := Option.some.inj queue'
    simp_all

theorem queues_implement_lists_appended :
    ∃ after : Links Nat × Lists Nat,
      Relation.ReflTransGen Step (Links.initial, fun _ => some []) after ∧
        after.2 0 = some [2, 1] ∧
        traverse (qnext after.1) 0 3 (qfirst after.1 0) = some [2, 1] ∧
        traverse (qprev after.1) 0 3 (qlast after.1 0) = some [1, 2] := by
  have first : Step (Links.initial, fun _ : Nat => some [])
      ((qappend (qlast Links.initial 0) 1 Links.initial).2,
      Lists.extend (fun _ => some []) 0 [1] 1) :=
    .appendLast (l := []) rfl (by simp [Spare, eq_comm]) (by decide)
  have second : Step _ ((qappend 0 2 (qappend (qlast Links.initial 0) 1 Links.initial).2).2,
      (Lists.extend (fun _ => some []) 0 [1] 1).extend 0 [2, 1] 2) :=
    .appendFirst (l := [1]) rfl (by
      intro h l queue member
      simp only [Lists.extend, Function.update_apply] at queue
      grind) (by decide)
  have run := (Relation.ReflTransGen.single first).tail second
  have walks := ((queues_implement_lists holds_initial).2.2 _ run).2 0 [2, 1] rfl
  exact ⟨_, run, rfl, (walks.1 3 (by decide)).1, (walks.1 3 (by decide)).2⟩

end Xatmi.Queue
