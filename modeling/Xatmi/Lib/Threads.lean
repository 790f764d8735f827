import Xatmi.Lib.Ring

/-!
# Families of rings

Nodes that each belong to one head, on the ring of that head or on none. Rings of different heads
have no node in common, so an operation on one of them leaves the others alone.
-/

namespace Intrusive
namespace Links

universe u

variable {ν : Type u}

/-- Every head heads a ring of nodes that are at home there, and every node with a home is on the
ring of its home or is a ring of its own. -/
structure Threaded (links : Links ν) (heads : ν → Prop) (home : ν → Option ν) : Prop where
  ring : ∀ h, heads h → ∃ nodes, links.IsRing h nodes ∧ ∀ n ∈ nodes, home n = some h
  node : ∀ n h, home n = some h →
    links.Alone n ∨ heads h ∧ ∃ nodes, links.IsRing h nodes ∧ n ∈ nodes
  homeless : ∀ h, heads h → home h = none

namespace Threaded

variable {links other : Links ν} {heads : ν → Prop} {home : ν → Option ν}

theorem initial {heads : ν → Prop} : (initial : Links ν).Threaded heads fun _ => none where
  ring h _ := ⟨[], isRing_nil_iff.mpr ⟨rfl, rfl⟩, by simp⟩
  node := by simp
  homeless _ _ := rfl

/-- A ring of the family has only nodes that are at home there. -/
theorem home_of_mem (threaded : links.Threaded heads home) {h n : ν} {nodes : List ν}
    (head : heads h) (ring : links.IsRing h nodes) (member : n ∈ nodes) : home n = some h := by
  obtain ⟨nodes', ring', members⟩ := threaded.ring h head
  exact members n (ring'.unique ring ▸ member)

theorem mem_of_not_alone (threaded : links.Threaded heads home) {h n : ν} {nodes : List ν}
    (at_ : home n = some h) (linked : ¬links.Alone n) (ring : links.IsRing h nodes) :
    n ∈ nodes := by
  obtain ⟨_, nodes', ring', member⟩ := (threaded.node n h at_).resolve_left linked
  exact ring'.unique ring ▸ member

/-- Nodes that the ring of `h` does not concern: other heads, and nodes with another home. -/
theorem not_mem (threaded : links.Threaded heads home) {h h' n : ν} {nodes nodes' : List ν}
    (head : heads h) (head' : heads h') (different : h' ≠ h) (ring : links.IsRing h nodes)
    (ring' : links.IsRing h' nodes') (member : n ∈ h' :: nodes') : n ∉ h :: nodes := by
  intro both
  rcases List.mem_cons.mp member with rfl | inside' <;> rcases List.mem_cons.mp both with same |
    inside
  · exact different same
  · have := threaded.home_of_mem head ring inside
    rw [threaded.homeless _ head'] at this
    cases this
  · have := threaded.home_of_mem head' ring' inside'
    rw [same, threaded.homeless _ head] at this
    cases this
  · have first := threaded.home_of_mem head ring inside
    have second := threaded.home_of_mem head' ring' inside'
    exact different (Option.some.inj (second.symm.trans first))

/-- What an operation has to do on one ring, and leave alone elsewhere, to keep the family. -/
theorem replace (threaded : links.Threaded heads home) {h n : ν} {nodes nodes' : List ν}
    (head : heads h) (at_ : home n = some h) (ring : links.IsRing h nodes)
    (ring' : other.IsRing h nodes') (members : ∀ m, m ≠ n → (m ∈ nodes' ↔ m ∈ nodes))
    (self : n ∉ nodes' → other.Alone n)
    (away : ∀ m, m ∉ h :: nodes → m ≠ n → other.p1 m = links.p1 m ∧ other.p2 m = links.p2 m) :
    other.Threaded heads home ∧
      ∀ m k, m ≠ n → home m = some k → (other.Alone m ↔ links.Alone m) := by
  have alone : ∀ m k, m ≠ n → home m = some k → links.Alone m → other.Alone m := by
    intro m k different at' alone
    have outside : m ∉ h :: nodes := by
      intro member
      rcases List.mem_cons.mp member with rfl | inside
      · simp [threaded.homeless m head] at at'
      · exact ring.not_alone inside alone
    obtain ⟨back, forth⟩ := away m outside different
    exact ⟨back.trans alone.1, forth.trans alone.2⟩
  have kept : ∀ k ks, heads k → k ≠ h → links.IsRing k ks → other.IsRing k ks := by
    intro k ks head' different ring''
    refine ring''.congr fun m member => ?_
    have outside := threaded.not_mem head head' different ring ring'' member
    refine away m outside ?_
    rintro rfl
    rcases List.mem_cons.mp member with rfl | inside
    · simp [threaded.homeless m head'] at at_
    · exact different (Option.some.inj ((threaded.home_of_mem head' ring'' inside).symm.trans at_))
  have linked : ∀ m k, m ≠ n → home m = some k → ¬links.Alone m →
      heads k ∧ ∃ ks, other.IsRing k ks ∧ m ∈ ks := by
    intro m k different at' linked
    obtain ⟨head', ks, ring'', member⟩ := (threaded.node m k at').resolve_left linked
    by_cases same : k = h
    · subst same
      obtain rfl := ring''.unique ring
      exact ⟨head, nodes', ring', (members m different).mpr member⟩
    · exact ⟨head', ks, kept k ks head' same ring'', member⟩
  refine ⟨⟨?_, ?_, threaded.homeless⟩, ?_⟩
  · intro k head'
    by_cases same : k = h
    · subst same
      refine ⟨nodes', ring', fun m member => ?_⟩
      by_cases self : m = n
      · rw [self, at_]
      · exact threaded.home_of_mem head ring ((members m self).mp member)
    · obtain ⟨ks, ring'', inside⟩ := threaded.ring k head'
      exact ⟨ks, kept k ks head' same ring'', inside⟩
  · intro m k at'
    by_cases same : m = n
    · subst same
      obtain rfl := Option.some.inj (at_.symm.trans at')
      by_cases member : m ∈ nodes'
      · exact .inr ⟨head, nodes', ring', member⟩
      · exact .inl (self member)
    · by_cases before : links.Alone m
      · exact .inl (alone m k same at' before)
      · exact .inr (linked m k same at' before)
  · intro m k different at'
    refine ⟨fun after => ?_, alone m k different at'⟩
    by_contra before
    obtain ⟨_, ks, ring'', member⟩ := linked m k different at' before
    exact ring''.not_alone member after

variable [DecidableEq ν]

/-- Appending a node to the ring of its home. -/
theorem append (threaded : links.Threaded heads home) {h n : ν} (head : heads h)
    (at_ : home n = some h) (alone : links.Alone n) :
    (links.append (links.p1 h) n).Threaded heads home ∧ ¬(links.append (links.p1 h) n).Alone n ∧
      ∀ m k, m ≠ n → home m = some k →
        ((links.append (links.p1 h) n).Alone m ↔ links.Alone m) := by
  obtain ⟨nodes, ring, _⟩ := threaded.ring h head
  have outside : n ∉ h :: nodes := by
    intro member
    rcases List.mem_cons.mp member with rfl | inside
    · simp [threaded.homeless n head] at at_
    · exact ring.not_alone inside alone
  have ring' := ring.append outside
  have lastMem := (ring.neighbours_mem (n := h) List.mem_cons_self).1
  have round := ring.p2_p1 (n := h) List.mem_cons_self
  obtain ⟨threaded', others⟩ := threaded.replace head at_ ring ring'
    (fun m different => by simp [different]) (by simp) (by
      intro m away different
      have apart : m ≠ h := fun same => away (by simp [same])
      have apart' : m ≠ links.p1 h := fun same => away (same ▸ lastMem)
      rw [append_p1, append_p2, round, if_neg apart, if_neg different, if_neg apart',
        if_neg different]
      exact ⟨rfl, rfl⟩)
  exact ⟨threaded', ring'.not_alone (by simp), others⟩

/-- Taking a node out of the ring it may be on. -/
theorem delete (threaded : links.Threaded heads home) {h n : ν} (at_ : home n = some h) :
    (links.delete n).Threaded heads home ∧ ∀ m k, m ≠ n → home m = some k →
      ((links.delete n).Alone m ↔ links.Alone m) := by
  rcases threaded.node n h at_ with alone | ⟨head, nodes, ring, member⟩
  · rw [delete_of_alone alone]
    exact ⟨threaded, fun _ _ _ _ => Iff.rfl⟩
  · have neighbours := ring.neighbours_mem (List.mem_cons_of_mem h member)
    obtain ⟨left, right, rfl⟩ := List.append_of_mem member
    have distinct := (List.nodup_cons.mp ring.nodup).2
    refine threaded.replace head at_ ring ring.delete ?_ (fun _ => delete_alone links n) ?_
    · intro m different
      simp [different]
    · intro m away different
      have before : m ≠ links.p1 n := fun same => away (same ▸ neighbours.1)
      have after : m ≠ links.p2 n := fun same => away (same ▸ neighbours.2)
      rw [delete_p1, delete_p2, if_neg different, if_neg after, if_neg different, if_neg before]
      exact ⟨rfl, rfl⟩

/-- Initialising a node that is in no ring. -/
theorem init (threaded : links.Threaded heads home) {n : ν} (unused : ¬heads n)
    (homeless : home n = none) : (links.init n).Threaded heads home := by
  have same : ∀ m, m ≠ n → (links.init n).p1 m = links.p1 m ∧ (links.init n).p2 m = links.p2 m := by
    intro m different
    rw [init_p1, init_p2, if_neg different, if_neg different]
    exact ⟨rfl, rfl⟩
  have kept : ∀ {h nodes}, heads h → links.IsRing h nodes → (links.init n).IsRing h nodes := by
    intro h nodes head ring
    refine ring.congr fun m member => same m ?_
    rintro rfl
    rcases List.mem_cons.mp member with rfl | inside
    · exact unused head
    · simp [threaded.home_of_mem head ring inside] at homeless
  refine ⟨?_, ?_, threaded.homeless⟩
  · intro h head
    obtain ⟨nodes, ring, members⟩ := threaded.ring h head
    exact ⟨nodes, kept head ring, members⟩
  · intro m h at_
    have different : m ≠ n := by
      rintro rfl
      simp [homeless] at at_
    rcases threaded.node m h at_ with alone | ⟨head, nodes, ring, member⟩
    · exact .inl ((init_alone_iff different).mpr alone)
    · exact .inr ⟨head, nodes, kept head ring, member⟩

omit [DecidableEq ν] in
/-- Other heads and homes for nodes that are rings of their own. -/
theorem regroup (threaded : links.Threaded heads home) {heads' : ν → Prop} {home' : ν → Option ν}
    (arrived : ∀ h, heads' h → heads h ∨ links.Alone h)
    (left : ∀ h, heads h → heads' h ∨ links.p1 h = h)
    (entered : ∀ n h, home' n = some h → home n = some h ∨ links.Alone n)
    (gone : ∀ n h, home n = some h → home' n = some h ∨ links.Alone n)
    (homeless : ∀ h, heads' h → home' h = none) : links.Threaded heads' home' := by
  refine ⟨?_, ?_, homeless⟩
  · intro h head
    by_cases before : heads h
    · obtain ⟨nodes, ring, members⟩ := threaded.ring h before
      refine ⟨nodes, ring, fun n member => ?_⟩
      exact (gone n h (members n member)).resolve_right (ring.not_alone member)
    · exact ⟨[], isRing_nil_iff.mpr ((arrived h head).resolve_left before), by simp⟩
  · intro n h at_
    rcases entered n h at_ with before | alone
    · rcases threaded.node n h before with alone | ⟨head, nodes, ring, member⟩
      · exact .inl alone
      · refine .inr ⟨(left h head).resolve_right fun empty => ?_, nodes, ring, member⟩
        rw [ring.p1_head_eq_iff.mp empty] at member
        cases member
    · exact .inl alone

end Threaded

end Links
end Intrusive
