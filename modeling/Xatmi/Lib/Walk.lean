import Mathlib.Logic.Relation
import Mathlib.Data.List.Nodup
import Mathlib.Tactic.Common

/-!
# Walking over a list that changes

A loop over a linked list that looks up the successor of an element before it works on the element.
The loop is safe if the work on an element removes no other element from the list.
-/

namespace Walk

variable {ε σ α : Type} [DecidableEq α]

/-- The element after `a`; none at the end of the list. -/
def successor (items : List α) (a : α) : Option α :=
  items[items.idxOf a + 1]?

theorem successor_append {front rest : List α} {a : α} (notBefore : a ∉ front) :
    successor (front ++ a :: rest) a = rest.head? := by
  have position : (front ++ a :: rest).idxOf a = front.length := by
    rw [List.idxOf_append_of_notMem notBefore, List.idxOf_cons_self, Nat.add_zero]
  rw [successor, position, List.getElem?_append_right (Nat.le_succ _), List.head?_eq_getElem?]
  simp

/-- What is walked over, the elements to be worked on, the work, and the fault of following a
pointer to an element that is no longer in the list. -/
structure Walker (ε σ α : Type) where
  items : σ → List α
  wanted : α → Bool
  work : α → σ → Except ε σ
  dangling : ε

/-- The loop between two turns: where it stands, and which elements have been worked on. -/
structure Loop (σ α : Type) where
  state : σ
  cursor : Option α
  worked : List α

namespace Walker

variable (w : Walker ε σ α)

/-- One turn of the loop. -/
def turn (l : Loop σ α) : Except ε (Loop σ α) :=
  match l.cursor with
  | none => .ok l
  | some a =>
      if a ∈ w.items l.state then
        let cursor := successor (w.items l.state) a
        if w.wanted a then
          (w.work a l.state).map fun state => { state, cursor, worked := l.worked ++ [a] }
        else
          .ok { l with cursor }
      else
        .error w.dangling

/-- The loop, given up after a number of turns. -/
def iterate (stuck : ε) : Nat → Loop σ α → Except ε (Loop σ α)
  | 0, l => if l.cursor = none then .ok l else .error stuck
  | turns + 1, l => if l.cursor = none then .ok l else (w.turn l).bind (iterate stuck turns)

/-- The loop before its first turn. -/
def enter (s : σ) : Loop σ α :=
  ⟨s, (w.items s).head?, []⟩

/-- Some number of turns. -/
abbrev Turns : Loop σ α → Loop σ α → Prop :=
  Relation.ReflTransGen fun l l' => w.turn l = .ok l'

/-- In states that are `ok`, the work on an element removes no other element. -/
structure Local (ok : σ → Prop) : Prop where
  nodup : ∀ s, ok s → (w.items s).Nodup
  kept : ∀ a s s', ok s → a ∈ w.items s → w.work a s = .ok s' →
    ok s' ∧ (w.items s' = w.items s ∨ w.items s' = (w.items s).erase a)

/-- The loop over the elements `all` is through with `done` and has `rest` before it. -/
structure At (ok : σ → Prop) (all done rest : List α) (l : Loop σ α) : Prop where
  state : ok l.state
  split : all = done ++ rest
  items : ∃ kept, w.items l.state = kept ++ rest
  cursor : l.cursor = rest.head?
  worked : l.worked = done.filter w.wanted

variable {w} {ok : σ → Prop} {all done rest : List α} {l l' : Loop σ α}

omit [DecidableEq α] in
theorem at_enter {s : σ} (fine : ok s) : w.At ok (w.items s) [] (w.items s) (w.enter s) :=
  ⟨fine, rfl, ⟨[], rfl⟩, rfl, rfl⟩

theorem turn_worked (turned : w.turn l = .ok l') :
    ∃ more, l'.worked = l.worked ++ more ∧
      more.foldlM (fun s a => w.work a s) l.state = .ok l'.state := by
  unfold Walker.turn at turned
  cases cursor : l.cursor with
  | none =>
      rw [cursor] at turned
      obtain rfl := Except.ok.inj turned
      exact ⟨[], (List.append_nil _).symm, rfl⟩
  | some a =>
      simp only [cursor] at turned
      split at turned
      · split at turned
        · cases worksOut : w.work a l.state with
          | error fault =>
              rw [worksOut] at turned
              cases turned
          | ok s =>
              rw [worksOut] at turned
              obtain rfl := Except.ok.inj turned
              exact ⟨[a], rfl, by simp [worksOut, bind, Except.bind, pure, Except.pure]⟩
        · obtain rfl := Except.ok.inj turned
          exact ⟨[], (List.append_nil _).symm, rfl⟩
      · cases turned

theorem foldlM_worked (later : w.Turns l l') :
    ∃ more, l'.worked = l.worked ++ more ∧
      more.foldlM (fun s a => w.work a s) l.state = .ok l'.state := by
  induction later with
  | refl => exact ⟨[], (List.append_nil _).symm, rfl⟩
  | tail _ turned ih =>
      obtain ⟨more, worked, done⟩ := ih
      obtain ⟨last, worked', done'⟩ := turn_worked turned
      refine ⟨more ++ last, by rw [worked', worked, List.append_assoc], ?_⟩
      rw [List.foldlM_append, done]
      exact done'

namespace At

omit [DecidableEq α] in
theorem cursor_mem {a : α} (here : w.At ok all done rest l) (cursor : l.cursor = some a) :
    a ∈ w.items l.state := by
  obtain ⟨kept, items⟩ := here.items
  rw [items]
  exact List.mem_append_right _ (List.mem_of_head? (here.cursor.symm.trans cursor))

theorem turn {a : α} (local_ : w.Local ok) (here : w.At ok all done (a :: rest) l)
    (turned : w.turn l = .ok l') : w.At ok all (done ++ [a]) rest l' := by
  obtain ⟨fine, split, ⟨kept, items⟩, cursor, worked⟩ := here
  have inside : a ∈ w.items l.state := by simp [items]
  have nodup := local_.nodup _ fine
  have notKept : a ∉ kept := by
    rw [items, List.nodup_append] at nodup
    exact fun member => nodup.2.2 a member a List.mem_cons_self rfl
  have next : successor (w.items l.state) a = rest.head? := by rw [items, successor_append notKept]
  have split' : all = (done ++ [a]) ++ rest := by simp [split]
  simp only [Walker.turn, cursor, List.head?_cons, inside, ↓reduceIte, next] at turned
  split at turned
  · next wanted =>
      cases worksOut : w.work a l.state with
      | error fault =>
          rw [worksOut] at turned
          cases turned
      | ok s =>
          rw [worksOut] at turned
          obtain rfl := Except.ok.inj turned
          obtain ⟨fine', after⟩ := local_.kept a _ s fine inside worksOut
          refine ⟨fine', split', ?_, rfl, by simp [worked, wanted]⟩
          rcases after with same | erased
          · exact ⟨kept ++ [a], by simp [same, items]⟩
          · exact ⟨kept, by simp [erased, items, List.erase_append_right _ notKept]⟩
  · next unwanted =>
      obtain rfl := Except.ok.inj turned
      exact ⟨fine, split', ⟨kept ++ [a], by simp [items]⟩, rfl, by simp [worked, unwanted]⟩

theorem turn_error {fault : ε} (here : w.At ok all done rest l) (failed : w.turn l = .error fault) :
    ∃ a, l.cursor = some a ∧ w.wanted a = true ∧ w.work a l.state = .error fault := by
  unfold Walker.turn at failed
  cases cursor : l.cursor with
  | none =>
      rw [cursor] at failed
      cases failed
  | some a =>
      simp only [cursor, here.cursor_mem cursor, ↓reduceIte] at failed
      split at failed
      · next wanted =>
          refine ⟨a, rfl, wanted, ?_⟩
          cases worksOut : w.work a l.state with
          | error fault' =>
              rw [worksOut] at failed
              exact congrArg _ (Except.error.inj failed)
          | ok s =>
              rw [worksOut] at failed
              cases failed
      · cases failed

/-- Wherever the loop stands, it is through with some of the elements and has the others before
it. -/
theorem turns (local_ : w.Local ok) (here : w.At ok all done rest l) (later : w.Turns l l') :
    ∃ done' rest', w.At ok all done' rest' l' := by
  induction later with
  | refl => exact ⟨done, rest, here⟩
  | @tail middle last _ turned ih =>
      obtain ⟨done', rest', there⟩ := ih
      cases rest' with
      | cons a rest' => exact ⟨_, _, there.turn local_ turned⟩
      | nil =>
          have same : w.turn middle = .ok middle := by simp [Walker.turn, there.cursor]
          obtain rfl := Except.ok.inj (same.symm.trans turned)
          exact ⟨done', [], there⟩

/-- The loop ends, with all elements dealt with, unless the work on one of them fails. -/
theorem iterate (stuck : ε) (local_ : w.Local ok) {limit : Nat} (here : w.At ok all done rest l)
    (enough : rest.length ≤ limit) :
    (∃ l', w.iterate stuck limit l = .ok l' ∧ w.Turns l l' ∧ w.At ok all all [] l') ∨
      ∃ fault l' a, w.iterate stuck limit l = .error fault ∧ w.Turns l l' ∧ l'.cursor = some a ∧
        w.wanted a = true ∧ w.work a l'.state = .error fault := by
  induction limit generalizing l done rest with
  | zero =>
      obtain rfl : rest = [] := List.eq_nil_of_length_eq_zero (Nat.le_zero.mp enough)
      refine .inl ⟨l, by simp [Walker.iterate, here.cursor], .refl, ?_⟩
      have through : all = done := by simpa using here.split
      subst through
      exact here
  | succ limit ih =>
      cases rest with
      | nil =>
          refine .inl ⟨l, by simp [Walker.iterate, here.cursor], .refl, ?_⟩
          have through : all = done := by simpa using here.split
          subst through
          exact here
      | cons a rest =>
          have goes : w.iterate stuck (limit + 1) l = (w.turn l).bind (w.iterate stuck limit) := by
            simp [Walker.iterate, here.cursor]
          rw [goes]
          cases turned : w.turn l with
          | error fault =>
              obtain ⟨b, cursor, wanted, fails⟩ := here.turn_error turned
              exact .inr ⟨fault, l, b, rfl, .refl, cursor, wanted, fails⟩
          | ok l' =>
              have short : rest.length ≤ limit := Nat.le_of_succ_le_succ enough
              rcases ih (here.turn local_ turned) short with
                ⟨last, ends, later, there⟩ | ⟨fault, last, b, ends, later, rest⟩
              · exact .inl ⟨last, ends, .head turned later, there⟩
              · exact .inr ⟨fault, last, b, ends, .head turned later, rest⟩

end At
end Walker
end Walk
