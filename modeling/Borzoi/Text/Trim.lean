import Mathlib.Data.List.DropRight

/-
  Lists without some of their elements at the edges.
-/

namespace Borzoi

namespace Text

variable {α β : Type} {p : α → Bool} {l : List α}

/- A list without the elements of a kind at its two ends. -/
def trimBoth
    (p : α → Bool)
    (l : List α) :
    List α :=
  (l.dropWhile p).rdropWhile p

/- No element of the kind is at an end. -/
structure Trimmed
    (p : α → Bool)
    (l : List α) :
    Prop where
  first : ∀ a ∈ l.head?, p a = false
  last : ∀ a ∈ l.getLast?, p a = false

theorem head_dropWhile
    (p : α → Bool)
    (l : List α) :
    ∀ a ∈ (l.dropWhile p).head?, p a = false := by
  intro a hHead
  have hNot := List.head?_dropWhile_not p l
  rw [Option.mem_def.1 hHead] at hNot
  exact hNot

theorem last_rdropWhile
    (p : α → Bool)
    (l : List α) :
    ∀ a ∈ (l.rdropWhile p).getLast?, p a = false := by
  intro a hLast
  unfold List.rdropWhile at hLast
  rw [List.getLast?_reverse] at hLast
  exact head_dropWhile p l.reverse a hLast

/- What is taken off the end leaves the first element. -/
theorem head_rdropWhile
    {a : α}
    (hHead : a ∈ (l.rdropWhile p).head?) :
    a ∈ l.head? := by
  rcases List.rdropWhile_prefix p (l := l) with ⟨tail, hSplit⟩
  rw [← hSplit, List.head?_append]
  rw [Option.mem_def.1 hHead]
  rfl

theorem trimBoth_trimmed
    (p : α → Bool)
    (l : List α) :
    Trimmed p (trimBoth p l) where
  first := fun a hHead => head_dropWhile p l a (head_rdropWhile hHead)
  last := last_rdropWhile p (l.dropWhile p)

theorem dropWhile_eq_self
    (hFirst : ∀ a ∈ l.head?, p a = false) :
    l.dropWhile p = l := by
  cases l with
  | nil => rfl
  | cons a rest =>
      rw [List.dropWhile_cons_of_neg]
      rw [hFirst a rfl]
      exact Bool.false_ne_true

theorem rdropWhile_eq_self
    (hLast : ∀ a ∈ l.getLast?, p a = false) :
    l.rdropWhile p = l := by
  unfold List.rdropWhile
  rw [dropWhile_eq_self, List.reverse_reverse]
  intro a hHead
  rw [List.head?_reverse] at hHead
  exact hLast a hHead

theorem Trimmed.trimBoth_eq
    (hTrimmed : Trimmed p l) :
    trimBoth p l = l := by
  unfold trimBoth
  rw [dropWhile_eq_self hTrimmed.first, rdropWhile_eq_self hTrimmed.last]

theorem trimBoth_within
    (p : α → Bool)
    (l : List α) :
    trimBoth p l <:+: l :=
  (List.rdropWhile_prefix p _).isInfix.trans
    (List.dropWhile_suffix p).isInfix

section Carried

variable {f : α → List β}

theorem flatMap_dropWhile
    (hEmpty : ∀ a, p a = true → f a = []) :
    (l.dropWhile p).flatMap f = l.flatMap f := by
  induction l with
  | nil => rfl
  | cons a rest ih =>
      by_cases hDrop : p a = true
      · rw [List.dropWhile_cons_of_pos hDrop, ih, List.flatMap_cons,
          hEmpty a hDrop, List.nil_append]
      · rw [List.dropWhile_cons_of_neg hDrop]

theorem flatMap_rdropWhile
    (hEmpty : ∀ a, p a = true → f a = []) :
    (l.rdropWhile p).flatMap f = l.flatMap f := by
  induction l using List.reverseRecOn with
  | nil => rfl
  | append_singleton rest a ih =>
      by_cases hDrop : p a = true
      · rw [List.rdropWhile_concat_pos p rest a hDrop, ih,
          List.flatMap_append, List.flatMap_cons, hEmpty a hDrop,
          List.nil_append, List.flatMap_nil, List.append_nil]
      · rw [List.rdropWhile_concat_neg p rest a hDrop]

theorem flatMap_trimBoth
    (hEmpty : ∀ a, p a = true → f a = []) :
    (trimBoth p l).flatMap f = l.flatMap f := by
  unfold trimBoth
  rw [flatMap_rdropWhile hEmpty, flatMap_dropWhile hEmpty]

end Carried

end Text

end Borzoi
