import Mathlib.Data.List.Induction

/-
  Narrowing a list of candidates.

  A step narrows a list when it keeps some of its elements, and at least
  one where there is one.  Steps compose, so a chain of them answers as
  soon as the list it starts from is not empty.
-/

namespace Borzoi

namespace Narrowing

variable {α : Type} {l l' l'' : List α} {x : α}

/- What is left of `l` is `l'`. -/
structure Narrows
    (l l' : List α) :
    Prop where
  subset : l' ⊆ l
  keeps : l ≠ [] → l' ≠ []

namespace Narrows

theorem refl :
    Narrows l l :=
  ⟨List.Subset.refl l, id⟩

theorem trans
    (hFirst : Narrows l l')
    (hSecond : Narrows l' l'') :
    Narrows l l'' :=
  ⟨List.Subset.trans hSecond.subset hFirst.subset,
    fun hNonempty => hSecond.keeps (hFirst.keeps hNonempty)⟩

theorem filter
    {p : α → Bool}
    (hSome : ∃ x ∈ l, p x = true) :
    Narrows l (l.filter p) := by
  refine ⟨fun x hx => (List.mem_filter.1 hx).1, fun _ => ?_⟩
  rcases hSome with ⟨x, hx, hp⟩
  exact List.ne_nil_of_mem (List.mem_filter.2 ⟨hx, hp⟩)

theorem singleton
    (hx : x ∈ l) :
    Narrows l [x] := by
  refine ⟨?_, fun _ => List.cons_ne_nil x []⟩
  intro y hy
  rw [List.mem_singleton.1 hy]
  exact hx

theorem perm
    (hPerm : l'.Perm l) :
    Narrows l l' := by
  refine ⟨hPerm.subset, ?_⟩
  intro hNonempty hNil
  rw [hNil] at hPerm
  exact hNonempty (List.nil_perm.1 hPerm)

end Narrows

/- The elements that no element kept before them is the same as. -/
def keepFirst
    (same : α → α → Bool)
    (l : List α) :
    List α :=
  l.foldl
    (fun kept x => if kept.any (fun y => same y x) then kept else kept ++ [x])
    []

variable {same : α → α → Bool}

theorem keepFirst_append_singleton
    (l : List α)
    (x : α) :
    keepFirst same (l ++ [x]) =
      if (keepFirst same l).any (fun y => same y x) then
        keepFirst same l
      else
        keepFirst same l ++ [x] := by
  unfold keepFirst
  rw [List.foldl_append]
  rfl

theorem keepFirst_subset
    (l : List α) :
    keepFirst same l ⊆ l := by
  induction l using List.reverseRecOn with
  | nil => exact List.Subset.refl []
  | append_singleton l x ih =>
      intro y hy
      rw [keepFirst_append_singleton] at hy
      by_cases hAny : (keepFirst same l).any (fun z => same z x) = true
      · rw [if_pos hAny] at hy
        exact List.mem_append_left _ (ih hy)
      · rw [if_neg hAny] at hy
        rcases List.mem_append.1 hy with hKept | hLast
        · exact List.mem_append_left _ (ih hKept)
        · exact List.mem_append_right _ hLast

theorem keepFirst_narrows
    (l : List α) :
    Narrows l (keepFirst same l) := by
  refine ⟨keepFirst_subset l, ?_⟩
  intro hNonempty
  rcases List.eq_nil_or_concat l with rfl | ⟨init, x, rfl⟩
  · exact absurd rfl hNonempty
  · rw [List.concat_eq_append, keepFirst_append_singleton]
    by_cases hAny : (keepFirst same init).any (fun y => same y x) = true
    · rw [if_pos hAny]
      rcases List.any_eq_true.1 hAny with ⟨y, hy, _⟩
      exact List.ne_nil_of_mem hy
    · rw [if_neg hAny]
      exact List.append_ne_nil_of_right_ne_nil _ (List.cons_ne_nil x [])

/- Whatever is the same as an element is the same as the one kept for
   it. -/
theorem keepFirst_any
    (hTrans : ∀ a b c, same a b = true → same b c = true → same a c = true)
    (l : List α)
    (x : α) :
    (∃ y ∈ keepFirst same l, same y x = true) ↔
      ∃ y ∈ l, same y x = true := by
  constructor
  · rintro ⟨y, hy, hSame⟩
    exact ⟨y, keepFirst_subset l hy, hSame⟩
  · induction l using List.reverseRecOn with
    | nil =>
        rintro ⟨y, hy, _⟩
        cases hy
    | append_singleton l z ih =>
        rintro ⟨y, hy, hSame⟩
        rw [keepFirst_append_singleton]
        by_cases hAny : (keepFirst same l).any (fun w => same w z) = true
        · rw [if_pos hAny]
          rcases List.mem_append.1 hy with hBefore | hLast
          · exact ih ⟨y, hBefore, hSame⟩
          · rw [List.mem_singleton.1 hLast] at hSame
            rcases List.any_eq_true.1 hAny with ⟨w, hw, hSame'⟩
            exact ⟨w, hw, hTrans w z x hSame' hSame⟩
        · rw [if_neg hAny]
          rcases List.mem_append.1 hy with hBefore | hLast
          · rcases ih ⟨y, hBefore, hSame⟩ with ⟨w, hw, hSame'⟩
            exact ⟨w, List.mem_append_left _ hw, hSame'⟩
          · exact ⟨y, List.mem_append_right _ hLast, hSame⟩

/- An element is kept where nothing before it is the same. -/
theorem mem_keepFirst
    (hTrans : ∀ a b c, same a b = true → same b c = true → same a c = true)
    (l : List α)
    (x : α) :
    x ∈ keepFirst same l ↔
      ∃ before after, l = before ++ x :: after ∧
        ∀ y ∈ before, same y x = false := by
  induction l using List.reverseRecOn with
  | nil =>
      constructor
      · intro hx
        cases hx
      · rintro ⟨before, after, hSplit, _⟩
        cases before <;> cases hSplit
  | append_singleton l z ih =>
      have hStep : x ∈ keepFirst same (l ++ [z]) ↔
          x ∈ keepFirst same l ∨
            (x = z ∧ ∀ y ∈ l, same y z = false) := by
        rw [keepFirst_append_singleton]
        by_cases hAny : (keepFirst same l).any (fun y => same y z) = true
        · rw [if_pos hAny]
          constructor
          · exact Or.inl
          · rintro (hKept | ⟨rfl, hNone⟩)
            · exact hKept
            · rcases List.any_eq_true.1 hAny with ⟨y, hy, hSame⟩
              have hFalse := hNone y (keepFirst_subset l hy)
              rw [hSame] at hFalse
              cases hFalse
        · rw [if_neg hAny, List.mem_append, List.mem_singleton]
          have hNone : ∀ y ∈ l, same y z = false := by
            intro y hy
            by_contra hSame
            have hTrue : same y z = true := by
              simpa using hSame
            rcases (keepFirst_any hTrans l z).2 ⟨y, hy, hTrue⟩ with
              ⟨w, hw, hSame'⟩
            exact hAny (List.any_eq_true.2 ⟨w, hw, hSame'⟩)
          constructor
          · rintro (hKept | rfl)
            · exact Or.inl hKept
            · exact Or.inr ⟨rfl, hNone⟩
          · rintro (hKept | ⟨rfl, _⟩)
            · exact Or.inl hKept
            · exact Or.inr rfl
      rw [hStep, ih]
      constructor
      · rintro (⟨before, after, rfl, hNone⟩ | ⟨rfl, hNone⟩)
        · exact ⟨before, after ++ [z], by simp, hNone⟩
        · exact ⟨l, [], rfl, hNone⟩
      · rintro ⟨before, after, hSplit, hNone⟩
        rcases List.eq_nil_or_concat after with rfl | ⟨after, w, rfl⟩
        · rcases List.append_inj' hSplit rfl with ⟨rfl, hLast⟩
          cases hLast
          exact Or.inr ⟨rfl, hNone⟩
        · rw [List.concat_eq_append, ← List.cons_append,
            ← List.append_assoc] at hSplit
          rcases List.append_inj' hSplit rfl with ⟨hInit, _⟩
          exact Or.inl ⟨before, after, hInit, hNone⟩

/- A relation that is transitive and irreflexive leaves an element of a
   list unbeaten. -/
theorem exists_unbeaten
    {beats : α → α → Prop}
    (hNonempty : l ≠ [])
    (hIrrefl : ∀ x ∈ l, ¬ beats x x)
    (hTrans : ∀ x ∈ l, ∀ y ∈ l, ∀ z ∈ l,
      beats x y → beats y z → beats x z) :
    ∃ x ∈ l, ∀ y ∈ l, ¬ beats y x := by
  induction l with
  | nil => exact absurd rfl hNonempty
  | cons a rest ih =>
      by_cases hRest : rest = []
      · subst hRest
        refine ⟨a, List.mem_cons_self, ?_⟩
        intro y hy
        rw [List.mem_singleton.1 hy]
        exact hIrrefl a List.mem_cons_self
      · have hTail : ∀ {x}, x ∈ rest → x ∈ a :: rest :=
          fun hx => List.mem_cons_of_mem a hx
        rcases ih hRest (fun x hx => hIrrefl x (hTail hx))
          (fun x hx y hy z hz =>
            hTrans x (hTail hx) y (hTail hy) z (hTail hz)) with
          ⟨best, hBest, hUnbeaten⟩
        by_cases hBeats : beats a best
        · refine ⟨a, List.mem_cons_self, ?_⟩
          intro y hy hBeaten
          rcases List.mem_cons.1 hy with rfl | hy
          · exact hIrrefl y List.mem_cons_self hBeaten
          · exact hUnbeaten y hy (hTrans y (hTail hy) a List.mem_cons_self
              best (hTail hBest) hBeaten hBeats)
        · refine ⟨best, hTail hBest, ?_⟩
          intro y hy
          rcases List.mem_cons.1 hy with rfl | hy
          · exact hBeats
          · exact hUnbeaten y hy

end Narrowing

end Borzoi
