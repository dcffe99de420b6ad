import Mathlib.Data.Nat.Init

/-
  Texts by their parts.
-/

namespace Borzoi

namespace Text

variable {α β : Type}

variable {parts : List (List α)} {part xs : List α} {c : α}

/- A closed text is checked character by character. -/
theorem forall_mem_of_all
    {P : α → Prop}
    [DecidablePred P]
    (hAll : xs.all (fun x => P x) = true) :
    ∀ x ∈ xs, P x := by
  intro x hMem
  exact of_decide_eq_true (List.all_eq_true.1 hAll x hMem)

/- What a joined text holds is of the separator or of a part. -/
theorem mem_intercalate
    {sep : List α}
    (hMem : c ∈ sep.intercalate parts) :
    c ∈ sep ∨ ∃ part ∈ parts, c ∈ part := by
  induction parts with
  | nil => simp [List.intercalate] at hMem
  | cons part rest ih =>
      cases rest with
      | nil =>
          have hIn : c ∈ part := by simpa [List.intercalate] using hMem
          exact Or.inr ⟨part, List.mem_cons_self, hIn⟩
      | cons next rest =>
          rw [List.intercalate_cons_cons, List.mem_append,
            List.mem_append] at hMem
          rcases hMem with (hIn | hSep) | hTail
          · exact Or.inr ⟨part, List.mem_cons_self, hIn⟩
          · exact Or.inl hSep
          · rcases ih hTail with hSep | ⟨p, hp, hIn⟩
            · exact Or.inl hSep
            · exact Or.inr ⟨p, List.mem_cons_of_mem _ hp, hIn⟩

theorem map_intercalate
    (f : α → β)
    (sep : List α)
    (xs : List (List α)) :
    (sep.intercalate xs).map f =
      (sep.map f).intercalate (xs.map (List.map f)) := by
  induction xs with
  | nil =>
      rfl
  | cons x xs ih =>
      cases xs with
      | nil =>
          simp
      | cons y ys =>
          simp only [List.intercalate_cons_cons, List.map_append, ih,
            List.map_cons]

/- Every part but the first stands behind a separator. -/
theorem intercalate_cons
    (sep x : List α)
    (xs : List (List α)) :
    sep.intercalate (x :: xs) = x ++ xs.flatMap (sep ++ ·) := by
  induction xs generalizing x with
  | nil =>
      simp
  | cons y ys ih =>
      rw [List.intercalate_cons_cons, ih, List.flatMap_cons,
        List.append_assoc, List.append_assoc]

theorem infix_intercalate
    (sep : List α)
    (hPart : part ∈ parts) :
    part <:+: sep.intercalate parts := by
  cases parts with
  | nil => cases hPart
  | cons first rest =>
      rw [intercalate_cons]
      rcases List.mem_cons.1 hPart with hFirst | hRest
      · rw [hFirst]
        exact (List.prefix_append _ _).isInfix
      · have hIn : sep ++ part <:+: rest.flatMap (sep ++ ·) :=
          List.infix_of_mem_flatten (List.mem_map.2 ⟨part, hRest, rfl⟩)
        exact (List.suffix_append sep part).isInfix.trans
          (hIn.trans (List.suffix_append first _).isInfix)

/- The parts of a split text hold its characters but the separators. -/
theorem mem_splitOnP
    {p : α → Bool}
    (hPart : part ∈ xs.splitOnP p)
    (hMem : c ∈ part) :
    c ∈ xs ∧ p c = false := by
  induction xs generalizing part with
  | nil =>
      rw [List.splitOnP_nil] at hPart
      rw [List.mem_singleton.1 hPart] at hMem
      cases hMem
  | cons x rest ih =>
      rw [List.splitOnP_cons_eq_if_modifyHead] at hPart
      have hLater : part ∈ rest.splitOnP p → c ∈ x :: rest ∧ p c = false :=
        fun hPart =>
          (ih hPart hMem).imp_left fun hIn => List.mem_cons_of_mem x hIn
      split at hPart
      · rcases List.mem_cons.1 hPart with hNil | hRest
        · rw [hNil] at hMem
          cases hMem
        · exact hLater hRest
      · next hInside =>
          cases hSplit : rest.splitOnP p with
          | nil => exact absurd hSplit (List.splitOnP_ne_nil p rest)
          | cons first parts =>
              rw [hSplit, List.modifyHead_cons] at hPart
              rw [hSplit] at ih hLater
              rcases List.mem_cons.1 hPart with hFirst | hRest
              · rw [hFirst] at hMem
                rcases List.mem_cons.1 hMem with hHere | hIn
                · rw [hHere]
                  exact ⟨List.mem_cons_self, Bool.eq_false_iff.2 hInside⟩
                · exact (ih List.mem_cons_self hIn).imp_left
                    fun hIn => List.mem_cons_of_mem x hIn
              · exact hLater (List.mem_cons_of_mem first hRest)

end Text

end Borzoi
