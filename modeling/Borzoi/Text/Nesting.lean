import Mathlib.Data.List.Basic

/-
  Lists cut at the separators outside all brackets.

  Every symbol opens, closes, separates or is plain.  The depth may run
  below zero where more closes than opens.
-/

namespace Borzoi

namespace Text

variable {α : Type}

inductive Mark
  | opens
  | closes
  | separates
  | plain
deriving DecidableEq

/- The parts from here on, the current one as far as it is known. -/
def cutLoop
    (mark : α → Mark) :
    Int → List α → List α → List (List α)
  | _, current, [] => [current]
  | depth, current, a :: rest =>
      match mark a with
      | .opens => cutLoop mark (depth + 1) (current ++ [a]) rest
      | .closes => cutLoop mark (depth - 1) (current ++ [a]) rest
      | .separates =>
          if depth = 0 then
            current :: cutLoop mark depth [] rest
          else
            cutLoop mark depth (current ++ [a]) rest
      | .plain => cutLoop mark depth (current ++ [a]) rest

variable {mark : α → Mark} {s t : List α}

/- Not cut at this depth or below. -/
def UncutFrom
    (mark : α → Mark)
    (low : Int)
    (s : List α) :
    Prop :=
  ∀ depth current rest,
    low ≤ depth →
    cutLoop mark depth current (s ++ rest) =
      cutLoop mark depth (current ++ s) rest

/- Never cut, and not cut inside brackets. -/
abbrev Solid
    (mark : α → Mark)
    (s : List α) :
    Prop :=
  UncutFrom mark 0 s

abbrev Inner
    (mark : α → Mark)
    (s : List α) :
    Prop :=
  UncutFrom mark 1 s

theorem UncutFrom.nil
    (low : Int) :
    UncutFrom mark low [] := by
  intro depth current rest _
  rw [List.append_nil, List.nil_append]

theorem UncutFrom.append
    {low : Int}
    (hFirst : UncutFrom mark low s)
    (hSecond : UncutFrom mark low t) :
    UncutFrom mark low (s ++ t) := by
  intro depth current rest hDepth
  rw [List.append_assoc, hFirst depth current _ hDepth,
    hSecond depth _ rest hDepth, List.append_assoc]

theorem Solid.inner
    (hSolid : Solid mark s) :
    Inner mark s := by
  intro depth current rest hDepth
  exact hSolid depth current rest (Int.le_trans (by decide) hDepth)

theorem UncutFrom.plain
    {low : Int}
    (hPlain : ∀ a ∈ s, mark a = .plain) :
    UncutFrom mark low s := by
  induction s with
  | nil => exact UncutFrom.nil low
  | cons a s ih =>
      intro depth current rest hDepth
      have hRest := ih fun b hb => hPlain b (List.mem_cons_of_mem _ hb)
      have hHere := hPlain a List.mem_cons_self
      rw [List.cons_append, cutLoop, hHere]
      show cutLoop mark depth (current ++ [a]) (s ++ rest) = _
      rw [hRest depth _ rest hDepth, List.append_assoc]
      rfl

/- Inside brackets a separator does not cut. -/
theorem Inner.separator
    {a : α}
    (hMark : mark a = .separates) :
    Inner mark [a] := by
  intro depth current rest hDepth
  have hNe : ¬ depth = 0 := by omega
  rw [List.singleton_append, cutLoop, hMark]
  exact if_neg hNe

/- Brackets around what is not cut inside them. -/
theorem Inner.brackets
    {opening closing : α}
    (hOpen : mark opening = .opens)
    (hClose : mark closing = .closes)
    (hInner : Inner mark s) :
    Solid mark (opening :: s ++ [closing]) := by
  intro depth current rest hDepth
  have hInside : 1 ≤ depth + 1 := by omega
  have hBack : depth + 1 - 1 = depth := by omega
  have hSplit : opening :: s ++ [closing] ++ rest =
      opening :: (s ++ closing :: rest) := by
    simp
  rw [hSplit, cutLoop, hOpen]
  show cutLoop mark (depth + 1) (current ++ [opening])
    (s ++ closing :: rest) = _
  rw [hInner _ _ _ hInside, cutLoop, hClose]
  show cutLoop mark (depth + 1 - 1) _ rest = _
  rw [hBack]
  simp

variable {parts : List (List α)}

theorem Inner.intercalate
    {separator : α}
    (hMark : mark separator = .separates)
    (hParts : ∀ part ∈ parts, Inner mark part) :
    Inner mark (List.intercalate [separator] parts) := by
  induction parts with
  | nil => exact UncutFrom.nil 1
  | cons part parts ih =>
      have hHere := hParts part List.mem_cons_self
      have hRest := ih fun p hp => hParts p (List.mem_cons_of_mem _ hp)
      cases parts with
      | nil =>
          rw [List.intercalate_singleton]
          exact hHere
      | cons next parts =>
          rw [List.intercalate_cons_cons]
          exact (hHere.append (Inner.separator hMark)).append hRest

/- Parts that are never cut come back from their join. -/
theorem cutLoop_intercalate
    {separator : α}
    (hMark : mark separator = .separates)
    (hParts : ∀ part ∈ parts, Solid mark part)
    (hSome : parts ≠ []) :
    cutLoop mark 0 [] (List.intercalate [separator] parts) = parts := by
  induction parts with
  | nil => exact absurd rfl hSome
  | cons part parts ih =>
      have hHere := hParts part List.mem_cons_self
      cases parts with
      | nil =>
          have hCut := hHere 0 [] [] (Int.le_refl 0)
          rw [List.append_nil] at hCut
          rw [List.intercalate_singleton, hCut]
          rfl
      | cons next parts =>
          have hRest := ih
            (fun p hp => hParts p (List.mem_cons_of_mem _ hp))
            (List.cons_ne_nil _ _)
          rw [List.intercalate_cons_cons, List.append_assoc,
            hHere 0 [] _ (Int.le_refl 0), List.singleton_append,
            cutLoop, hMark]
          show part :: cutLoop mark 0 [] _ = _
          rw [hRest]

end Text

end Borzoi
