import Mathlib.Data.List.Basic

/-
  Wildcard matching.

  A token of a pattern is a star, which matches any run of elements, or
  accepts single elements.  The scan keeps only the last star it passed:
  what an earlier star could still take, the last one can take as well.
-/

namespace Borzoi

namespace Text

namespace Wildcard

variable {τ α : Type} (isStar : τ → Bool) (accepts : τ → α → Bool)

/- A star takes any run, another token one element. -/
def matchRun :
    List τ → List α → Bool
  | [], s => s.isEmpty
  | t :: toks, s =>
      if isStar t then
        (List.range (s.length + 1)).any fun n => matchRun toks (s.drop n)
      else
        match s with
        | [] => false
        | x :: s => accepts t x && matchRun toks s

variable {isStar}
variable {accepts}
variable {t : τ} {toks : List τ} {x : α} {s : List α}

theorem matchRun_star
    (hStar : isStar t = true) :
    matchRun isStar accepts (t :: toks) s = true ↔
      ∃ n, matchRun isStar accepts toks (s.drop n) = true := by
  rw [matchRun.eq_def]
  simp only [hStar, if_true, List.any_eq_true]
  constructor
  · rintro ⟨n, _, hn⟩
    exact ⟨n, hn⟩
  · rintro ⟨n, hn⟩
    by_cases hLe : n ≤ s.length
    · exact ⟨n, List.mem_range.2 (by omega), hn⟩
    · refine ⟨s.length, List.mem_range.2 (by omega), ?_⟩
      rw [List.drop_eq_nil_of_le (by omega)] at hn
      rwa [List.drop_length]

theorem matchRun_one
    (hStar : isStar t = false) :
    matchRun isStar accepts (t :: toks) (x :: s) =
      (accepts t x && matchRun isStar accepts toks s) := by
  rw [matchRun, hStar]
  rfl

theorem matchRun_one_nil
    (hStar : isStar t = false) :
    matchRun isStar accepts (t :: toks) [] = false := by
  rw [matchRun, hStar]
  rfl

/- Of the empty text only stars are left. -/
theorem matchRun_nil :
    matchRun isStar accepts toks [] =
      (toks.dropWhile isStar).isEmpty := by
  induction toks with
  | nil => rfl
  | cons t toks ih =>
      cases hStar : isStar t with
      | true =>
          rw [List.dropWhile_cons_of_pos hStar, ← ih, Bool.eq_iff_iff,
            matchRun_star hStar]
          simp
      | false =>
          rw [matchRun_one_nil hStar,
            List.dropWhile_cons_of_neg (by simp [hStar])]
          rfl

/- The token and the element the scan stands at, and the last star it
   passed with the element it passed it at. -/
structure Cursor where
  i : Nat
  j : Nat
  star : Option (Nat × Nat)
  starBefore : ∀ p ∈ star, p.1 < i ∧ p.2 ≤ j

namespace Cursor

def start :
    Cursor :=
  { i := 0
    j := 0
    star := none
    starBefore := nofun }

/- One element is taken by one token. -/
def take
    (c : Cursor) :
    Cursor :=
  { i := c.i + 1
    j := c.j + 1
    star := c.star
    starBefore := by
      intro p hp
      have hBefore := c.starBefore p hp
      omega }

/- A star is passed. -/
def pass
    (c : Cursor) :
    Cursor :=
  { i := c.i + 1
    j := c.j
    star := some (c.i, c.j)
    starBefore := by
      rintro p ⟨⟩
      exact ⟨Nat.lt_succ_self _, Nat.le_refl _⟩ }

/- The star takes one element more. -/
def retry
    (si sj : Nat) :
    Cursor :=
  { i := si + 1
    j := sj + 1
    star := some (si, sj + 1)
    starBefore := by
      rintro p ⟨⟩
      exact ⟨Nat.lt_succ_self _, Nat.le_refl _⟩ }

/- How far the last star stands, and how much it took. -/
def starEnd
    (c : Cursor) :
    Nat :=
  match c.star with
  | none => 0
  | some (si, _) => si + 1

def starTaken
    (c : Cursor) :
    Nat :=
  match c.star with
  | none => 0
  | some (_, sj) => sj

end Cursor

variable (isStar)
variable (accepts)

/- The token at the cursor is passed, or takes the element. -/
def advance
    (token : Option τ)
    (x : α)
    (c : Cursor) :
    Option Cursor :=
  match token with
  | none => none
  | some t =>
      if isStar t then
        some c.pass
      else if accepts t x then
        some c.take
      else
        none

/- Where the token fails, the last star takes one element more. -/
def turn
    (token : Option τ)
    (x : α)
    (c : Cursor) :
    Option Cursor :=
  match advance isStar accepts token x c with
  | some c' => some c'
  | none => c.star.map fun p => Cursor.retry p.1 p.2

variable {isStar}
variable {accepts}
variable {c c' : Cursor}

variable {i j : Nat} {token : Option τ}

/- What a turn can do. -/
theorem turn_cases
    (hTurn : turn isStar accepts token x c = some c') :
    (∃ t, token = some t ∧ isStar t = true ∧ c' = c.pass) ∨
    (∃ t, token = some t ∧ isStar t = false ∧ accepts t x = true ∧
      c' = c.take) ∨
    ((∀ t, token = some t → isStar t = false ∧ accepts t x = false) ∧
      ∃ si sj, c.star = some (si, sj) ∧ c' = Cursor.retry si sj) := by
  unfold turn at hTurn
  cases token with
  | none =>
      refine Or.inr (Or.inr ⟨nofun, ?_⟩)
      rcases Option.map_eq_some_iff.1 hTurn with ⟨⟨si, sj⟩, hStar, rfl⟩
      exact ⟨si, sj, hStar, rfl⟩
  | some t =>
      cases hStar : isStar t with
      | true =>
          simp only [advance, hStar, if_true, Option.some.injEq] at hTurn
          exact Or.inl ⟨t, rfl, hStar, hTurn.symm⟩
      | false =>
          cases hAccepts : accepts t x with
          | true =>
              simp only [advance, hStar, hAccepts, if_true,
                Bool.false_eq_true, if_false, Option.some.injEq] at hTurn
              exact Or.inr (Or.inl ⟨t, rfl, hStar, hAccepts, hTurn.symm⟩)
          | false =>
              simp only [advance, hStar, hAccepts, Bool.false_eq_true,
                if_false] at hTurn
              rcases Option.map_eq_some_iff.1 hTurn with
                ⟨⟨si, sj⟩, hLast, rfl⟩
              refine Or.inr (Or.inr ⟨?_, si, sj, hLast, rfl⟩)
              intro t' ht'
              cases ht'
              exact ⟨hStar, hAccepts⟩

/- Without a turn the token fails and no star was passed. -/
theorem turn_none
    (hTurn : turn isStar accepts token x c = none) :
    (∀ t, token = some t → isStar t = false ∧ accepts t x = false) ∧
      c.star = none := by
  unfold turn at hTurn
  cases hAdvance : advance isStar accepts token x c with
  | some c' =>
      rw [hAdvance] at hTurn
      cases hTurn
  | none =>
      rw [hAdvance] at hTurn
      refine ⟨?_, Option.map_eq_none_iff.1 hTurn⟩
      rintro t rfl
      unfold advance at hAdvance
      simp only at hAdvance
      split at hAdvance
      · cases hAdvance
      · rename_i hStar
        split at hAdvance
        · cases hAdvance
        · rename_i hAccepts
          exact ⟨Bool.eq_false_iff.2 hStar, Bool.eq_false_iff.2 hAccepts⟩

/- A turn moves the star on, or lets it take more, or moves the token on. -/
theorem turn_decreases
    (hElement : s[c.j]? = some x)
    (hTurn : turn isStar accepts toks[c.i]? x c = some c') :
    Prod.Lex (· < ·) (Prod.Lex (· < ·) (· < ·))
      (toks.length - c'.starEnd, s.length - c'.starTaken,
        toks.length - c'.i)
      (toks.length - c.starEnd, s.length - c.starTaken,
        toks.length - c.i) := by
  have hj : c.j < s.length := (List.getElem?_eq_some_iff.1 hElement).1
  rcases turn_cases hTurn with
    ⟨t, hToken, _, rfl⟩ | ⟨t, hToken, _, _, rfl⟩ |
    ⟨_, si, sj, hLast, rfl⟩
  · have hi : c.i < toks.length := (List.getElem?_eq_some_iff.1 hToken).1
    have hEnd : c.starEnd ≤ c.i := by
      unfold Cursor.starEnd
      split
      · omega
      · rename_i hStar
        exact (c.starBefore _ hStar).1
    apply Prod.Lex.left
    show toks.length - (c.i + 1) < toks.length - c.starEnd
    omega
  · have hi : c.i < toks.length := (List.getElem?_eq_some_iff.1 hToken).1
    apply Prod.Lex.right
    apply Prod.Lex.right
    show toks.length - (c.i + 1) < toks.length - c.i
    omega
  · have hBefore := c.starBefore _ hLast
    have hEnd : c.starEnd = (Cursor.retry si sj).starEnd := by
      rw [Cursor.starEnd, hLast]
      rfl
    have hTaken : c.starTaken = sj := by
      rw [Cursor.starTaken, hLast]
    rw [hEnd, hTaken]
    apply Prod.Lex.right
    apply Prod.Lex.left
    show s.length - (sj + 1) < s.length - sj
    omega

variable (isStar)
variable (accepts)

def scan
    (toks : List τ)
    (s : List α)
    (c : Cursor) :
    Bool :=
  match _hElement : s[c.j]? with
  | none => ((toks.drop c.i).dropWhile isStar).isEmpty
  | some x =>
      match _hTurn : turn isStar accepts toks[c.i]? x c with
      | none => false
      | some c' => scan toks s c'
termination_by
  (toks.length - c.starEnd, s.length - c.starTaken, toks.length - c.i)
decreasing_by
  exact turn_decreases _hElement _hTurn

------------------------------------------------------------
-- Correctness
------------------------------------------------------------

/- The match from a token and an element on. -/
def matchFrom
    (toks : List τ)
    (s : List α)
    (i j : Nat) :
    Bool :=
  matchRun isStar accepts (toks.drop i) (s.drop j)

/- The text matches exactly when it matches from the cursor on or with the
   last star taking more; the tokens behind that star took one element
   each. -/
structure Resumable
    (toks : List τ)
    (s : List α)
    (c : Cursor) :
    Prop where
  matches_iff : matchRun isStar accepts toks s = true ↔
    matchFrom isStar accepts toks s c.i c.j = true ∨
      ∃ si sj, c.star = some (si, sj) ∧
        ∃ n > sj, matchFrom isStar accepts toks s (si + 1) n = true
  inside : c.i ≤ toks.length
  singles : ∀ si sj, c.star = some (si, sj) →
    c.j + (si + 1) = sj + c.i ∧
      ∀ m t, si < m → m < c.i → toks[m]? = some t → isStar t = false

variable {isStar}
variable {accepts}

theorem matchFrom_star
    (hToken : toks[i]? = some t)
    (hStar : isStar t = true) :
    matchFrom isStar accepts toks s i j = true ↔
      ∃ n ≥ j, matchFrom isStar accepts toks s (i + 1) n = true := by
  rcases List.getElem?_eq_some_iff.1 hToken with ⟨hi, rfl⟩
  unfold matchFrom
  rw [List.drop_eq_getElem_cons hi, matchRun_star hStar]
  constructor
  · rintro ⟨n, hn⟩
    refine ⟨j + n, Nat.le_add_right _ _, ?_⟩
    rwa [List.drop_drop] at hn
  · rintro ⟨n, hLe, hn⟩
    refine ⟨n - j, ?_⟩
    rwa [List.drop_drop, Nat.add_sub_cancel' hLe]

theorem matchFrom_one
    (hToken : toks[i]? = some t)
    (hStar : isStar t = false)
    (hElement : s[j]? = some x) :
    matchFrom isStar accepts toks s i j =
      (accepts t x && matchFrom isStar accepts toks s (i + 1) (j + 1)) := by
  rcases List.getElem?_eq_some_iff.1 hToken with ⟨hi, rfl⟩
  rcases List.getElem?_eq_some_iff.1 hElement with ⟨hj, rfl⟩
  unfold matchFrom
  rw [List.drop_eq_getElem_cons hi, List.drop_eq_getElem_cons hj,
    matchRun_one hStar]

/- A single token needs an element. -/
theorem matchFrom_single
    (hToken : toks[i]? = some t)
    (hStar : isStar t = false)
    (hMatch : matchFrom isStar accepts toks s i j = true) :
    matchFrom isStar accepts toks s (i + 1) (j + 1) = true := by
  cases hElement : s[j]? with
  | none =>
      have hEnd := List.getElem?_eq_none_iff.1 hElement
      rcases List.getElem?_eq_some_iff.1 hToken with ⟨hi, rfl⟩
      unfold matchFrom at hMatch
      rw [List.drop_eq_getElem_cons hi, List.drop_eq_nil_of_le hEnd,
        matchRun_one_nil hStar] at hMatch
      cases hMatch
  | some x =>
      rw [matchFrom_one hToken hStar hElement, Bool.and_eq_true] at hMatch
      exact hMatch.2

/- A token that fails at an element matches nothing from there. -/
theorem matchFrom_fails
    (hElement : s[c.j]? = some x)
    (hFail : ∀ t, toks[c.i]? = some t →
      isStar t = false ∧ accepts t x = false) :
    matchFrom isStar accepts toks s c.i c.j = false := by
  cases hToken : toks[c.i]? with
  | none =>
      have hEnd := List.getElem?_eq_none_iff.1 hToken
      rcases List.getElem?_eq_some_iff.1 hElement with ⟨hj, rfl⟩
      unfold matchFrom
      rw [List.drop_eq_nil_of_le hEnd, List.drop_eq_getElem_cons hj]
      rfl
  | some t =>
      rcases hFail t hToken with ⟨hStar, hAccepts⟩
      rw [matchFrom_one hToken hStar hElement, hAccepts, Bool.false_and]

/- Single tokens take one element each, wherever they start. -/
theorem matchFrom_singles
    {i n : Nat}
    (k : Nat)
    (hSingles : ∀ m t, i ≤ m → m < i + k → toks[m]? = some t →
      isStar t = false)
    (hInside : i + k ≤ toks.length)
    (hMatch : matchFrom isStar accepts toks s i n = true) :
    matchFrom isStar accepts toks s (i + k) (n + k) = true := by
  induction k with
  | zero => exact hMatch
  | succ k ih =>
      have hBefore := ih
        (fun m t hLow hHigh => hSingles m t hLow (by omega)) (by omega)
      have hToken : toks[i + k]? = some toks[i + k] :=
        List.getElem?_eq_getElem (by omega)
      exact matchFrom_single hToken
        (hSingles _ _ (by omega) (by omega) hToken) hBefore

/- What an earlier start could match behind the last star, the element the
   scan stands at, or a later one, matches as well. -/
theorem Resumable.behind
    (hResumable : Resumable isStar accepts toks s c)
    {si sj n : Nat}
    (hLast : c.star = some (si, sj))
    (hLater : sj < n)
    (hMatch : matchFrom isStar accepts toks s (si + 1) n = true) :
    ∃ m > c.j, matchFrom isStar accepts toks s c.i m = true := by
  have hSingles := hResumable.singles si sj hLast
  have hBefore := (c.starBefore _ hLast).1
  have hInside := hResumable.inside
  have hIndex : si + 1 + (c.i - (si + 1)) = c.i := by
    omega
  refine ⟨n + (c.i - (si + 1)), by omega, ?_⟩
  have hThere := matchFrom_singles (c.i - (si + 1))
    (fun m t hLow hHigh => hSingles.2 m t (by omega) (by omega))
    (by omega) hMatch
  rwa [hIndex] at hThere

theorem Resumable.start :
    Resumable isStar accepts toks s Cursor.start :=
  { matches_iff := by
      constructor
      · exact Or.inl
      · rintro (hMatch | ⟨_, _, hStar, _⟩)
        · exact hMatch
        · cases hStar
    inside := Nat.zero_le _
    singles := nofun }

/- A turn keeps what can be matched. -/
theorem Resumable.turn
    (hResumable : Resumable isStar accepts toks s c)
    (hElement : s[c.j]? = some x)
    (hTurn : turn isStar accepts toks[c.i]? x c = some c') :
    Resumable isStar accepts toks s c' := by
  rcases turn_cases hTurn with
    ⟨t, hToken, hStar, rfl⟩ | ⟨t, hToken, hStar, hAccepts, rfl⟩ |
    ⟨hFail, si, sj, hLast, rfl⟩
  · refine ⟨?_, (List.getElem?_eq_some_iff.1 hToken).1, ?_⟩
    · rw [hResumable.matches_iff]
      constructor
      · intro hMatch
        have hHere : matchFrom isStar accepts toks s c.i c.j = true := by
          rcases hMatch with hMatch | ⟨si, sj, hLast, n, hLater, hMatch⟩
          · exact hMatch
          · rcases hResumable.behind hLast hLater hMatch with
              ⟨m, hm, hMatch⟩
            rcases (matchFrom_star hToken hStar).1 hMatch with
              ⟨n, hn, hMatch⟩
            exact (matchFrom_star hToken hStar).2 ⟨n, by omega, hMatch⟩
        rcases (matchFrom_star hToken hStar).1 hHere with ⟨n, hn, hMatch⟩
        rcases Nat.eq_or_lt_of_le hn with rfl | hLater
        · exact Or.inl hMatch
        · exact Or.inr ⟨c.i, c.j, rfl, n, hLater, hMatch⟩
      · rintro (hMatch | ⟨si, sj, hLast, n, hLater, hMatch⟩)
        · exact Or.inl ((matchFrom_star hToken hStar).2
            ⟨c.j, Nat.le_refl _, hMatch⟩)
        · cases hLast
          exact Or.inl ((matchFrom_star hToken hStar).2
            ⟨n, Nat.le_of_lt hLater, hMatch⟩)
    · rintro si sj ⟨⟩
      refine ⟨rfl, ?_⟩
      intro m t hLow hHigh
      have hHigh' : m < c.i + 1 := hHigh
      omega
  · refine ⟨?_, (List.getElem?_eq_some_iff.1 hToken).1, ?_⟩
    · rw [hResumable.matches_iff, matchFrom_one hToken hStar hElement,
        hAccepts, Bool.true_and]
      exact Iff.rfl
    · intro si sj hLast
      have hSingles := hResumable.singles si sj hLast
      refine ⟨?_, ?_⟩
      · show c.j + 1 + (si + 1) = sj + (c.i + 1)
        omega
      · intro m t' hLow hHigh hToken'
        have hHigh' : m < c.i + 1 := hHigh
        rcases Nat.eq_or_lt_of_le (Nat.le_of_lt_succ hHigh') with
          rfl | hBefore
        · rw [hToken] at hToken'
          cases hToken'
          exact hStar
        · exact hSingles.2 m t' hLow hBefore hToken'
  · have hHere := matchFrom_fails hElement hFail
    have hBefore := c.starBefore _ hLast
    have hInside := hResumable.inside
    refine ⟨?_, ?_, ?_⟩
    · rw [hResumable.matches_iff, hHere]
      constructor
      · rintro (hFalse | ⟨_, _, hLast', n, hLater, hMatch⟩)
        · cases hFalse
        · rw [hLast] at hLast'
          cases hLast'
          rcases Nat.eq_or_lt_of_le (Nat.succ_le_of_lt hLater) with
            rfl | hLater
          · exact Or.inl hMatch
          · exact Or.inr ⟨si, sj + 1, rfl, n, hLater, hMatch⟩
      · rintro (hMatch | ⟨_, _, hLast', n, hLater, hMatch⟩)
        · exact Or.inr ⟨si, sj, hLast, sj + 1, Nat.lt_succ_self _, hMatch⟩
        · cases hLast'
          exact Or.inr ⟨si, sj, hLast, n, by omega, hMatch⟩
    · show si + 1 ≤ toks.length
      omega
    · rintro si' sj' ⟨⟩
      refine ⟨rfl, ?_⟩
      intro m t hLow hHigh
      have hHigh' : m < si + 1 := hHigh
      omega

theorem scan_end
    (hElement : s[c.j]? = none) :
    scan isStar accepts toks s c =
      ((toks.drop c.i).dropWhile isStar).isEmpty := by
  rw [scan.eq_def]
  split
  · rfl
  · rename_i x hSome
    rw [hElement] at hSome
    cases hSome

theorem scan_stuck
    (hElement : s[c.j]? = some x)
    (hTurn : turn isStar accepts toks[c.i]? x c = none) :
    scan isStar accepts toks s c = false := by
  rw [scan.eq_def]
  split
  · rename_i hNone
    rw [hElement] at hNone
    cases hNone
  · rename_i x' hSome
    rw [hElement] at hSome
    cases hSome
    split
    · rfl
    · rename_i c' hSome
      rw [hTurn] at hSome
      cases hSome

theorem scan_turn
    (hElement : s[c.j]? = some x)
    (hTurn : turn isStar accepts toks[c.i]? x c = some c') :
    scan isStar accepts toks s c = scan isStar accepts toks s c' := by
  rw [scan.eq_def]
  split
  · rename_i hNone
    rw [hElement] at hNone
    cases hNone
  · rename_i x' hSome
    rw [hElement] at hSome
    cases hSome
    split
    · rename_i hNone
      rw [hTurn] at hNone
      cases hNone
    · rename_i c'' hSome
      rw [hTurn] at hSome
      cases hSome
      rfl

/- The scan from a cursor decides the whole match. -/
theorem scan_of_resumable
    (c : Cursor)
    (hResumable : Resumable isStar accepts toks s c) :
    scan isStar accepts toks s c = matchRun isStar accepts toks s := by
  induction c using scan.induct isStar accepts toks s with
  | case1 c hElement =>
      have hEnd := List.getElem?_eq_none_iff.1 hElement
      have hHere : ∀ m ≥ c.j, matchFrom isStar accepts toks s c.i m =
          ((toks.drop c.i).dropWhile isStar).isEmpty := by
        intro m hm
        have hDrop : s.drop m = [] :=
          List.drop_eq_nil_of_le (Nat.le_trans hEnd hm)
        rw [matchFrom, hDrop, matchRun_nil]
      rw [scan_end hElement, Bool.eq_iff_iff, hResumable.matches_iff]
      constructor
      · intro hStars
        rw [← hHere c.j (Nat.le_refl _)] at hStars
        exact Or.inl hStars
      · rintro (hMatch | ⟨si, sj, hLast, n, hLater, hMatch⟩)
        · rwa [hHere c.j (Nat.le_refl _)] at hMatch
        · rcases hResumable.behind hLast hLater hMatch with
            ⟨m, hm, hMatch⟩
          rwa [hHere m (Nat.le_of_lt hm)] at hMatch
  | case2 c x hElement hTurn =>
      rcases turn_none hTurn with ⟨hFail, hNone⟩
      rw [scan_stuck hElement hTurn, Bool.eq_iff_iff,
        hResumable.matches_iff, matchFrom_fails hElement hFail]
      constructor
      · nofun
      · rintro (hFalse | ⟨si, sj, hLast, _⟩)
        · exact hFalse
        · rw [hNone] at hLast
          cases hLast
  | case3 c x hElement c' hTurn ih =>
      rw [scan_turn hElement hTurn]
      exact ih (hResumable.turn hElement hTurn)

/- The scan matches what the definition does. -/
theorem scan_start
    (toks : List τ)
    (s : List α) :
    scan isStar accepts toks s Cursor.start =
      matchRun isStar accepts toks s :=
  scan_of_resumable Cursor.start Resumable.start

end Wildcard

end Text

end Borzoi
