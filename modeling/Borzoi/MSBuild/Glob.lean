import Borzoi.Text.Wildcard
import Mathlib.Data.List.TakeWhile

/-
  Globs of item includes.

  A pattern is a list of segments; both loops of the matcher, over the
  characters of a segment and over the segments of a path, are the scan
  that goes back to the last star only.

  Main declarations:
    * `Pattern.parse`
    * `Pattern.matches`
    * `splitGlobRoot`
    * `glob_matches_spec`
-/

namespace Borzoi

namespace MSBuild

open Text

inductive Tok
  | Lit (c : Char)
  | Star
  | Question
  deriving DecidableEq, Repr

inductive Seg
  | Match (toks : List Tok)
  | DoubleStar
  deriving DecidableEq, Repr

structure Pattern where
  segs : List Seg
  deriving DecidableEq, Repr

/- `split_segments`. -/
def splitSegments
    (raw : List Char) :
    List (List Char) :=
  (raw.splitOnP fun c => c == '/' || c == '\\').filter fun s =>
    !s.isEmpty && s != ['.']

namespace Tok

def ofChar
    (c : Char) :
    Tok :=
  match c with
  | '*' => Star
  | '?' => Question
  | other => Lit other

def isStar
    (t : Tok) :
    Bool :=
  t == Star

def accepts
    (t : Tok)
    (c : Char) :
    Bool :=
  match t with
  | Question => true
  | Lit c' => c' == c
  | Star => false

end Tok

/- `seg_match`. -/
def segMatch
    (toks : List Tok)
    (s : List Char) :
    Bool :=
  Wildcard.scan Tok.isStar Tok.accepts toks s Wildcard.Cursor.start

namespace Seg

def ofText
    (s : List Char) :
    Seg :=
  if s = ['*', '*'] then
    DoubleStar
  else
    Match (s.map Tok.ofChar)

def isStar
    (seg : Seg) :
    Bool :=
  seg == DoubleStar

def accepts
    (seg : Seg)
    (s : List Char) :
    Bool :=
  match seg with
  | Match toks => segMatch toks s
  | DoubleStar => false

end Seg

/- `path_match`. -/
def pathMatch
    (segs : List Seg)
    (path : List (List Char)) :
    Bool :=
  Wildcard.scan Seg.isStar Seg.accepts segs path Wildcard.Cursor.start

namespace Pattern

def parse
    (fragment : List Char) :
    Pattern :=
  { segs := (splitSegments fragment).map Seg.ofText }

def «matches»
    (p : Pattern)
    (candidate : List Char) :
    Bool :=
  pathMatch p.segs (splitSegments candidate)

end Pattern

/- `GlobRoot`. -/
structure GlobRoot where
  pre : List (List Char)
  tailDepth : Option Nat
  deriving DecidableEq, Repr

/- The test of `split_glob_root` for one segment. -/
def isWild
    (s : List Char) :
    Bool :=
  s.contains '*' || s.contains '?'

/- `split_glob_root`. -/
def splitGlobRoot
    (fragment : List Char) :
    GlobRoot :=
  let segs := splitSegments fragment
  let prefixLen := (segs.takeWhile fun s => !isWild s).length
  let tail := segs.drop prefixLen
  { pre := segs.take prefixLen
    tailDepth :=
      if tail.contains ['*', '*'] then none else some tail.length }

/- `seg_match_naive`. -/
def segMatchNaive :
    List Char → List Char → Bool
  | [], s => s.isEmpty
  | '*' :: rest, s =>
      (List.range (s.length + 1)).any fun i => segMatchNaive rest (s.drop i)
  | '?' :: rest, s => !s.isEmpty && segMatchNaive rest (s.drop 1)
  | c :: rest, s => s.head? == some c && segMatchNaive rest (s.drop 1)

/- `path_match_naive`. -/
def pathMatchNaive :
    List (List Char) → List (List Char) → Bool
  | [], path => path.isEmpty
  | p :: rest, path =>
      if p = ['*', '*'] then
        (List.range (path.length + 1)).any fun i =>
          pathMatchNaive rest (path.drop i)
      else
        match path with
        | [] => false
        | s :: path => segMatchNaive p s && pathMatchNaive rest path

/- `matches_naive`. -/
def matchesNaive
    (pattern path : List Char) :
    Bool :=
  pathMatchNaive (splitSegments pattern) (splitSegments path)

variable {p s : List Char} {c : Char} {segs path rest : List (List Char)}

theorem ofChar_plain
    (hStar : c ≠ '*')
    (hQuestion : c ≠ '?') :
    Tok.ofChar c = Tok.Lit c := by
  unfold Tok.ofChar
  split
  · exact absurd rfl hStar
  · exact absurd rfl hQuestion
  · rfl

theorem segMatchNaive_plain
    (hStar : c ≠ '*')
    (hQuestion : c ≠ '?') :
    segMatchNaive (c :: p) s =
      (s.head? == some c && segMatchNaive p (s.drop 1)) := by
  rw [segMatchNaive.eq_def]
  split
  · rename_i heq
    cases heq
  · rename_i heq
    cases heq
    exact absurd rfl hStar
  · rename_i heq
    cases heq
    exact absurd rfl hQuestion
  · rename_i heq
    cases heq
    rfl

theorem segMatch_eq
    (p s : List Char) :
    segMatch (p.map Tok.ofChar) s = segMatchNaive p s := by
  unfold segMatch
  rw [Wildcard.scan_start]
  induction p generalizing s with
  | nil => rfl
  | cons c p ih =>
      rw [List.map_cons]
      by_cases hStar : c = '*'
      · subst hStar
        rw [Wildcard.matchRun.eq_def]
        show ((List.range (s.length + 1)).any fun n =>
          Wildcard.matchRun Tok.isStar Tok.accepts (p.map Tok.ofChar)
            (s.drop n)) = _
        simp only [ih]
        rfl
      · by_cases hQuestion : c = '?'
        · subst hQuestion
          cases s with
          | nil => rfl
          | cons x s =>
              rw [Wildcard.matchRun_one (by decide), ih]
              rfl
        · rw [ofChar_plain hStar hQuestion,
            segMatchNaive_plain hStar hQuestion]
          have hLit : Tok.isStar (Tok.Lit c) = false := by
            simp [Tok.isStar]
          cases s with
          | nil =>
              rw [Wildcard.matchRun_one_nil hLit]
              rfl
          | cons x s =>
              rw [Wildcard.matchRun_one hLit, ih, List.drop_one,
                List.tail_cons, List.head?_cons, Option.some_beq_some]
              show (c == x && _) = (x == c && _)
              rw [BEq.comm]

/- A segment without wildcards matches itself only. -/
theorem eq_of_segMatchNaive
    (hPlain : isWild p = false)
    (hMatch : segMatchNaive p s = true) :
    s = p := by
  induction p generalizing s with
  | nil => exact List.isEmpty_iff.1 hMatch
  | cons c p ih =>
      simp only [isWild, List.contains_cons, Bool.or_eq_false_iff,
        beq_eq_false_iff_ne] at hPlain
      rcases hPlain with ⟨⟨hStar, hTail⟩, hQuestion, hTail'⟩
      have hRest : isWild p = false := by
        rw [isWild, hTail, hTail']
        rfl
      rw [segMatchNaive_plain (Ne.symm hStar) (Ne.symm hQuestion),
        Bool.and_eq_true, beq_iff_eq] at hMatch
      cases s with
      | nil => cases hMatch.1
      | cons x s =>
          have hHead : x = c := Option.some.inj hMatch.1
          have hSame : s = p := ih hRest hMatch.2
          rw [hHead, hSame]

theorem pathMatchNaive_single
    {head : List Char}
    (hSingle : p ≠ ['*', '*']) :
    pathMatchNaive (p :: segs) (head :: path) =
      (segMatchNaive p head && pathMatchNaive segs path) := by
  rw [pathMatchNaive, if_neg hSingle]

theorem pathMatchNaive_single_nil
    (hSingle : p ≠ ['*', '*']) :
    pathMatchNaive (p :: segs) [] = false := by
  rw [pathMatchNaive, if_neg hSingle]

theorem pathMatch_eq
    (segs path : List (List Char)) :
    pathMatch (segs.map Seg.ofText) path = pathMatchNaive segs path := by
  unfold pathMatch
  rw [Wildcard.scan_start]
  induction segs generalizing path with
  | nil => rfl
  | cons p segs ih =>
      rw [List.map_cons]
      by_cases hStar : p = ['*', '*']
      · subst hStar
        rw [Wildcard.matchRun.eq_def, pathMatchNaive.eq_def]
        show ((List.range (path.length + 1)).any fun n =>
          Wildcard.matchRun Seg.isStar Seg.accepts (segs.map Seg.ofText)
            (path.drop n)) = _
        simp only [ih]
        rfl
      · have hSeg : Seg.ofText p = Seg.Match (p.map Tok.ofChar) := by
          rw [Seg.ofText, if_neg hStar]
        have hSingle : Seg.isStar (Seg.Match (p.map Tok.ofChar)) =
            false := by
          simp [Seg.isStar]
        rw [hSeg]
        cases path with
        | nil =>
            rw [Wildcard.matchRun_one_nil hSingle,
              pathMatchNaive_single_nil hStar]
        | cons head path =>
            rw [Wildcard.matchRun_one hSingle, ih,
              pathMatchNaive_single hStar]
            show (segMatch (p.map Tok.ofChar) head && _) = _
            rw [segMatch_eq]

/- Segments without wildcards stand at the front of every match. -/
theorem pathMatchNaive_append
    {pre tail : List (List Char)}
    (hPlain : ∀ p ∈ pre, isWild p = false)
    (hMatch : pathMatchNaive (pre ++ tail) path = true) :
    ∃ rest, path = pre ++ rest ∧ pathMatchNaive tail rest = true := by
  induction pre generalizing path with
  | nil => exact ⟨path, rfl, hMatch⟩
  | cons p pre ih =>
      have hFirst := hPlain p List.mem_cons_self
      have hSingle : p ≠ ['*', '*'] := by
        rintro rfl
        exact absurd hFirst (by decide)
      cases path with
      | nil =>
          rw [List.cons_append, pathMatchNaive_single_nil hSingle]
            at hMatch
          cases hMatch
      | cons head path =>
          rw [List.cons_append, pathMatchNaive_single hSingle,
            Bool.and_eq_true] at hMatch
          rcases ih (fun q hq => hPlain q (List.mem_cons_of_mem _ hq))
            hMatch.2 with ⟨rest, rfl, hRest⟩
          rw [eq_of_segMatchNaive hFirst hMatch.1]
          exact ⟨rest, rfl, hRest⟩

/- Without `**` a match has one segment for each of the pattern's. -/
theorem length_of_pathMatchNaive
    (hBounded : ['*', '*'] ∉ segs)
    (hMatch : pathMatchNaive segs path = true) :
    path.length = segs.length := by
  induction segs generalizing path with
  | nil =>
      rw [List.isEmpty_iff.1 hMatch]
  | cons p segs ih =>
      have hSingle : p ≠ ['*', '*'] := by
        rintro rfl
        exact hBounded List.mem_cons_self
      cases path with
      | nil =>
          rw [pathMatchNaive_single_nil hSingle] at hMatch
          cases hMatch
      | cons head path =>
          rw [pathMatchNaive_single hSingle, Bool.and_eq_true] at hMatch
          have hLength := ih
            (fun hMem => hBounded (List.mem_cons_of_mem _ hMem)) hMatch.2
          rw [List.length_cons, List.length_cons, hLength]

theorem matches_eq
    (fragment path : List Char) :
    (Pattern.parse fragment).matches path =
      matchesNaive fragment path :=
  pathMatch_eq _ _

/- The root of a glob and the rest of its segments. -/
theorem splitGlobRoot_pre
    (fragment : List Char) :
    (splitGlobRoot fragment).pre =
      (splitSegments fragment).takeWhile fun s => !isWild s :=
  (List.prefix_iff_eq_take.1 (List.takeWhile_prefix _)).symm

/- A pattern matches as defined, and what a fragment matches lies in its
   root, as deep as its tail says. -/
theorem glob_matches_spec
    (fragment path : List Char) :
    (Pattern.parse fragment).matches path = matchesNaive fragment path ∧
      ((Pattern.parse fragment).matches path = true →
        (splitGlobRoot fragment).pre <+: splitSegments path ∧
          ∀ d, (splitGlobRoot fragment).tailDepth = some d →
            (splitSegments path).length =
              (splitGlobRoot fragment).pre.length + d) := by
  refine ⟨matches_eq fragment path, ?_⟩
  intro hMatch
  rw [matches_eq, matchesNaive] at hMatch
  let tail := (splitSegments fragment).drop
    ((splitSegments fragment).takeWhile fun s => !isWild s).length
  have hSplit : splitSegments fragment =
      (splitGlobRoot fragment).pre ++ tail :=
    (List.take_append_drop _ _).symm
  have hPlain : ∀ p ∈ (splitGlobRoot fragment).pre, isWild p = false := by
    intro p hp
    rw [splitGlobRoot_pre] at hp
    simpa using List.mem_takeWhile_imp hp
  rw [hSplit] at hMatch
  rcases pathMatchNaive_append hPlain hMatch with ⟨rest, hPath, hRest⟩
  refine ⟨⟨rest, hPath.symm⟩, ?_⟩
  intro d hDepth
  have hBounded : ['*', '*'] ∉ tail := by
    intro hMem
    have hNone : (splitGlobRoot fragment).tailDepth = none :=
      if_pos (List.contains_iff_mem.2 hMem)
    rw [hNone] at hDepth
    cases hDepth
  have hTail : (splitGlobRoot fragment).tailDepth = some tail.length :=
    if_neg fun hMem => hBounded (List.contains_iff_mem.1 hMem)
  rw [hTail] at hDepth
  cases hDepth
  rw [hPath, List.length_append, length_of_pathMatchNaive hBounded hRest]

end MSBuild

end Borzoi
