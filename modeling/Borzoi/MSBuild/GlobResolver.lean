import Borzoi.MSBuild.Glob
import Borzoi.NuGet.Framework
import Borzoi.Text.Utf8
import Mathlib.Order.Lattice.Nat
import Mathlib.Data.List.Lex

/-
  Expansion of item includes over a directory tree.

  The system is given by the trees that its directories hold.  They hold
  no links, so no directory closes a cycle.
-/

namespace Borzoi

namespace MSBuild

open Text
open NuGet (trim toAsciiLowercase)

/- `GlobDecline`. -/
inductive GlobDecline
  | OrderTie (first second : List Char)
  | NonAsciiOrder (path : List Char)
  | CaseAmbiguous (path : List Char)
  | DepthLimit (dir : List Char)
  deriving DecidableEq, Repr

/- `join("/")`. -/
def joined
    (segs : List (List Char)) :
    List Char :=
  ['/'].intercalate segs

namespace Pattern

/- `with_literal_prefix`. -/
def withLiteralPrefix
    (literal : List (List Char))
    (fragment : List Char) :
    Pattern :=
  { segs := (literal.flatMap splitSegments).map
        (fun s => Seg.Match (s.map Tok.Lit)) ++
      (parse fragment).segs }

def isGlob
    (p : Pattern) :
    Bool :=
  p.segs.any fun
    | .DoubleStar => true
    | .Match toks => toks.any fun t => t == .Star || t == .Question

/- The pattern with its literal characters folded. -/
def folded
    (p : Pattern) :
    Pattern :=
  { segs := p.segs.map fun
      | .DoubleStar => .DoubleStar
      | .Match toks => .Match (toks.map fun
          | .Lit c => .Lit c.toLower
          | other => other) }

/- `matches_ignoring_ascii_case`. -/
def matchesIgnoringAsciiCase
    (p : Pattern)
    (candidate : List Char) :
    Bool :=
  p.folded.matches (toAsciiLowercase candidate)

end Pattern

/- `selected_both_ways`. -/
def selectedBothWays
    (included : Pattern)
    (excludes : List Pattern)
    (candidate : List Char) :
    Bool × Bool :=
  (included.matches candidate && !excludes.any (·.matches candidate),
    included.matchesIgnoringAsciiCase candidate &&
      !excludes.any (·.matchesIgnoringAsciiCase candidate))

/- `survives_excludes`. -/
def survivesExcludes
    (excludes : List Pattern)
    (candidate : List Char) :
    Except GlobDecline Bool :=
  let exact := !excludes.any (·.matches candidate)
  let folded := !excludes.any (·.matchesIgnoringAsciiCase candidate)
  if exact ≠ folded then .error (.CaseAmbiguous candidate) else .ok exact

/- `common_prefix_len`. -/
def commonPrefixLen :
    List (List UInt8) → Nat
  | [] => 0
  | first :: rest =>
      rest.foldl
        (fun len s =>
          (((first.take len).zip s).takeWhile fun p => p.1 == p.2).length)
        first.length

/- `to_ascii_uppercase` of a byte. -/
def upperByte
    (b : UInt8) :
    UInt8 :=
  if 0x61 ≤ b ∧ b ≤ 0x7A then b - 0x20 else b

/- What `ordinal_ignore_case` compares. -/
def ordinalKey
    (s : List Char) :
    List Nat :=
  (utf8 s).map fun b => (upperByte b).toNat

/- `sort_like_msbuild`. -/
def sortLikeMsbuild
    (matched : List (List Char)) :
    Except GlobDecline (List (List Char)) :=
  if matched.length < 2 then
    .ok matched
  else
    let shared := commonPrefixLen (matched.map utf8)
    match matched.find? fun m => !((utf8 m).drop shared).all (· < 0x80) with
    | some path => .error (.NonAsciiOrder path)
    | none =>
        let sorted := matched.mergeSort fun a b =>
          decide (ordinalKey a ≤ ordinalKey b)
        match (sorted.zip sorted.tail).find? fun p =>
            p.1 != p.2 && ordinalKey p.1 == ordinalKey p.2 with
        | some pair => .error (.OrderTie pair.1 pair.2)
        | none => .ok sorted

/- The candidates that one fragment selects. -/
def gather
    (included : Pattern)
    (excludes : List Pattern) :
    List (List Char) → Except GlobDecline (List (List Char))
  | [] => .ok []
  | candidate :: rest =>
      let (exact, folded) := selectedBothWays included excludes candidate
      if exact ≠ folded then
        .error (.CaseAmbiguous candidate)
      else
        (gather included excludes rest).map fun matched =>
          if exact then
            joined (splitSegments candidate) :: matched
          else
            matched

/- `select`. -/
def select
    (candidates : List (List Char))
    (includes excludes : List Pattern) :
    Except GlobDecline (List (List Char)) :=
  (includes.mapM fun included =>
    (gather included excludes candidates).bind sortLikeMsbuild).map
      List.flatten

inductive Entry
  | File (name : List Char)
  | Dir (name : List Char) (entries : List Entry)

/- `read_dir`: the tree that a path of segments leads to, if it leads to
   a directory. -/
abbrev ReadDir :=
  List (List Char) → Option (List Entry)

/- A path below another, which may be empty. -/
def attach
    (pre rel : List Char) :
    List Char :=
  if pre = [] then rel else pre ++ '/' :: rel

/- `walk` visits no directory at the depth bound. -/
def withinDepth
    (maxDepth : Nat)
    (recursive : Bool)
    (dir : List (List Char))
    (depth : Nat)
    (visited : Except GlobDecline (List (List Char))) :
    Except GlobDecline (List (List Char)) :=
  if maxDepth ≤ depth then
    if recursive then
      .error (.DepthLimit ('/' :: joined dir))
    else
      .ok []
  else
    visited

/- The entries of a directory that `walk` visits. -/
def walk
    (maxDepth : Nat)
    (recursive : Bool)
    (dir : List (List Char))
    (pre : List Char)
    (depth : Nat) :
    List Entry → Except GlobDecline (List (List Char))
  | [] => .ok []
  | .File name :: rest =>
      (walk maxDepth recursive dir pre depth rest).map (attach pre name :: ·)
  | .Dir name entries :: rest =>
      (withinDepth maxDepth recursive (dir ++ [name]) (depth + 1)
        (walk maxDepth recursive (dir ++ [name]) (attach pre name) (depth + 1)
          entries)).bind fun below =>
        (walk maxDepth recursive dir pre depth rest).map (below ++ ·)

/- `enumerate_files`. -/
def enumerateFiles
    (readDir : ReadDir)
    (base : List (List Char))
    (maxDepth : Nat)
    (recursive : Bool) :
    Except GlobDecline (List (List Char)) :=
  withinDepth maxDepth recursive base 0 <|
    match readDir base with
    | none => .ok []
    | some entries => walk maxDepth recursive base [] 0 entries

/- `GlobRequest`. -/
structure GlobRequest where
  baseDir : List Char
  included : List Char
  excludes : List (List Char)

/- `replace('\\', "/")`. -/
def withSlashes
    (s : List Char) :
    List Char :=
  s.map fun c => if c = '\\' then '/' else c

/- `Path::join`. -/
def pathJoin
    (base path : List Char) :
    List Char :=
  if path.head? = some '/' then
    path
  else if base = [] ∨ base.getLast? = some '/' then
    base ++ path
  else
    base ++ '/' :: path

namespace GlobRequest

def MAX_GLOB_DEPTH :
    Nat :=
  64

def baseSegs
    (req : GlobRequest) :
    List (List Char) :=
  splitSegments (withSlashes req.baseDir)

/- The pattern of a fragment, below the base directory if it is relative. -/
def anchored
    (req : GlobRequest)
    (fragment : List Char) :
    Pattern :=
  let norm := withSlashes fragment
  if norm.head? = some '/' then
    .parse norm
  else
    .withLiteralPrefix req.baseSegs norm

/- The literal segments in front of the wildcards of a fragment. -/
def anchorSegs
    (req : GlobRequest)
    (fragment : List Char) :
    List (List Char) :=
  let norm := withSlashes fragment
  if norm.head? = some '/' then
    (splitGlobRoot norm).pre
  else
    req.baseSegs ++ (splitGlobRoot norm).pre

def patterns
    (req : GlobRequest) :
    List Pattern :=
  req.excludes.map req.anchored

def fragments
    (req : GlobRequest) :
    List (List Char) :=
  ((req.included.splitOn ';').map trim).filter fun s => !s.isEmpty

/- What one fragment of the include stands for. -/
def expand
    (req : GlobRequest)
    (readDir : ReadDir)
    (fragment : List Char) :
    Except GlobDecline (List (List Char)) :=
  let norm := withSlashes fragment
  let anchor := req.anchorSegs fragment
  if (req.anchored fragment).isGlob then
    let tail := (splitGlobRoot norm).tailDepth
    (enumerateFiles readDir anchor (tail.getD MAX_GLOB_DEPTH) tail.isNone).bind
      fun files =>
        (select (files.map (attach (joined anchor)))
          [req.anchored fragment] req.patterns).map
            fun keys => keys.map ('/' :: ·)
  else
    (survivesExcludes req.patterns (joined anchor)).map fun survives =>
      if survives then [pathJoin req.baseDir norm] else []

end GlobRequest

/- `resolve`. -/
def resolve
    (readDir : ReadDir)
    (req : GlobRequest) :
    Except GlobDecline (List (List Char)) :=
  (req.fragments.mapM (req.expand readDir)).map List.flatten

end MSBuild

end Borzoi
