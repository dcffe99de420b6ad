import Borzoi.Lexer.Token
import Mathlib.Data.Finset.Basic

/-
  The graph of project references.

  The walk follows `Full` references through F# projects.  A C# project
  ends it, and the targets of `OutputOnly` references are recorded
  after it.  The resolver answers with the references of a project.
-/

namespace Borzoi

namespace Lsp

namespace ProjectGraph

open Lexer

/- A component of a path behind its root. -/
inductive Segment
  | CurDir
  | ParentDir
  | Normal (name : List Char)
  deriving DecidableEq, Repr

/- A path of a Unix system as its components. -/
structure Path where
  root : Bool
  segments : List Segment
  deriving DecidableEq, Repr

/- One component, with the components kept so far last first. -/
def normalizeStep
    (root : Bool)
    (out : List Segment)
    (component : Segment) :
    List Segment :=
  match component with
  | .CurDir => out
  | .Normal name => .Normal name :: out
  | .ParentDir =>
      match out with
      | .Normal _ :: rest => rest
      | [] => if root then [] else [.ParentDir]
      | out => .ParentDir :: out

/- `lexically_normalize`. -/
def lexicallyNormalize
    (path : Path) :
    Path :=
  ⟨path.root, (path.segments.foldl (normalizeStep path.root) []).reverse⟩

/- `Path::extension` of a file name. -/
def extensionOf
    (name : List Char) :
    Option (List Char) :=
  match name.reverse.dropWhile (· != '.') with
  | [] => none
  | [_] => none
  | _ :: _ => some (name.reverse.takeWhile (· != '.')).reverse

/- `Path::extension`. -/
def Path.extension
    (path : Path) :
    Option (List Char) :=
  match path.segments.getLast? with
  | some (.Normal name) => extensionOf name
  | _ => none

def eqIgnoreAsciiCase
    (a b : List Char) :
    Bool :=
  a.map Char.toLower == b.map Char.toLower

inductive ProjectKind
  | FSharp
  | CSharp
  | Other
  deriving DecidableEq, Repr

def classify
    (path : Path) :
    ProjectKind :=
  match path.extension with
  | some e =>
      if eqIgnoreAsciiCase e "fsproj".toList then
        .FSharp
      else if eqIgnoreAsciiCase e "csproj".toList then
        .CSharp
      else
        .Other
  | none => .Other

inductive EdgeKind
  | Full
  | OutputOnly
  deriving DecidableEq, Repr

structure Edge where
  target : Path
  span : Span
  kind : EdgeKind
  deriving DecidableEq, Repr

inductive NodeTfm
  | Known (tfm : List Char)
  | NoneDeclared
  | Unresolved
  | NotEvaluated
  deriving DecidableEq, Repr

inductive NodeResult
  | Resolved
      (edges : List Edge)
      (tfm : NodeTfm)
      (outputName : Option (List Char))
      (referencesUncertain : Bool)
  | NotFound
  deriving DecidableEq, Repr

structure ProjectNode where
  path : Path
  kind : ProjectKind
  references : List Edge
  tfm : NodeTfm
  outputName : Option (List Char)
  referencesUncertain : Bool
  deriving DecidableEq, Repr

inductive GraphProblem
  | NotFound (referrer target : Path) (span : Span)
  | Cycle (referrer target : Path) (span : Span)
  | UnsupportedKind (referrer target : Path) (span : Span)
  deriving DecidableEq, Repr

structure Graph where
  nodes : List ProjectNode
  problems : List GraphProblem
  deriving DecidableEq, Repr

structure Builder where
  nodes : List ProjectNode
  problems : List GraphProblem
  visited : Finset Path
  onStack : Finset Path
  deferred : List (Path × Edge)

namespace Builder

def empty : Builder where
  nodes := []
  problems := []
  visited := ∅
  onStack := ∅
  deferred := []

def report
    (b : Builder)
    (problem : GraphProblem) :
    Builder :=
  { b with problems := b.problems ++ [problem] }

/- Record a node that was not visited. -/
def record
    (b : Builder)
    (node : ProjectNode) :
    Builder :=
  { b with
    visited := insert node.path b.visited
    nodes := b.nodes ++ [node] }

def enter
    (b : Builder)
    (key : Path) :
    Builder :=
  { b with onStack := insert key b.onStack }

def leave
    (b : Builder)
    (key : Path) :
    Builder :=
  { b with onStack := b.onStack.erase key }

def defer
    (b : Builder)
    (referrer : Path)
    (edge : Edge) :
    Builder :=
  { b with deferred := b.deferred ++ [(referrer, edge)] }

end Builder

def csharpNode
    (key : Path) :
    ProjectNode where
  path := key
  kind := .CSharp
  references := []
  tfm := .NotEvaluated
  outputName := none
  referencesUncertain := false

section Walk

variable (resolve : Path → NodeResult)

def recordCsharpBoundary
    (referrer key : Path)
    (edge : Edge)
    (b : Builder) :
    Builder :=
  match resolve edge.target with
  | .NotFound => b.report (.NotFound referrer key edge.span)
  | .Resolved _ _ _ _ =>
      if key ∈ b.visited then b else b.record (csharpNode key)

/- `follow_edge`, with the walk it calls. -/
def followEdge
    (walk : Path → Option (Path × Span) → Builder → Option Builder)
    (referrer : Path)
    (edge : Edge)
    (b : Builder) :
    Option Builder :=
  let key := lexicallyNormalize edge.target
  match classify edge.target with
  | .Other => some (b.report (.UnsupportedKind referrer key edge.span))
  | .CSharp => some (recordCsharpBoundary resolve referrer key edge b)
  | .FSharp =>
      if key ∈ b.onStack then
        some (b.report (.Cycle referrer key edge.span))
      else if key ∈ b.visited then
        some b
      else
        walk edge.target (some (referrer, edge.span)) b

/- One reference of a project on the recursion path. -/
def walkEdge
    (walk : Path → Option (Path × Span) → Builder → Option Builder)
    (referrer : Path)
    (edge : Edge)
    (b : Builder) :
    Option Builder :=
  match edge.kind with
  | .Full => followEdge resolve walk referrer edge b
  | .OutputOnly => some (b.defer referrer edge)

def walkEdges
    (walk : Path → Option (Path × Span) → Builder → Option Builder)
    (referrer : Path) :
    List Edge → Builder → Option Builder
  | [], b => some b
  | edge :: edges, b =>
      match walkEdge resolve walk referrer edge b with
      | none => none
      | some b' => walkEdges walk referrer edges b'

/-
  `walk_fsharp`.  The recursion of the source has no bound of its own:
  `none` is a walk deeper than the fuel.
-/
def walkFsharp :
    Nat → Path → Option (Path × Span) → Builder → Option Builder
  | 0, _, _, _ => none
  | fuel + 1, path, via, b =>
      match resolve path with
      | .NotFound =>
          match via with
          | some (referrer, span) =>
              some (b.report
                (.NotFound referrer (lexicallyNormalize path) span))
          | none => some b
      | .Resolved references tfm outputName referencesUncertain =>
          let key := lexicallyNormalize path
          let entered := (b.record
            ⟨key, .FSharp, references, tfm, outputName,
              referencesUncertain⟩).enter key
          match walkEdges resolve (walkFsharp fuel) key references
              entered with
          | none => none
          | some b' => some (b'.leave key)

def recordOutputOnly
    (referrer : Path)
    (edge : Edge)
    (b : Builder) :
    Builder :=
  let key := lexicallyNormalize edge.target
  match classify edge.target with
  | .Other => b.report (.UnsupportedKind referrer key edge.span)
  | .CSharp => recordCsharpBoundary resolve referrer key edge b
  | .FSharp =>
      if key ∈ b.visited then
        b
      else
        match resolve edge.target with
        | .NotFound => b.report (.NotFound referrer key edge.span)
        | .Resolved references tfm outputName _ =>
            b.record ⟨key, .FSharp, references, tfm, outputName, false⟩

def buildGraph
    (fuel : Nat)
    (entry : Path) :
    Option Graph :=
  match walkFsharp resolve fuel entry none .empty with
  | none => none
  | some walked =>
      let b := walked.deferred.foldl
        (fun b pending => recordOutputOnly resolve pending.1 pending.2 b)
        { walked with deferred := [] }
      some ⟨b.nodes, b.problems⟩

end Walk

end ProjectGraph

end Lsp

end Borzoi
