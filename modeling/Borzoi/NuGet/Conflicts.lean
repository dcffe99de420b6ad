import Borzoi.NuGet.Package
import Borzoi.Program.Traversal

/-
  The conflict pass of the legacy restore engine.

  Every round rejects the subtrees of rejected nodes and tracks the
  versions of the others by name, marks the names that have a node below
  a disputed one, and decides the nodes whose name is not marked.
-/

namespace Borzoi

namespace NuGet

open Traversal

inductive Disposition
  | Acceptable
  | Accepted
  | Rejected
  deriving DecidableEq, Repr

inductive AmbiguityWalk
  | Walking
  | Rejected
  | Ambiguous
  deriving DecidableEq, Repr

/- A node of the tree, without an id for the root. -/
structure ConflictNode where
  id : Option PackageId
  version : Option NuGetVersion
  children : List Nat

/- The versions of every name. -/
abbrev Tracked :=
  SortedMap (Option PackageId) (List (Option NuGetVersion)) compare

/- `==` of optional versions. -/
def versionEq
    (a b : Option NuGetVersion) :
    Bool :=
  match a, b with
  | none, none => true
  | some v, some w => v.eq w
  | _, _ => false

/- `>=` of optional versions. -/
def versionGe
    (a b : Option NuGetVersion) :
    Bool :=
  match a, b with
  | none, some _ => false
  | some v, some w => v.cmp w != .lt
  | _, none => true

/- Add a version to those of its name. -/
def track
    (tracked : Tracked)
    (node : ConflictNode) :
    Tracked :=
  let versions := (tracked.get node.id).getD []
  if versions.any (versionEq node.version) then
    tracked.insert node.id versions
  else
    tracked.insert node.id (versions ++ [node.version])

/- `WalkTreeRejectNodesOfRejectedNodes` at a node. -/
def rejectVisit
    (nodes : List ConflictNode)
    (index : Nat)
    (live : Bool)
    (state : List Disposition × Tracked) :
    Except Fault ((List Disposition × Tracked) × List (Nat × Bool)) :=
  let (dispositions, tracked) := state
  match nodes[index]?, dispositions[index]? with
  | some node, some disposition =>
      if live && disposition != .Rejected then
        .ok ((dispositions, track tracked node),
          node.children.map fun child => (child, true))
      else
        .ok ((dispositions.set index .Rejected, tracked),
          node.children.map fun child => (child, false))
  | _, _ => .error .Panic

def disputed
    (tracked : Tracked)
    (id : Option PackageId) :
    Bool :=
  match tracked.get id with
  | some versions => 1 < versions.length
  | none => false

/- `WalkTreeMarkAmbiguousNodes` at a node. -/
def ambiguousVisit
    (nodes : List ConflictNode)
    (dispositions : List Disposition)
    (tracked : Tracked)
    (index : Nat)
    (state : AmbiguityWalk)
    (ambiguous : List (Option PackageId)) :
    Except Fault
      (List (Option PackageId) × List (Nat × AmbiguityWalk)) :=
  match nodes[index]?, dispositions[index]? with
  | some node, some disposition =>
      let push (next : AmbiguityWalk) :=
        node.children.map fun child => (child, next)
      if disposition = .Rejected then
        .ok (ambiguous, push .Rejected)
      else if state = .Walking ∧ disputed tracked node.id then
        .ok (ambiguous, push .Ambiguous)
      else if state = .Ambiguous then
        .ok (node.id :: ambiguous, push state)
      else
        .ok (ambiguous, push state)
  | _, _ => .error .Panic

/- What an undecided node is decided to be. -/
def decideNode
    (versions : List (Option NuGetVersion))
    (version : Option NuGetVersion) :
    Disposition :=
  if versions.all (versionGe version) then .Accepted else .Rejected

/- `WalkTreeAcceptOrRejectNodes` at a node. -/
def decideVisit
    (nodes : List ConflictNode)
    (tracked : Tracked)
    (ambiguous : List (Option PackageId))
    (index : Nat)
    (_ : Unit)
    (dispositions : List Disposition) :
    Except Fault (List Disposition × List (Nat × Unit)) :=
  match nodes[index]?, dispositions[index]? with
  | some node, some disposition =>
      let children := node.children.map fun child => (child, ())
      if disposition = .Rejected ∨ node.id ∈ ambiguous then
        .ok (dispositions, [])
      else if disposition = .Acceptable then
        match tracked.get node.id with
        | none => .error .Panic
        | some versions =>
            let decided := decideNode versions node.version
            .ok (dispositions.set index decided,
              if decided = .Accepted then children else [])
      else
        .ok (dispositions, children)
  | _, _ => .error .Panic

/- `conflict_round`. -/
def conflictRound
    (nodes : List ConflictNode)
    (dispositions : List Disposition) :
    Except Fault (List Disposition) := do
  let fuel := nodes.length + 1
  let (dispositions, tracked) ←
    traverse (rejectVisit nodes) fuel [(0, true)]
      (dispositions, SortedMap.empty)
  let ambiguous ←
    traverse (ambiguousVisit nodes dispositions tracked) fuel
      [(0, .Walking)] []
  traverse (decideVisit nodes tracked ambiguous) fuel [(0, ())]
    dispositions

/- The rounds, until nothing is undecided or nothing changes. -/
def settleRounds
    (nodes : List ConflictNode) :
    Nat → List Disposition → Except Fault (List Disposition)
  | 0, dispositions => .ok dispositions
  | rounds + 1, dispositions =>
      if .Acceptable ∉ dispositions then
        .ok dispositions
      else
        match conflictRound nodes dispositions with
        | .error e => .error e
        | .ok next =>
            if next = dispositions then
              .ok next
            else
              settleRounds nodes rounds next

end NuGet

end Borzoi
