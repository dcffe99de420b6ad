import Borzoi.NuGet.Conflicts

/-
  The offline package resolver.

  A walk expands the tree of dependencies from the direct references,
  drops the edges that an ancestor eclipses, and selects for every
  package the greatest lower bound of its surviving edges.  Walks are
  repeated until the selection stands, and the settled walk is checked
  for everything a restore would fail on.
-/

namespace Borzoi

namespace NuGet

open Traversal

structure DirectPackageRequirement where
  id : PackageId
  range : VersionRange
  deriving DecidableEq, Repr

structure ResolvedPackage where
  identity : PackageIdentity
  paths : PackagePaths
  deriving DecidableEq, Repr

inductive ResolveDecline
    (E : Type)
  | UnsupportedProjectFramework (framework : NuGetFramework)
  | FloatingRange (id : PackageId) (range : VersionRange)
  | OpenLowerBound (id : PackageId) (range : VersionRange)
  | ExclusiveLowerBound (id : PackageId) (range : VersionRange)
  | UnsatisfiedLowerBound (id : PackageId) (range : VersionRange)
      (version : NuGetVersion)
  | PackageRead (identity : PackageIdentity) (source : E)
  | VersionConflict (id : PackageId) (selected : NuGetVersion)
      (range : VersionRange)
  | UndecidedConflict (ids : List PackageId)
  | Downgrade (id : PackageId) (selected : NuGetVersion)
      (required : VersionRange)
  | DependencyAssetFilterUnsupported (package : PackageIdentity)
      (dependency : PackageId)
  | DependencyWithoutRange (package : PackageIdentity)
      (dependency : PackageId)
  | DependencyCycle (cycle : List PackageId)
  | UnresolvableLosingEdge (id : PackageId) (range : VersionRange)
      (selected : NuGetVersion)
  | LosingVersionNotALeaf (loser : PackageIdentity)
      (dependency : PackageId)
  | FloatingRangeComparison (id : PackageId) (range : VersionRange)
  | TransitivePotentialDowngrade (id : PackageId) (range : VersionRange)
  | GraphTooLarge

/- How a resolution stops without a closure: it declines, or the code
   panics, or a loop of the model is cut short. -/
inductive Stop
    (E : Type)
  | Decline (why : ResolveDecline E)
  | Fault (fault : Fault)

abbrev Outcome
    (E α : Type) :=
  Except (Stop E) α

/- `expect`. -/
def expect
    {E α : Type}
    (value : Option α) :
    Outcome E α :=
  match value with
  | some a => .ok a
  | none => .error (.Fault .Panic)

def decline
    {E α : Type}
    (why : ResolveDecline E) :
    Outcome E α :=
  .error (.Decline why)

/- `for`, where a body returns early with an error. -/
def forEach
    {E α : Type}
    (body : α → Outcome E Unit) :
    List α → Outcome E Unit
  | [] => .ok ()
  | x :: xs =>
      match body x with
      | .error e => .error e
      | .ok () => forEach body xs

/- `collect` of a fallible map. -/
def mapEach
    {E α β : Type}
    (body : α → Outcome E β) :
    List α → Outcome E (List β)
  | [] => .ok []
  | x :: xs =>
      match body x with
      | .error e => .error e
      | .ok y =>
          match mapEach body xs with
          | .error e => .error e
          | .ok ys => .ok (y :: ys)

/- A dependency of a node. -/
abbrev Edge :=
  PackageId × VersionRange

abbrev Versions :=
  SortedMap PackageId NuGetVersion compare

/- `exact_lower_bound`. -/
def exactLowerBound
    {E : Type}
    (id : PackageId)
    (range : VersionRange) :
    Except (ResolveDecline E) NuGetVersion :=
  if range.isFloating then
    .error (.FloatingRange id range)
  else
    match range.min with
    | none => .error (.OpenLowerBound id range)
    | some version =>
        if !range.minInclusive then
          .error (.ExclusiveLowerBound id range)
        else if !range.satisfies version then
          .error (.UnsatisfiedLowerBound id range version)
        else
          .ok version

/- `exact_lower_bound(..).expect(..)`. -/
def expectLowerBound
    {E : Type}
    (id : PackageId)
    (range : VersionRange) :
    Outcome E NuGetVersion :=
  expect (exactLowerBound (E := E) id range).toOption

/- `is_at_least`. -/
def isAtLeast
    (nearer deeper : VersionRange) :
    Bool :=
  match nearer.min with
  | none => true
  | some nearMin =>
      match deeper.min with
      | none => false
      | some deepMin => nearMin.cmp deepMin != .lt

/- `all_versions_range`, the value of the literal it parses. -/
def allVersionsRange : VersionRange :=
  ⟨none, none, false, false, none⟩

/- A node of the walked tree, without an id for the root. -/
structure Node where
  id : Option PackageId
  parent : Option Nat
  depIndex : Nat
  deriving DecidableEq

inductive ShapeError
  | AssetFilter (dependency : PackageId)
  | NoRange (dependency : PackageId)
  deriving DecidableEq

inductive Verdict
  | Acceptable
  | Eclipsed
  | PotentiallyDowngraded
  | Cycle
  | FloatCompared
  deriving DecidableEq

section Classification

variable {E : Type} (folder : Folder E) (direct : List DirectPackageRequirement)

def directEdges : List Edge :=
  direct.map fun requirement => (requirement.id, requirement.range)

/- The dependencies of an installed package, without its filters. -/
def installedEdges
    (identity : PackageIdentity) :
    List Edge :=
  match folder.get identity with
  | none => []
  | some cached =>
      cached.dependencies.map fun dependency =>
        (dependency.id, dependency.versionRange.getD allVersionsRange)

/- `ancestor_dependencies`. -/
def ancestorDependencies
    (current : Versions)
    (node : Node) :
    List Edge :=
  match node.id with
  | none => directEdges direct
  | some id =>
      match current.get id with
      | none => []
      | some version => installedEdges folder ⟨id, version⟩

/- The first sibling edge on the package, other than the one that was
   taken, and what it says of the candidate. -/
def siblingVerdict
    (id : PackageId)
    (range : VersionRange)
    (taken : Nat) :
    List Edge → Nat → Option Verdict
  | [], _ => none
  | (siblingId, siblingRange) :: rest, index =>
      if index = taken then
        siblingVerdict id range taken rest (index + 1)
      else if siblingId ≠ id then
        siblingVerdict id range taken rest (index + 1)
      else if siblingRange.isFloating || range.isFloating then
        some .FloatCompared
      else if isAtLeast siblingRange range then
        some .Eclipsed
      else
        some .PotentiallyDowngraded

/- The loop of `classify` over the ancestors. -/
def classifyAbove
    (nodes : List Node)
    (id : PackageId)
    (range : VersionRange)
    (current : Versions) :
    Nat → Node → Option Nat → Except Fault Verdict
  | 0, _, _ => .error .OutOfFuel
  | _ + 1, _, none => .ok .Acceptable
  | fuel + 1, child, some index =>
      match nodes[index]? with
      | none => .error .Panic
      | some node =>
          if node.id = some id then
            .ok .Cycle
          else
            match siblingVerdict id range child.depIndex
                (ancestorDependencies folder direct current node) 0 with
            | some verdict => .ok verdict
            | none =>
                classifyAbove nodes id range current fuel node node.parent

/- `classify`. -/
def classify
    (nodes : List Node)
    (parent : Nat)
    (id : PackageId)
    (range : VersionRange)
    (current : Versions) :
    Except Fault Verdict :=
  match nodes[parent]? with
  | none => .error .Panic
  | some node =>
      if node.id = some id then
        .ok .Cycle
      else
        classifyAbove folder direct nodes id range current
          (nodes.length + 1) node node.parent

end Classification

/- The ids from the root down to a node. -/
def pathTo
    (nodes : List Node) :
    Nat → Option Nat → List PackageId → Except Fault (List PackageId)
  | 0, _, _ => .error .OutOfFuel
  | _ + 1, none, path => .ok path
  | fuel + 1, some index, path =>
      match nodes[index]? with
      | none => .error .Panic
      | some node =>
          pathTo nodes fuel node.parent (node.id.toList ++ path)

/- `cycle_path`. -/
def cyclePath
    (nodes : List Node)
    (node : Nat)
    (id : PackageId) :
    Except Fault (List PackageId) :=
  match pathTo nodes (nodes.length + 1) (some node) [] with
  | .error e => .error e
  | .ok path =>
      let start := if id ∈ path then path.idxOf id else 0
      .ok (path.drop start ++ [id])

structure PotentialDowngrade where
  id : PackageId
  range : VersionRange
  parent : Nat

/- A surviving edge whose lower bound lost. -/
structure Loser where
  identity : PackageIdentity
  parent : Nat
  depIndex : Nat

def shapeCmp
    (a b : PackageId × List Char) :
    Ordering :=
  (compare a.1 b.1).then (compare a.2 b.2)

instance : Std.TransCmp shapeCmp :=
  inferInstanceAs (Std.TransCmp (compareLex
    (compareOn (Prod.fst : PackageId × List Char → PackageId))
    (compareOn (Prod.snd : PackageId × List Char → List Char))))

instance : Std.LawfulEqCmp shapeCmp where
  eq_of_compare := by
    rintro ⟨a, b⟩ ⟨c, d⟩ hEq
    rcases Ordering.then_eq_eq.1 hEq with ⟨hFirst, hSecond⟩
    have hA : a = c := Std.LawfulEqCmp.eq_of_compare hFirst
    have hB : b = d := Std.LawfulEqCmp.eq_of_compare hSecond
    rw [hA, hB]

abbrev Shapes :=
  SortedMap (PackageId × List Char) ShapeError shapeCmp

abbrev EdgeMap :=
  SortedMap PackageId (List VersionRange) compare

/- What a walk has found so far. -/
structure Walking where
  nodes : List Node
  stack : List Nat
  current : Versions
  edges : EdgeMap
  downgrades : List PotentialDowngrade
  surviving : List (List Edge)
  cycle : Option (List PackageId)
  floatCompared : Option Edge
  losers : List Loser
  shapes : Shapes

/- What one round of the walk found. -/
structure Walk where
  edges : EdgeMap
  selected : Versions
  downgrades : List PotentialDowngrade
  parents : List (Option Nat)
  surviving : List (List Edge)
  cycle : Option (List PackageId)
  floatCompared : Option Edge
  losers : List Loser
  nodes : List Node
  shapes : Shapes

def MAX_NODES : Nat :=
  20000

def MAX_ROUNDS : Nat :=
  64

/- The dependencies of a package, or the first that has a shape the
   resolver does not model. -/
def modelledDependencies :
    List PackageDependency → Except ShapeError (List Edge)
  | [] => .ok []
  | dependency :: rest =>
      if dependency.includes.isSome || dependency.excludes.isSome then
        .error (.AssetFilter dependency.id)
      else
        match dependency.versionRange with
        | none => .error (.NoRange dependency.id)
        | some range =>
            match modelledDependencies rest with
            | .error e => .error e
            | .ok edges => .ok ((dependency.id, range) :: edges)

section Walk

variable {E : Type} (folder : Folder E) (direct : List DirectPackageRequirement)

/- The key of a package with an unmodelled shape. -/
def shapeKey
    (identity : PackageIdentity) :
    PackageId × List Char :=
  (identity.id, identity.versionFolderName)

/- `node_dependencies`. -/
def nodeDependencies
    (node : Nat)
    (w : Walking) :
    Outcome E (List Edge × Shapes) :=
  match w.nodes[node]? with
  | none => .error (.Fault .Panic)
  | some n =>
      match n.id with
      | none => .ok (directEdges direct, w.shapes)
      | some id =>
          match w.current.get id with
          | none => .error (.Fault .Panic)
          | some version =>
              match folder.get ⟨id, version⟩ with
              | none => .ok ([], w.shapes)
              | some cached =>
                  match modelledDependencies cached.dependencies with
                  | .ok edges => .ok (edges, w.shapes)
                  | .error shape =>
                      .ok ([],
                        w.shapes.insert (shapeKey ⟨id, version⟩) shape)

/- Raise the version of a package to a lower bound. -/
def raise
    (current : Versions)
    (id : PackageId)
    (lowerBound : NuGetVersion) :
    Versions :=
  match current.get id with
  | none => current.insert id lowerBound
  | some existing =>
      if lowerBound.cmp existing = .gt then
        current.insert id lowerBound
      else
        current

/- The lower bound is the version the package has. -/
def isWinner
    (current : Versions)
    (id : PackageId)
    (lowerBound : NuGetVersion) :
    Bool :=
  match current.get id with
  | some version => version.eq lowerBound
  | none => false

/- An edge that survives, before it is known to win. -/
def surviveEdge
    (node : Nat)
    (id : PackageId)
    (range : VersionRange)
    (lowerBound : NuGetVersion)
    (w : Walking) :
    Walking :=
  { w with
    current := raise w.current id lowerBound
    edges := w.edges.insert id ((w.edges.get id).getD [] ++ [range])
    surviving := w.surviving.modify node (· ++ [(id, range)]) }

def loseEdge
    (node depIndex : Nat)
    (id : PackageId)
    (lowerBound : NuGetVersion)
    (w : Walking) :
    Walking :=
  { w with
    losers := w.losers ++ [⟨⟨id, lowerBound⟩, node, depIndex⟩] }

def expandEdge
    (node depIndex : Nat)
    (id : PackageId)
    (w : Walking) :
    Walking :=
  { w with
    nodes := w.nodes ++ [⟨some id, some node, depIndex⟩]
    surviving := w.surviving ++ [[]]
    stack := w.nodes.length :: w.stack }

/- An edge that survives, expanded when it is the winner. -/
def acceptEdge
    (node depIndex : Nat)
    (id : PackageId)
    (range : VersionRange)
    (w : Walking) :
    Outcome E Walking :=
  match exactLowerBound id range with
  | .error why => decline why
  | .ok lowerBound =>
      if w.surviving.length ≤ node then
        .error (.Fault .Panic)
      else
        let w := surviveEdge node id range lowerBound w
        if !isWinner w.current id lowerBound then
          .ok (loseEdge node depIndex id lowerBound w)
        else if MAX_NODES ≤ w.nodes.length then
          decline .GraphTooLarge
        else
          .ok (expandEdge node depIndex id w)

/- One dependency of the node that is expanded. -/
def walkEdge
    (node depIndex : Nat)
    (edge : Edge)
    (w : Walking) :
    Outcome E Walking :=
  let (id, range) := edge
  match classify folder direct w.nodes node id range w.current with
  | .error e => .error (.Fault e)
  | .ok .Eclipsed => .ok w
  | .ok .FloatCompared =>
      .ok { w with
        floatCompared := w.floatCompared.or (some (id, range)) }
  | .ok .Cycle =>
      match w.cycle with
      | some _ => .ok w
      | none =>
          match cyclePath w.nodes node id with
          | .error e => .error (.Fault e)
          | .ok path => .ok { w with cycle := some path }
  | .ok .PotentiallyDowngraded =>
      .ok { w with
        downgrades := w.downgrades ++ [⟨id, range, node⟩] }
  | .ok .Acceptable => acceptEdge node depIndex id range w

/- The dependencies of the node that is expanded, in order. -/
def walkEdges
    (node : Nat) :
    List Edge → Nat → Walking → Outcome E Walking
  | [], _, w => .ok w
  | edge :: rest, depIndex, w =>
      match walkEdge folder direct node depIndex edge w with
      | .error e => .error e
      | .ok w' => walkEdges node rest (depIndex + 1) w'

/- Expand one node. -/
def walkNode
    (node : Nat)
    (w : Walking) :
    Outcome E Walking :=
  match nodeDependencies folder direct node w with
  | .error e => .error e
  | .ok (edges, shapes) =>
      walkEdges folder direct node edges 0 { w with shapes := shapes }

def walkLoop :
    Nat → Walking → Outcome E Walking
  | 0, _ => .error (.Fault .OutOfFuel)
  | fuel + 1, w =>
      match w.stack with
      | [] => .ok w
      | node :: stack =>
          match walkNode folder direct node { w with stack := stack } with
          | .error e => .error e
          | .ok w' => walkLoop fuel w'

/- `Iterator::max`, which keeps the last of equal elements. -/
def maxVersion
    (versions : List NuGetVersion) :
    Option NuGetVersion :=
  versions.foldl
    (fun best version =>
      match best with
      | none => some version
      | some b => if b.cmp version = .gt then some b else some version)
    none

/- The version a package settles on. -/
def greatestLowerBound
    (id : PackageId)
    (ranges : List VersionRange) :
    Outcome E NuGetVersion :=
  match mapEach (fun range => expectLowerBound id range) ranges with
  | .error e => .error e
  | .ok versions => expect (maxVersion versions)

def selectVersions :
    List (PackageId × List VersionRange) → Versions → Outcome E Versions
  | [], selected => .ok selected
  | (id, ranges) :: rest, selected =>
      match greatestLowerBound id ranges with
      | .error e => .error e
      | .ok version => selectVersions rest (selected.insert id version)

def startWalk
    (selected : Versions) :
    Walking :=
  { nodes := [⟨none, none, 0⟩]
    stack := [0]
    current := selected
    edges := SortedMap.empty
    downgrades := []
    surviving := [[]]
    cycle := none
    floatCompared := none
    losers := []
    shapes := SortedMap.empty }

def endWalk
    (w : Walking)
    (selected : Versions) :
    Walk :=
  { edges := w.edges
    selected := selected
    downgrades := w.downgrades
    parents := w.nodes.map Node.parent
    surviving := w.surviving
    cycle := w.cycle
    floatCompared := w.floatCompared
    losers := w.losers
    nodes := w.nodes
    shapes := w.shapes }

/- `walk`. -/
def walk
    (selected : Versions) :
    Outcome E Walk :=
  match walkLoop folder direct (MAX_NODES + 1) (startWalk selected) with
  | .error e => .error e
  | .ok w =>
      match selectVersions w.edges.entries SortedMap.empty with
      | .error e => .error e
      | .ok selected => .ok (endWalk w selected)

end Walk

------------------------------------------------------------
-- The Settled Walk
------------------------------------------------------------

section Finish

variable {E : Type} (folder : Folder E) (direct : List DirectPackageRequirement)

/- A package that did not read. -/
def unread
    {α : Type}
    (identity : PackageIdentity) :
    Outcome E α :=
  match folder.takeError identity with
  | some source => decline (.PackageRead identity source)
  | none => .error (.Fault .Panic)

/- The version a demanded package is selected at. -/
def demanded
    (walk : Walk)
    (id : PackageId) :
    Outcome E NuGetVersion :=
  expect (walk.selected.get id)

def resolvePackage
    (walk : Walk)
    (id : PackageId) :
    Outcome E ResolvedPackage :=
  match demanded walk id with
  | .error e => .error e
  | .ok version =>
      match folder.get ⟨id, version⟩ with
      | none => unread folder ⟨id, version⟩
      | some cached => .ok ⟨⟨id, version⟩, cached.paths⟩

def checkShape
    (walk : Walk)
    (id : PackageId) :
    Outcome E Unit :=
  match demanded walk id with
  | .error e => .error e
  | .ok version =>
      match walk.shapes.get (shapeKey ⟨id, version⟩) with
      | some (.AssetFilter dependency) =>
          decline (.DependencyAssetFilterUnsupported ⟨id, version⟩
            dependency)
      | some (.NoRange dependency) =>
          decline (.DependencyWithoutRange ⟨id, version⟩ dependency)
      | none => .ok ()

/- A losing edge, whose lower bound must be on disk. -/
def checkLosingEdge
    (id : PackageId)
    (selected : NuGetVersion)
    (range : VersionRange) :
    Outcome E Unit :=
  match expectLowerBound id range with
  | .error e => .error e
  | .ok lowerBound =>
      if lowerBound.eq selected then
        .ok ()
      else
        match folder.isCommitted ⟨id, lowerBound⟩ with
        | .error source =>
            decline (.PackageRead ⟨id, lowerBound⟩ source)
        | .ok true => .ok ()
        | .ok false =>
            decline (.UnresolvableLosingEdge id range selected)

/- Run a check on every range of a package, with its version. -/
def checkRanges
    (walk : Walk)
    (check : PackageId → NuGetVersion → VersionRange → Outcome E Unit)
    (entry : PackageId × List VersionRange) :
    Outcome E Unit :=
  match demanded walk entry.1 with
  | .error e => .error e
  | .ok selected => forEach (check entry.1 selected) entry.2

/- A dependency of a loser, which must not become a node. -/
def checkLoserDependency
    (walk : Walk)
    (nodes : List Node)
    (loser : Loser)
    (dependency : PackageDependency) :
    Outcome E Unit :=
  let notALeaf :=
    decline (.LosingVersionNotALeaf loser.identity dependency.id)
  if dependency.includes.isSome || dependency.excludes.isSome then
    notALeaf
  else
    match dependency.versionRange with
    | none => notALeaf
    | some range =>
        match classify folder direct nodes (nodes.length - 1)
            dependency.id range walk.selected with
        | .error e => .error (.Fault e)
        | .ok .Eclipsed => .ok ()
        | .ok .PotentiallyDowngraded => .ok ()
        | .ok _ => notALeaf

def checkLoser
    (walk : Walk)
    (loser : Loser) :
    Outcome E Unit :=
  match folder.get loser.identity with
  | none => unread folder loser.identity
  | some cached =>
      let nodes := walk.nodes ++
        [⟨some loser.identity.id, some loser.parent, loser.depIndex⟩]
      forEach (checkLoserDependency folder direct walk nodes loser)
        cached.dependencies

/- `engines_agree`. -/
def enginesAgree
    (walk : Walk) :
    Outcome E Unit :=
  match walk.floatCompared with
  | some (id, range) => decline (.FloatingRangeComparison id range)
  | none =>
      let isDirect (id : PackageId) :=
        direct.any fun requirement => requirement.id == id
      match walk.downgrades.find? fun d => !isDirect d.id with
      | some d => decline (.TransitivePotentialDowngrade d.id d.range)
      | none => forEach (checkLoser folder direct walk) walk.losers

/- `nodes[parent].children.push(index)`. -/
def pushChild
    (nodes : List ConflictNode)
    (parent index : Nat) :
    Outcome E (List ConflictNode) :=
  if nodes.length ≤ parent then
    .error (.Fault .Panic)
  else
    .ok (nodes.modify parent fun node =>
      { node with children := node.children ++ [index] })

def conflictNode
    (walk : Walk)
    (node : Node) :
    Outcome E ConflictNode :=
  match node.id with
  | none => .ok ⟨none, none, []⟩
  | some id =>
      match demanded walk id with
      | .error e => .error e
      | .ok version => .ok ⟨some id, some version, []⟩

def linkNodes :
    List Node → Nat → List ConflictNode → Outcome E (List ConflictNode)
  | [], _, nodes => .ok nodes
  | node :: rest, index, nodes =>
      match node.parent with
      | none => linkNodes rest (index + 1) nodes
      | some parent =>
          match pushChild nodes parent index with
          | .error e => .error e
          | .ok nodes' => linkNodes rest (index + 1) nodes'

def linkLosers :
    List Loser → List ConflictNode → Outcome E (List ConflictNode)
  | [], nodes => .ok nodes
  | loser :: rest, nodes =>
      let leaf : ConflictNode :=
        ⟨some loser.identity.id, some loser.identity.version, []⟩
      match pushChild (nodes ++ [leaf]) loser.parent nodes.length with
      | .error e => .error e
      | .ok nodes' => linkLosers rest nodes'

/- The tree of the conflict pass: the walked nodes, and every loser as a
   leaf. -/
def conflictNodes
    (walk : Walk) :
    Outcome E (List ConflictNode) :=
  match mapEach (conflictNode walk) walk.nodes with
  | .error e => .error e
  | .ok nodes =>
      match linkNodes walk.nodes 0 nodes with
      | .error e => .error e
      | .ok nodes => linkLosers walk.losers nodes

def CONFLICT_PASS_ROUNDS : Nat :=
  999

/- The names of the undecided nodes, in order. -/
def undecidedIds
    (nodes : List ConflictNode)
    (dispositions : List Disposition) :
    List PackageId :=
  let ids := (nodes.zip dispositions).filterMap fun pair =>
    if pair.2 = .Acceptable then pair.1.id else none
  let set : SortedMap PackageId Unit compare :=
    ids.foldl (fun set id => set.insert id ()) SortedMap.empty
  set.entries.map Prod.fst

/- The assertion that closes `settle_conflicts`. -/
def assertSettled
    (walked : Nat)
    (dispositions : List Disposition) :
    Outcome E Unit :=
  if dispositions.zipIdx.all fun (disposition, index) =>
      disposition ==
        if index < walked then .Accepted else .Rejected then
    .ok ()
  else
    .error (.Fault .Panic)

/- `settle_conflicts`. -/
def settleConflicts
    (walk : Walk) :
    Outcome E Unit :=
  match conflictNodes walk with
  | .error e => .error e
  | .ok nodes =>
      match settleRounds nodes CONFLICT_PASS_ROUNDS
          (List.replicate nodes.length .Acceptable) with
      | .error e => .error (.Fault e)
      | .ok dispositions =>
          let undecided := undecidedIds nodes dispositions
          if undecided ≠ [] then
            decline (.UndecidedConflict undecided)
          else
            assertSettled walk.nodes.length dispositions

def checkSatisfied
    (id : PackageId)
    (version : NuGetVersion)
    (range : VersionRange) :
    Outcome E Unit :=
  if !range.satisfies version then
    decline (.VersionConflict id version range)
  else
    .ok ()

/- The surviving edges of one ancestor, each overriding the last. -/
def heldBy
    (downgrade : PotentialDowngrade) :
    List Edge → Option NuGetVersion → Outcome E (Option NuGetVersion)
  | [], heldTo => .ok heldTo
  | (id, range) :: rest, heldTo =>
      if id ≠ downgrade.id then
        heldBy downgrade rest heldTo
      else if isAtLeast range downgrade.range then
        heldBy downgrade rest none
      else
        match expectLowerBound id range with
        | .error e => .error e
        | .ok resolved =>
            if !downgrade.range.satisfies resolved then
              heldBy downgrade rest (some resolved)
            else
              heldBy downgrade rest heldTo

def heldAbove
    (walk : Walk)
    (downgrade : PotentialDowngrade) :
    Nat → Option Nat → Option NuGetVersion →
      Outcome E (Option NuGetVersion)
  | 0, _, _ => .error (.Fault .OutOfFuel)
  | _ + 1, none, heldTo => .ok heldTo
  | fuel + 1, some index, heldTo =>
      match walk.surviving[index]?, walk.parents[index]? with
      | some edges, some parent =>
          match heldBy downgrade edges heldTo with
          | .error e => .error e
          | .ok heldTo => heldAbove walk downgrade fuel parent heldTo
      | _, _ => .error (.Fault .Panic)

/- `downgrade_is_relevant`. -/
def downgradeIsRelevant
    (walk : Walk)
    (downgrade : PotentialDowngrade)
    (selected : NuGetVersion) :
    Outcome E Bool :=
  if downgrade.range.isFloating then
    .error (.Fault .Panic)
  else
    match heldAbove walk downgrade (walk.nodes.length + 1)
        (some downgrade.parent) none with
    | .error e => .error e
    | .ok none => .ok false
    | .ok (some version) => .ok (version.eq selected)

def checkDowngrade
    (walk : Walk)
    (downgrade : PotentialDowngrade) :
    Outcome E Unit :=
  match walk.selected.get downgrade.id with
  | none => .ok ()
  | some selected =>
      match downgradeIsRelevant walk downgrade selected with
      | .error e => .error e
      | .ok true =>
          decline (.Downgrade downgrade.id selected downgrade.range)
      | .ok false => .ok ()

/- `finish`. -/
def finish
    (walk : Walk) :
    Outcome E (List ResolvedPackage) := do
  let ids := walk.edges.entries.map Prod.fst
  let packages ← mapEach (resolvePackage folder walk) ids
  forEach (checkShape walk) ids
  forEach (checkRanges walk (checkLosingEdge folder)) walk.edges.entries
  enginesAgree folder direct walk
  match walk.cycle with
  | some cycle => decline (.DependencyCycle cycle)
  | none =>
      settleConflicts walk
      forEach (checkRanges walk checkSatisfied) walk.edges.entries
      forEach (checkDowngrade walk) walk.downgrades
      return packages

/- The rounds of `resolve_offline`. -/
def resolveRounds :
    Nat → Versions → Outcome E (List ResolvedPackage)
  | 0, _ => decline .GraphTooLarge
  | rounds + 1, selected =>
      match walk folder direct selected with
      | .error e => .error e
      | .ok w =>
          if w.selected.eqBy NuGetVersion.eq selected then
            finish folder direct w
          else
            resolveRounds rounds w.selected

/- `resolve_offline`. -/
def resolveOffline
    (targetFramework : NuGetFramework) :
    Outcome E (List ResolvedPackage) :=
  if !targetFramework.isResolverProjectFramework then
    decline (.UnsupportedProjectFramework targetFramework)
  else
    resolveRounds folder direct MAX_ROUNDS SortedMap.empty

end Finish

end NuGet

end Borzoi
