import Borzoi.Lsp.ProjectGraph
import Borzoi.Program.Finishing
import Mathlib.Data.Finset.Card
import Mathlib.Data.List.Perm.Subperm
import Mathlib.Data.Set.Finite.Basic

/-
  The graph has the projects it should, and every problem once.

  A project is walked when `Full` references lead to it through F#
  projects.  The list of the projects in the order they are finished
  shows that a search without a cycle problem found no cycle.

  Main declarations:
    * `Walked`
    * `problemOf`
    * `Exact`
    * `Walks`
    * `build_graph_exact`
-/

namespace Borzoi

namespace Lsp

namespace ProjectGraph

open Lexer
open Program
open Relation

/- Components kept by the normalisation, last first. -/
inductive Normalized
    (root : Bool) :
    List Segment → Prop
  | nil : Normalized root []
  | normal
      {out : List Segment}
      (name : List Char)
      (hOut : Normalized root out) :
      Normalized root (.Normal name :: out)
  | climb
      (hRoot : root = false)
      (hOut : Normalized root []) :
      Normalized root [.ParentDir]
  | climbMore
      {out : List Segment}
      (hOut : Normalized root (.ParentDir :: out)) :
      Normalized root (.ParentDir :: .ParentDir :: out)

theorem Normalized.step
    {root : Bool}
    {out : List Segment}
    (hOut : Normalized root out)
    (component : Segment) :
    Normalized root (normalizeStep root out component) := by
  cases component with
  | CurDir => exact hOut
  | Normal name => exact hOut.normal name
  | ParentDir =>
      cases hOut with
      | nil =>
          unfold normalizeStep
          cases root with
          | true => exact .nil
          | false => exact .climb rfl .nil
      | normal name hRest => exact hRest
      | climb hRoot hNil => exact .climbMore (.climb hRoot hNil)
      | climbMore hRest => exact .climbMore (.climbMore hRest)

variable {root : Bool} {out : List Segment} {path : Path}

theorem Normalized.foldl
    (hOut : Normalized root out)
    (segments : List Segment) :
    Normalized root (segments.foldl (normalizeStep root) out) := by
  induction segments generalizing out with
  | nil => exact hOut
  | cons component segments ih => exact ih (hOut.step component)

/- What is kept is kept again. -/
theorem Normalized.again
    (hOut : Normalized root out) :
    out.reverse.foldl (normalizeStep root) [] = out := by
  induction hOut with
  | nil => rfl
  | normal name _ ih =>
      rw [List.reverse_cons, List.foldl_append, ih]
      rfl
  | climb hRoot _ _ =>
      rw [hRoot]
      rfl
  | climbMore _ ih =>
      rw [List.reverse_cons, List.foldl_append, ih]
      rfl

theorem lexicallyNormalize_idem
    (path : Path) :
    lexicallyNormalize (lexicallyNormalize path) =
      lexicallyNormalize path := by
  have hNil : Normalized path.root [] := .nil
  have hOut := hNil.foldl path.segments
  unfold lexicallyNormalize
  dsimp only
  rw [hOut.again]

/- A named file keeps its name. -/
theorem getLast_lexicallyNormalize
    {name : List Char}
    (hLast : path.segments.getLast? = some (.Normal name)) :
    (lexicallyNormalize path).segments.getLast? = some (.Normal name) := by
  rcases List.getLast?_eq_some_iff.1 hLast with ⟨front, hSegments⟩
  unfold lexicallyNormalize
  rw [hSegments, List.foldl_append]
  change (Segment.Normal name :: _).reverse.getLast? = _
  rw [List.reverse_cons, List.getLast?_concat]

/- The kind of a supported project is that of its normalised path. -/
theorem classify_lexicallyNormalize
    (hKind : classify path ≠ .Other) :
    classify (lexicallyNormalize path) = classify path := by
  have hName : ∃ name, path.segments.getLast? = some (.Normal name) := by
    by_contra hNone
    apply hKind
    unfold classify Path.extension
    split
    · next e hExt =>
        split at hExt
        · next name hLast => exact absurd ⟨name, hLast⟩ hNone
        · cases hExt
    · rfl
  rcases hName with ⟨name, hLast⟩
  unfold classify Path.extension
  rw [getLast_lexicallyNormalize hLast, hLast]

section Exactness

variable (resolve : Path → NodeResult) (entry : Path)

/- The references of a project. -/
def edgesOf
    (key : Path) :
    List Edge :=
  match resolve key with
  | .Resolved edges _ _ _ => edges
  | .NotFound => []

/- A `Full` reference to an F# project that exists. -/
def FullStep
    (key target : Path) :
    Prop :=
  ∃ e ∈ edgesOf resolve key, e.kind = .Full ∧ classify e.target = .FSharp ∧
    resolve e.target ≠ .NotFound ∧ lexicallyNormalize e.target = target

/- A project that `Full` references lead to from the entry. -/
def Walked
    (key : Path) :
    Prop :=
  resolve entry ≠ .NotFound ∧
    ReflTransGen (FullStep resolve) (lexicallyNormalize entry) key

/- A C# project that a walked one references. -/
def CSharpTarget
    (key : Path) :
    Prop :=
  ∃ referrer, Walked resolve entry referrer ∧
    ∃ e ∈ edgesOf resolve referrer, classify e.target = .CSharp ∧
      resolve e.target ≠ .NotFound ∧ lexicallyNormalize e.target = key

/- A project whose output a walked one references. -/
def OutputTarget
    (key : Path) :
    Prop :=
  ∃ referrer, Walked resolve entry referrer ∧
    ∃ e ∈ edgesOf resolve referrer, e.kind = .OutputOnly ∧
      classify e.target ≠ .Other ∧ resolve e.target ≠ .NotFound ∧
      lexicallyNormalize e.target = key

/- The problem of a reference, other than a cycle. -/
def problemOf
    (referrer : Path)
    (e : Edge) :
    Option GraphProblem :=
  match classify e.target with
  | .Other =>
      some (.UnsupportedKind referrer (lexicallyNormalize e.target) e.span)
  | .CSharp | .FSharp =>
      match resolve e.target with
      | .NotFound =>
          some (.NotFound referrer (lexicallyNormalize e.target) e.span)
      | .Resolved _ _ _ _ => none

def GraphProblem.isCycle
    (problem : GraphProblem) :
    Bool :=
  match problem with
  | .Cycle _ _ _ => true
  | .NotFound _ _ _ | .UnsupportedKind _ _ _ => false

/- The problems other than cycles. -/
def plain
    (problems : List GraphProblem) :
    List GraphProblem :=
  problems.filter fun problem => !problem.isCycle

def HasCycle
    (problems : List GraphProblem) :
    Prop :=
  ∃ problem ∈ problems, problem.isCycle = true

/- The graph has the right projects and problems. -/
structure Exact
    (graph : Graph) :
    Prop where
  once : (graph.nodes.map ProjectNode.path).Nodup
  nodes : ∀ key, key ∈ graph.nodes.map ProjectNode.path ↔
    Walked resolve entry key ∨ CSharpTarget resolve entry key ∨
      OutputTarget resolve entry key
  problems : ∃ walked : List Path, walked.Nodup ∧
    (∀ key, key ∈ walked ↔ Walked resolve entry key) ∧
    List.Perm (plain graph.problems)
      (walked.flatMap fun key =>
        (edgesOf resolve key).filterMap (problemOf resolve key))
  cycles : HasCycle graph.problems ↔
    ∃ key, Walked resolve entry key ∧ TransGen (FullStep resolve) key key

end Exactness

section Walking

variable {resolve : Path → NodeResult} {entry : Path} {b b₁ b₂ : Builder}

/- The references of a project with their referrer. -/
def ownEdges
    (resolve : Path → NodeResult)
    (key : Path) :
    List (Path × Edge) :=
  (edgesOf resolve key).map fun e => (key, e)

/- The problem of a reference the walk follows at once. -/
def fullProblem
    (resolve : Path → NodeResult)
    (pending : Path × Edge) :
    Option GraphProblem :=
  if pending.2.kind = .Full then
    problemOf resolve pending.1 pending.2
  else
    none

/- The C# project of a reference the walk follows at once. -/
def boundaryOf
    (resolve : Path → NodeResult)
    (pending : Path × Edge) :
    Option Path :=
  if pending.2.kind = .Full ∧ classify pending.2.target = .CSharp ∧
      resolve pending.2.target ≠ .NotFound then
    some (lexicallyNormalize pending.2.target)
  else
    none

def isDeferred
    (pending : Path × Edge) :
    Bool :=
  pending.2.kind == .OutputOnly

/- The nodes are the visited paths, each once. -/
structure Listed
    (b : Builder) :
    Prop where
  once : (b.nodes.map ProjectNode.path).Nodup
  visited : ∀ key, key ∈ b.nodes.map ProjectNode.path ↔ key ∈ b.visited

/- The visited F# projects are on the stack or finished. -/
def Settled
    (b : Builder)
    (finished : List Path) :
    Prop :=
  ∀ key ∈ b.visited, classify key = .FSharp →
    key ∈ b.onStack ∨ key ∈ finished

/-
  A part of the walk that follows `edges`, reports `problems` and
  finishes `fresh`, the last first.
-/
structure Walks
    (resolve : Path → NodeResult)
    (entry : Path)
    (b b' : Builder)
    (problems : List GraphProblem)
    (edges : List (Path × Edge))
    (fresh : List Path) :
    Prop where
  problems : plain b'.problems = plain b.problems ++ problems
  deferred : b'.deferred = b.deferred ++ edges.filter isDeferred
  onStack : b'.onStack = b.onStack
  visited : ∀ key, key ∈ b'.visited ↔ key ∈ b.visited ∨ key ∈ fresh ∨
    key ∈ edges.filterMap (boundaryOf resolve)
  listed : Listed b → Listed b'
  nodup : fresh.Nodup
  walked : ∀ key ∈ fresh, Walked resolve entry key ∧ key ∉ b.visited
  closed : ∀ key ∈ fresh, ∀ target, FullStep resolve key target →
    target ∈ b'.visited
  reported : HasCycle b.problems → HasCycle b'.problems
  cyclic : HasCycle b'.problems → HasCycle b.problems ∨
    ∃ key, Walked resolve entry key ∧ TransGen (FullStep resolve) key key
  descends : ∀ finished, Settled b finished → ¬ HasCycle b'.problems →
    Descends (FullStep resolve) finished →
    Descends (FullStep resolve) (fresh ++ finished)

variable {b' : Builder} {problem : GraphProblem} {edges : List (Path × Edge)}
variable {problems : List GraphProblem} {fresh fresh' : List Path} {key : Path}
variable {pending : Path × Edge} {node : ProjectNode}

theorem classify_of_boundary
    (hMem : key ∈ edges.filterMap (boundaryOf resolve)) :
    classify key = .CSharp := by
  rcases List.mem_filterMap.1 hMem with ⟨pending, -, hKey⟩
  unfold boundaryOf at hKey
  split at hKey
  · next hBoundary =>
      cases hKey
      rw [classify_lexicallyNormalize, hBoundary.2.1]
      rw [hBoundary.2.1]
      exact ProjectKind.noConfusion
  · cases hKey

theorem Walks.grows
    (hWalks : Walks resolve entry b b₁ problems edges fresh) :
    b.visited ⊆ b₁.visited := by
  intro key hMem
  exact (hWalks.visited key).2 (.inl hMem)

/- After a part, what it finished is finished. -/
theorem Walks.settled
    {fresh finished : List Path}
    (hWalks : Walks resolve entry b b₁ problems edges fresh)
    (hSettled : Settled b finished) :
    Settled b₁ (fresh ++ finished) := by
  intro key hVisited hKind
  rw [hWalks.onStack, List.mem_append]
  rcases (hWalks.visited key).1 hVisited with hOld | hFresh | hBoundary
  · rcases hSettled key hOld hKind with hStack | hDone
    · exact .inl hStack
    · exact .inr (.inr hDone)
  · exact .inr (.inl hFresh)
  · rw [classify_of_boundary hBoundary] at hKind
    cases hKind

theorem Walks.refl :
    Walks resolve entry b b [] [] [] where
  problems := (List.append_nil _).symm
  deferred := (List.append_nil _).symm
  onStack := rfl
  visited := by
    intro key
    simp
  listed := id
  nodup := List.nodup_nil
  walked := by
    intro key hMem
    cases hMem
  closed := by
    intro key hMem
    cases hMem
  reported := id
  cyclic := .inl
  descends := fun _ _ _ hDescends => hDescends

theorem Walks.trans
    {problems problems' : List GraphProblem}
    {edges edges' : List (Path × Edge)}
    (hFirst : Walks resolve entry b b₁ problems edges fresh)
    (hSecond : Walks resolve entry b₁ b₂ problems' edges' fresh') :
    Walks resolve entry b b₂ (problems ++ problems') (edges ++ edges')
      (fresh' ++ fresh) where
  problems := by
    rw [hSecond.problems, hFirst.problems, List.append_assoc]
  deferred := by
    rw [hSecond.deferred, hFirst.deferred, List.filter_append,
      List.append_assoc]
  onStack := hSecond.onStack.trans hFirst.onStack
  visited := by
    intro key
    rw [hSecond.visited, hFirst.visited, List.filterMap_append,
      List.mem_append, List.mem_append]
    tauto
  listed := fun hListed => hSecond.listed (hFirst.listed hListed)
  nodup := by
    apply List.Nodup.append hSecond.nodup hFirst.nodup
    intro key hLater hEarlier
    apply (hSecond.walked key hLater).2
    exact (hFirst.visited key).2 (.inr (.inl hEarlier))
  walked := by
    intro key hMem
    rcases List.mem_append.1 hMem with hLater | hEarlier
    · rcases hSecond.walked key hLater with ⟨hWalked, hFresh⟩
      exact ⟨hWalked, fun hOld => hFresh (hFirst.grows hOld)⟩
    · exact hFirst.walked key hEarlier
  closed := by
    intro key hMem target hStep
    rcases List.mem_append.1 hMem with hLater | hEarlier
    · exact hSecond.closed key hLater target hStep
    · exact hSecond.grows (hFirst.closed key hEarlier target hStep)
  reported := fun hCycle => hSecond.reported (hFirst.reported hCycle)
  cyclic := by
    intro hCycle
    rcases hSecond.cyclic hCycle with hOld | hFound
    · exact hFirst.cyclic hOld
    · exact .inr hFound
  descends := by
    intro finished hSettled hNone hDescends
    rw [List.append_assoc]
    apply hSecond.descends _ (hFirst.settled hSettled) hNone
    apply hFirst.descends _ hSettled _ hDescends
    exact fun hCycle => hNone (hSecond.reported hCycle)

theorem Listed.record
    (hListed : Listed b)
    (hNew : node.path ∉ b.visited) :
    Listed (b.record node) where
  once := by
    unfold Builder.record
    dsimp only
    rw [List.map_append, List.nodup_append]
    refine ⟨hListed.once, List.nodup_singleton _, ?_⟩
    intro key hOld key' hNode
    rw [List.map_singleton, List.mem_singleton] at hNode
    rw [hNode]
    rintro rfl
    exact hNew ((hListed.visited _).1 hOld)
  visited := by
    intro key
    unfold Builder.record
    dsimp only
    rw [List.map_append, List.mem_append, hListed.visited,
      Finset.mem_insert, List.map_singleton, List.mem_singleton]
    tauto

theorem plain_append
    (xs ys : List GraphProblem) :
    plain (xs ++ ys) = plain xs ++ plain ys :=
  List.filter_append xs ys

/- A part of one reference that finishes no project. -/
theorem Walks.single
    (hProblems : plain b'.problems = plain b.problems ++ problems)
    (hDeferred : b'.deferred = b.deferred ++ [pending].filter isDeferred)
    (hOnStack : b'.onStack = b.onStack)
    (hVisited : ∀ key, key ∈ b'.visited ↔
      key ∈ b.visited ∨ boundaryOf resolve pending = some key)
    (hListed : Listed b → Listed b')
    (hReported : HasCycle b.problems → HasCycle b'.problems)
    (hCyclic : HasCycle b'.problems → HasCycle b.problems ∨
      ∃ key, Walked resolve entry key ∧
        TransGen (FullStep resolve) key key) :
    Walks resolve entry b b' problems [pending] [] where
  problems := hProblems
  deferred := hDeferred
  onStack := hOnStack
  visited := by
    intro key
    rw [hVisited]
    simp
  listed := hListed
  nodup := List.nodup_nil
  walked := by
    intro key hMem
    cases hMem
  closed := by
    intro key hMem
    cases hMem
  reported := hReported
  cyclic := hCyclic
  descends := fun _ _ _ hDescends => hDescends

theorem HasCycle.report
    (hCycle : HasCycle b.problems) :
    HasCycle (b.report problem).problems := by
  rcases hCycle with ⟨cycle, hMem, hIs⟩
  exact ⟨cycle, List.mem_append_left _ hMem, hIs⟩

theorem hasCycle_report
    (hPlain : problem.isCycle = false)
    (hCycle : HasCycle (b.report problem).problems) :
    HasCycle b.problems := by
  rcases hCycle with ⟨cycle, hMem, hIs⟩
  rcases List.mem_append.1 hMem with hOld | hNew
  · exact ⟨cycle, hOld, hIs⟩
  · rw [List.mem_singleton.1 hNew, hPlain] at hIs
    cases hIs

/- A reference whose problem is reported. -/
theorem Walks.report
    (hPlain : problem.isCycle = false)
    (hFull : isDeferred pending = false)
    (hBoundary : boundaryOf resolve pending = none) :
    Walks resolve entry b (b.report problem) [problem] [pending] [] := by
  apply Walks.single
  · unfold Builder.report
    rw [plain_append]
    congr 1
    simp [plain, hPlain]
  · simp [Builder.report, hFull]
  · rfl
  · intro key
    rw [hBoundary]
    simp [Builder.report]
  · exact fun hListed => ⟨hListed.once, hListed.visited⟩
  · exact HasCycle.report
  · exact fun hCycle => .inl (hasCycle_report hPlain hCycle)

/- A reference back to the recursion path. -/
theorem Walks.reportCycle
    {referrer target key : Path}
    {span : Span}
    (hFull : isDeferred pending = false)
    (hBoundary : boundaryOf resolve pending = none)
    (hWalked : Walked resolve entry key)
    (hCycle : TransGen (FullStep resolve) key key) :
    Walks resolve entry b (b.report (.Cycle referrer target span)) []
      [pending] [] := by
  apply Walks.single
  · unfold Builder.report
    rw [plain_append]
    rfl
  · simp [Builder.report, hFull]
  · rfl
  · intro key
    rw [hBoundary]
    simp [Builder.report]
  · exact fun hListed => ⟨hListed.once, hListed.visited⟩
  · exact HasCycle.report
  · exact fun _ => .inr ⟨key, hWalked, hCycle⟩

/- A reference to a project that is already visited. -/
theorem Walks.skip
    (hFull : isDeferred pending = false)
    (hBoundary : ∀ key, boundaryOf resolve pending = some key →
      key ∈ b.visited) :
    Walks resolve entry b b [] [pending] [] := by
  apply Walks.single
  · exact (List.append_nil _).symm
  · simp [hFull]
  · rfl
  · intro key
    constructor
    · exact .inl
    · rintro (hOld | hKey)
      · exact hOld
      · exact hBoundary key hKey
  · exact id
  · exact id
  · exact .inl

/- A reference to a C# project that is new. -/
theorem Walks.recordBoundary
    (hFull : isDeferred pending = false)
    (hBoundary : boundaryOf resolve pending = some key)
    (hNew : key ∉ b.visited) :
    Walks resolve entry b (b.record (csharpNode key)) [] [pending] [] := by
  apply Walks.single
  · exact (List.append_nil _).symm
  · simp [Builder.record, hFull]
  · rfl
  · intro other
    rw [hBoundary]
    unfold Builder.record csharpNode
    dsimp only
    rw [Finset.mem_insert, Option.some.injEq, eq_comm]
    tauto
  · exact fun hListed => hListed.record hNew
  · exact id
  · exact .inl

/- A reference that is put off. -/
theorem Walks.defer
    {referrer : Path}
    {e : Edge}
    (hKind : e.kind = .OutputOnly) :
    Walks resolve entry b (b.defer referrer e) [] [(referrer, e)] [] := by
  have hBoundary : boundaryOf resolve (referrer, e) = none := by
    simp [boundaryOf, hKind]
  apply Walks.single
  · exact (List.append_nil _).symm
  · simp [Builder.defer, isDeferred, hKind]
  · rfl
  · intro key
    rw [hBoundary]
    simp [Builder.defer]
  · exact fun hListed => ⟨hListed.once, hListed.visited⟩
  · exact id
  · exact .inl

------------------------------------------------------------
-- References of a Project on the Stack
------------------------------------------------------------

/- A builder whose recursion path leads to `key`. -/
structure Ready
    (resolve : Path → NodeResult)
    (entry : Path)
    (b : Builder)
    (key : Path) :
    Prop where
  path : ∀ other ∈ b.onStack, ReflTransGen (FullStep resolve) other key
  onStack : ∀ other ∈ b.onStack,
    Walked resolve entry other ∧ other ∈ b.visited
  found : ∀ other ∈ b.visited, resolve other ≠ .NotFound

/- What the resolver answers does not depend on the spelling. -/
def Lexical
    (resolve : Path → NodeResult) :
    Prop :=
  ∀ p q, lexicallyNormalize p = lexicallyNormalize q →
    resolve p = resolve q

section

variable (hLexical : Lexical resolve)

include hLexical

theorem Lexical.normalize
    (path : Path) :
    resolve (lexicallyNormalize path) = resolve path :=
  hLexical _ _ (lexicallyNormalize_idem path)

theorem Walked.found
    (hWalked : Walked resolve entry key) :
    resolve key ≠ .NotFound := by
  rcases hWalked with ⟨hEntry, hPath⟩
  rcases ReflTransGen.cases_tail hPath with rfl | ⟨_, _, hStep⟩
  · rw [hLexical.normalize]
    exact hEntry
  · rcases hStep with ⟨e, -, -, -, hFound, rfl⟩
    rw [hLexical.normalize]
    exact hFound

theorem found_of_boundary
    (hMem : key ∈ edges.filterMap (boundaryOf resolve)) :
    resolve key ≠ .NotFound := by
  rcases List.mem_filterMap.1 hMem with ⟨pending, -, hKey⟩
  unfold boundaryOf at hKey
  split at hKey
  · next hIs =>
      cases hKey
      rw [hLexical.normalize]
      exact hIs.2.2
  · cases hKey

theorem Ready.after
    (hReady : Ready resolve entry b key)
    (hWalks : Walks resolve entry b b₁ problems edges fresh) :
    Ready resolve entry b₁ key where
  path := by
    rw [hWalks.onStack]
    exact hReady.path
  onStack := by
    rw [hWalks.onStack]
    intro other hMem
    rcases hReady.onStack other hMem with ⟨hWalked, hOld⟩
    exact ⟨hWalked, hWalks.grows hOld⟩
  found := by
    intro other hMem
    rcases (hWalks.visited other).1 hMem with hOld | hFresh | hBoundary
    · exact hReady.found other hOld
    · exact (hWalks.walked other hFresh).1.found hLexical
    · exact found_of_boundary hLexical hBoundary

end

/- The problem of a missing target of the walk. -/
def viaProblem
    (resolve : Path → NodeResult)
    (path : Path)
    (via : Option (Path × Span)) :
    List GraphProblem :=
  match resolve path, via with
  | .NotFound, some (referrer, span) =>
      [.NotFound referrer (lexicallyNormalize path) span]
  | _, _ => []

/-
  What a walk of a new project does.  The projects not visited bound
  its depth.
-/
def WalkSpec
    (resolve : Path → NodeResult)
    (entry : Path)
    (projects : Finset Path)
    (fuel : Nat)
    (walk : Path → Option (Path × Span) → Builder → Option Builder) :
    Prop :=
  ∀ path via b, classify path = .FSharp →
    lexicallyNormalize path ∉ b.visited →
    (resolve path ≠ .NotFound →
      Walked resolve entry (lexicallyNormalize path) ∧
        Ready resolve entry b (lexicallyNormalize path)) →
    (projects \ b.visited).card < fuel →
    ∃ b' edges fresh, walk path via b = some b' ∧
      Walks resolve entry b b'
        (viaProblem resolve path via ++
          edges.filterMap (fullProblem resolve)) edges fresh ∧
      List.Perm edges (fresh.flatMap (ownEdges resolve)) ∧
      (resolve path ≠ .NotFound → lexicallyNormalize path ∈ fresh)

/- The target of a followed reference is visited, and finished unless a
   cycle is reported. -/
def Reached
    (resolve : Path → NodeResult)
    (e : Edge)
    (b b' : Builder)
    (fresh : List Path) :
    Prop :=
  e.kind = .Full → classify e.target = .FSharp →
    resolve e.target ≠ .NotFound →
    lexicallyNormalize e.target ∈ b'.visited ∧
      ∀ finished, Settled b finished → ¬ HasCycle b'.problems →
        lexicallyNormalize e.target ∈ fresh ++ finished

variable {projects : Finset Path} {fuel : Nat}
variable {walk : Path → Option (Path × Span) → Builder → Option Builder}
variable {referrer : Path} {e : Edge}

theorem recordCsharpBoundary_walks
    (hKind : e.kind = .Full)
    (hCSharp : classify e.target = .CSharp) :
    Walks resolve entry b
      (recordCsharpBoundary resolve referrer (lexicallyNormalize e.target) e b)
      ([(referrer, e)].filterMap (fullProblem resolve)) [(referrer, e)]
      [] := by
  have hFull : isDeferred (referrer, e) = false := by
    simp [isDeferred, hKind]
  unfold recordCsharpBoundary
  split
  · next hMissing =>
      have hProblem : fullProblem resolve (referrer, e) =
          some (.NotFound referrer (lexicallyNormalize e.target) e.span) := by
        simp [fullProblem, problemOf, hKind, hCSharp, hMissing]
      rw [List.filterMap_cons_some hProblem]
      apply Walks.report rfl hFull
      simp [boundaryOf, hMissing]
  · next hFound =>
      have hProblem : fullProblem resolve (referrer, e) = none := by
        simp [fullProblem, problemOf, hKind, hCSharp, hFound]
      have hBoundary : boundaryOf resolve (referrer, e) =
          some (lexicallyNormalize e.target) := by
        simp [boundaryOf, hKind, hCSharp, hFound]
      rw [List.filterMap_cons_none hProblem]
      split
      · next hOld =>
          apply Walks.skip hFull
          intro key hKey
          rw [hBoundary] at hKey
          cases hKey
          exact hOld
      · next hNew => exact Walks.recordBoundary hFull hBoundary hNew

theorem followEdge_walks
    (hLexical : Lexical resolve)
    (hWalk : WalkSpec resolve entry projects fuel walk)
    (hReady : Ready resolve entry b referrer)
    (hWalked : Walked resolve entry referrer)
    (hEdge : e ∈ edgesOf resolve referrer)
    (hKind : e.kind = .Full)
    (hFuel : (projects \ b.visited).card < fuel) :
    ∃ b' edges fresh, followEdge resolve walk referrer e b = some b' ∧
      Walks resolve entry b b'
        (((referrer, e) :: edges).filterMap (fullProblem resolve))
        ((referrer, e) :: edges) fresh ∧
      List.Perm edges (fresh.flatMap (ownEdges resolve)) ∧
      Reached resolve e b b' fresh := by
  have hFull : isDeferred (referrer, e) = false := by
    simp [isDeferred, hKind]
  unfold followEdge
  cases hClass : classify e.target with
  | Other =>
      have hProblem : fullProblem resolve (referrer, e) =
          some (.UnsupportedKind referrer (lexicallyNormalize e.target)
            e.span) := by
        simp [fullProblem, problemOf, hKind, hClass]
      refine ⟨_, [], [], rfl, ?_, List.Perm.refl _, ?_⟩
      · rw [List.filterMap_cons_some hProblem]
        apply Walks.report rfl hFull
        simp [boundaryOf, hClass]
      · intro _ hFSharp
        rw [hClass] at hFSharp
        cases hFSharp
  | CSharp =>
      refine ⟨_, [], [], rfl, recordCsharpBoundary_walks hKind hClass,
        List.Perm.refl _, ?_⟩
      intro _ hFSharp
      rw [hClass] at hFSharp
      cases hFSharp
  | FSharp =>
      have hBoundary : boundaryOf resolve (referrer, e) = none := by
        simp [boundaryOf, hClass]
      -- a visited target exists
      have hNoProblem : lexicallyNormalize e.target ∈ b.visited →
          fullProblem resolve (referrer, e) = none := by
        intro hOld
        have hFound := hReady.found _ hOld
        rw [hLexical.normalize] at hFound
        unfold fullProblem problemOf
        rw [if_pos hKind, hClass]
        dsimp only
        split
        · next hMissing => exact absurd hMissing hFound
        · rfl
      have hStep : resolve e.target ≠ .NotFound →
          FullStep resolve referrer (lexicallyNormalize e.target) :=
        fun hFound => ⟨e, hEdge, hKind, hClass, hFound, rfl⟩
      dsimp only
      split
      · next hOnStack =>
          rcases hReady.onStack _ hOnStack with ⟨hTarget, hOld⟩
          have hFound := hReady.found _ hOld
          rw [hLexical.normalize] at hFound
          refine ⟨_, [], [], rfl, ?_, List.Perm.refl _, ?_⟩
          · rw [List.filterMap_cons_none (hNoProblem hOld)]
            exact Walks.reportCycle hFull hBoundary hTarget
              (TransGen.tail' (hReady.path _ hOnStack) (hStep hFound))
          · intro _ _ _
            refine ⟨hOld, ?_⟩
            intro finished _ hNone
            exact absurd ⟨_, List.mem_append_right _ List.mem_cons_self, rfl⟩
              hNone
      · next hOffStack =>
          split
          · next hOld =>
              refine ⟨_, [], [], rfl, ?_, List.Perm.refl _, ?_⟩
              · rw [List.filterMap_cons_none (hNoProblem hOld)]
                apply Walks.skip hFull
                intro key hKey
                rw [hBoundary] at hKey
                cases hKey
              · intro _ _ _
                refine ⟨hOld, ?_⟩
                intro finished hSettled _
                have hSame : classify (lexicallyNormalize e.target) =
                    .FSharp := by
                  rw [classify_lexicallyNormalize, hClass]
                  rw [hClass]
                  exact ProjectKind.noConfusion
                rcases hSettled _ hOld hSame with hStack | hDone
                · exact absurd hStack hOffStack
                · exact List.mem_append_right _ hDone
          · next hNew =>
              have hTarget : resolve e.target ≠ .NotFound →
                  Walked resolve entry (lexicallyNormalize e.target) ∧
                    Ready resolve entry b (lexicallyNormalize e.target) := by
                intro hFound
                refine ⟨⟨hWalked.1, hWalked.2.tail (hStep hFound)⟩, ?_,
                  hReady.onStack, hReady.found⟩
                intro other hMem
                exact (hReady.path other hMem).tail (hStep hFound)
              rcases hWalk e.target (some (referrer, e.span)) b hClass hNew
                hTarget hFuel with ⟨b', edges, fresh, hRun, hWalks, hPerm, hIn⟩
              have hVia : viaProblem resolve e.target
                  (some (referrer, e.span)) =
                  [(referrer, e)].filterMap (fullProblem resolve) := by
                unfold viaProblem
                cases hResolve : resolve e.target <;>
                  simp [fullProblem, problemOf, hKind, hClass, hResolve]
              have hSkip : Walks resolve entry b b [] [(referrer, e)] [] := by
                apply Walks.skip hFull
                intro key hKey
                rw [hBoundary] at hKey
                cases hKey
              refine ⟨b', edges, fresh, hRun, ?_, hPerm, ?_⟩
              · have hBoth := hSkip.trans hWalks
                rw [hVia, ← List.filterMap_append, List.append_nil] at hBoth
                exact hBoth
              · intro _ _ hFound
                refine ⟨(hWalks.visited _).2 (.inr (.inl (hIn hFound))), ?_⟩
                exact fun _ _ _ => List.mem_append_left _ (hIn hFound)

theorem walkEdge_walks
    (hLexical : Lexical resolve)
    (hWalk : WalkSpec resolve entry projects fuel walk)
    (hReady : Ready resolve entry b referrer)
    (hWalked : Walked resolve entry referrer)
    (hEdge : e ∈ edgesOf resolve referrer)
    (hFuel : (projects \ b.visited).card < fuel) :
    ∃ b' edges fresh, walkEdge resolve walk referrer e b = some b' ∧
      Walks resolve entry b b'
        (((referrer, e) :: edges).filterMap (fullProblem resolve))
        ((referrer, e) :: edges) fresh ∧
      List.Perm edges (fresh.flatMap (ownEdges resolve)) ∧
      Reached resolve e b b' fresh := by
  unfold walkEdge
  cases hKind : e.kind with
  | Full =>
      exact followEdge_walks hLexical hWalk hReady hWalked hEdge hKind hFuel
  | OutputOnly =>
      have hProblem : fullProblem resolve (referrer, e) = none := by
        simp [fullProblem, hKind]
      refine ⟨_, [], [], rfl, ?_, List.Perm.refl _, ?_⟩
      · rw [List.filterMap_cons_none hProblem]
        exact Walks.defer hKind
      · intro hFull
        rw [hKind] at hFull
        cases hFull

theorem Reached.later
    (hReached : Reached resolve e b b₁ fresh)
    (hWalks : Walks resolve entry b₁ b₂ problems edges fresh') :
    Reached resolve e b b₂ (fresh' ++ fresh) := by
  intro hKind hClass hFound
  rcases hReached hKind hClass hFound with ⟨hVisited, hDone⟩
  refine ⟨hWalks.grows hVisited, ?_⟩
  intro finished hSettled hNone
  rw [List.append_assoc]
  apply List.mem_append_right
  apply hDone finished hSettled
  exact fun hCycle => hNone (hWalks.reported hCycle)

theorem Reached.earlier
    (hWalks : Walks resolve entry b b₁ problems edges fresh)
    (hReached : Reached resolve e b₁ b₂ fresh') :
    Reached resolve e b b₂ (fresh' ++ fresh) := by
  intro hKind hClass hFound
  rcases hReached hKind hClass hFound with ⟨hVisited, hDone⟩
  refine ⟨hVisited, ?_⟩
  intro finished hSettled hNone
  rw [List.append_assoc]
  exact hDone _ (hWalks.settled hSettled) hNone

theorem walkEdges_walks
    {es : List Edge}
    (hLexical : Lexical resolve)
    (hWalk : WalkSpec resolve entry projects fuel walk)
    (hReady : Ready resolve entry b referrer)
    (hWalked : Walked resolve entry referrer)
    (hEdges : ∀ e ∈ es, e ∈ edgesOf resolve referrer)
    (hFuel : (projects \ b.visited).card < fuel) :
    ∃ b' edges fresh, walkEdges resolve walk referrer es b = some b' ∧
      Walks resolve entry b b' (edges.filterMap (fullProblem resolve))
        edges fresh ∧
      List.Perm edges (es.map (fun e => (referrer, e)) ++
        fresh.flatMap (ownEdges resolve)) ∧
      ∀ e ∈ es, Reached resolve e b b' fresh := by
  induction es generalizing b with
  | nil =>
      refine ⟨b, [], [], rfl, Walks.refl, List.Perm.refl _, ?_⟩
      intro e hMem
      cases hMem
  | cons e es ih =>
      rcases walkEdge_walks hLexical hWalk hReady hWalked
        (hEdges e List.mem_cons_self) hFuel with
        ⟨b₁, edges, fresh, hRun, hWalks, hPerm, hReached⟩
      have hFuel' : (projects \ b₁.visited).card < fuel :=
        Nat.lt_of_le_of_lt
          (Finset.card_le_card (Finset.sdiff_subset_sdiff
            (Finset.Subset.refl _) hWalks.grows)) hFuel
      rcases ih (hReady.after hLexical hWalks)
        (fun e' hMem => hEdges e' (List.mem_cons_of_mem _ hMem)) hFuel' with
        ⟨b₂, edges', fresh', hRun', hWalks', hPerm', hReached'⟩
      refine ⟨b₂, (referrer, e) :: edges ++ edges', fresh' ++ fresh, ?_, ?_,
        ?_, ?_⟩
      · rw [walkEdges, hRun]
        exact hRun'
      · rw [List.filterMap_append]
        exact hWalks.trans hWalks'
      · rw [List.flatMap_append, List.map_cons, List.cons_append,
          List.cons_append]
        apply List.Perm.cons
        apply (hPerm.append hPerm').trans
        apply List.perm_append_comm.trans
        rw [List.append_assoc]
      · intro e' hMem
        rcases List.mem_cons.1 hMem with rfl | hLater
        · exact hReached.later hWalks'
        · exact (hReached' e' hLater).earlier hWalks

------------------------------------------------------------
-- The Walk
------------------------------------------------------------

/- A missing project is a problem of its reference. -/
theorem walkFsharp_missing
    {via : Option (Path × Span)}
    (hMissing : resolve path = .NotFound) :
    ∃ b', walkFsharp resolve (fuel + 1) path via b = some b' ∧
      Walks resolve entry b b' (viaProblem resolve path via) [] [] := by
  unfold walkFsharp viaProblem
  rw [hMissing]
  cases via with
  | none => exact ⟨b, rfl, Walks.refl⟩
  | some via =>
      rcases via with ⟨referrer, span⟩
      refine ⟨_, rfl, ?_⟩
      refine { (Walks.refl : Walks resolve entry b b [] [] []) with
        problems := ?_
        listed := ?_
        reported := HasCycle.report
        cyclic := ?_
        descends := fun _ _ _ hDescends => hDescends }
      · exact plain_append _ _
      · exact fun hListed => ⟨hListed.once, hListed.visited⟩
      · exact fun hCycle => .inl (hasCycle_report rfl hCycle)

/- Entering a project. -/
theorem Ready.enter
    (hLexical : Lexical resolve)
    (hReady : Ready resolve entry b node.path)
    (hWalked : Walked resolve entry node.path) :
    Ready resolve entry ((b.record node).enter node.path) node.path where
  path := by
    intro other hMem
    rcases Finset.mem_insert.1 hMem with rfl | hOld
    · exact .refl
    · exact hReady.path other hOld
  onStack := by
    intro other hMem
    rcases Finset.mem_insert.1 hMem with rfl | hOld
    · exact ⟨hWalked, Finset.mem_insert_self _ _⟩
    · rcases hReady.onStack other hOld with ⟨hWalked', hVisited⟩
      exact ⟨hWalked', Finset.mem_insert_of_mem hVisited⟩
  found := by
    intro other hMem
    rcases Finset.mem_insert.1 hMem with rfl | hOld
    · exact hWalked.found hLexical
    · exact hReady.found other hOld

/- A project is finished behind its last reference. -/
theorem Walks.finish
    {node : ProjectNode}
    {problems : List GraphProblem}
    {edges : List (Path × Edge)}
    {fresh : List Path}
    (hNew : node.path ∉ b.visited)
    (hOffStack : node.path ∉ b.onStack)
    (hWalked : Walked resolve entry node.path)
    (hWalks : Walks resolve entry ((b.record node).enter node.path) b₁
      problems edges fresh)
    (hReached : ∀ e ∈ edgesOf resolve node.path,
      Reached resolve e ((b.record node).enter node.path) b₁ fresh) :
    Walks resolve entry b (b₁.leave node.path) problems edges
      (node.path :: fresh) where
  problems := hWalks.problems
  deferred := hWalks.deferred
  onStack := by
    unfold Builder.leave
    rw [hWalks.onStack]
    exact Finset.erase_insert hOffStack
  visited := by
    intro key
    change key ∈ b₁.visited ↔ _
    rw [hWalks.visited]
    change key ∈ insert node.path b.visited ∨ _ ↔ _
    rw [Finset.mem_insert, List.mem_cons]
    tauto
  listed := by
    intro hListed
    have hEnd : Listed b₁ := by
      apply hWalks.listed
      rcases hListed.record hNew with ⟨hOnce, hVisited⟩
      exact ⟨hOnce, hVisited⟩
    exact ⟨hEnd.once, hEnd.visited⟩
  nodup := by
    rw [List.nodup_cons]
    refine ⟨?_, hWalks.nodup⟩
    intro hMem
    exact (hWalks.walked _ hMem).2 (Finset.mem_insert_self _ _)
  walked := by
    intro key hMem
    rcases List.mem_cons.1 hMem with rfl | hIn
    · exact ⟨hWalked, hNew⟩
    · rcases hWalks.walked key hIn with ⟨hKey, hFresh⟩
      exact ⟨hKey, fun hOld => hFresh (Finset.mem_insert_of_mem hOld)⟩
  closed := by
    intro key hMem target hStep
    rcases List.mem_cons.1 hMem with rfl | hIn
    · rcases hStep with ⟨e, hEdge, hKind, hClass, hFound, rfl⟩
      exact (hReached e hEdge hKind hClass hFound).1
    · exact hWalks.closed key hIn target hStep
  reported := hWalks.reported
  cyclic := hWalks.cyclic
  descends := by
    intro finished hSettled hNone hDescends
    have hEntered : Settled ((b.record node).enter node.path) finished := by
      intro key hMem hKind
      rcases Finset.mem_insert.1 hMem with rfl | hOld
      · exact .inl (Finset.mem_insert_self _ _)
      · rcases hSettled key hOld hKind with hStack | hDone
        · exact .inl (Finset.mem_insert_of_mem hStack)
        · exact .inr hDone
    constructor
    · rintro target ⟨e, hEdge, hKind, hClass, hFound, rfl⟩
      exact (hReached e hEdge hKind hClass hFound).2 finished hEntered hNone
    · exact hWalks.descends finished hEntered hNone hDescends

theorem walkFsharp_walks
    (hLexical : Lexical resolve)
    (hProjects : ∀ key, Walked resolve entry key → key ∈ projects)
    (fuel : Nat) :
    WalkSpec resolve entry projects fuel (walkFsharp resolve fuel) := by
  induction fuel with
  | zero =>
      intro path via b _ _ _ hFuel
      exact absurd hFuel (Nat.not_lt_zero _)
  | succ fuel ih =>
      intro path via b hClass hNew hTarget hFuel
      cases hResolve : resolve path with
      | NotFound =>
          rcases walkFsharp_missing hResolve with ⟨b', hRun, hWalks⟩
          refine ⟨b', [], [], hRun, ?_, List.Perm.refl _, ?_⟩
          · rw [List.filterMap_nil, List.append_nil]
            exact hWalks
          · exact fun hFound => absurd rfl hFound
      | Resolved references tfm outputName referencesUncertain =>
          have hFound : resolve path ≠ .NotFound := by
            rw [hResolve]
            exact NodeResult.noConfusion
          rcases hTarget hFound with ⟨hWalked, hReady⟩
          have hOffStack : lexicallyNormalize path ∉ b.onStack :=
            fun hMem => hNew (hReady.onStack _ hMem).2
          have hOwn : edgesOf resolve (lexicallyNormalize path) =
              references := by
            unfold edgesOf
            rw [hLexical.normalize, hResolve]
          -- the project is no longer one of those to visit
          have hLess : (projects \ insert (lexicallyNormalize path)
              b.visited).card < fuel := by
            have hIn : lexicallyNormalize path ∈ projects \ b.visited :=
              Finset.mem_sdiff.2 ⟨hProjects _ hWalked, hNew⟩
            have hErased := Finset.card_erase_lt_of_mem hIn
            rw [Finset.sdiff_insert]
            omega
          have hEntered : Ready resolve entry
              ((b.record ⟨lexicallyNormalize path, .FSharp, references, tfm,
                outputName, referencesUncertain⟩).enter
                  (lexicallyNormalize path)) (lexicallyNormalize path) :=
            Ready.enter hLexical hReady hWalked
          rcases walkEdges_walks hLexical ih hEntered hWalked
            (fun e hMem => hOwn.symm ▸ hMem) hLess with
            ⟨b₁, edges, fresh, hRun, hWalks, hPerm, hReached⟩
          rw [← hOwn] at hReached
          refine ⟨b₁.leave (lexicallyNormalize path), edges,
            lexicallyNormalize path :: fresh, ?_, ?_, ?_, ?_⟩
          · unfold walkFsharp
            rw [hResolve]
            dsimp only
            rw [hRun]
          · have hVia : viaProblem resolve path via = [] := by
              unfold viaProblem
              rw [hResolve]
            rw [hVia, List.nil_append]
            exact hWalks.finish hNew hOffStack hWalked hReached
          · rw [List.flatMap_cons]
            unfold ownEdges at hPerm ⊢
            rw [hOwn]
            exact hPerm
          · exact fun _ => List.mem_cons_self

def pendingProblem
    (resolve : Path → NodeResult)
    (pending : Path × Edge) :
    Option GraphProblem :=
  problemOf resolve pending.1 pending.2

/- A project that exists behind a reference. -/
def Supplies
    (resolve : Path → NodeResult)
    (pending : Path × Edge)
    (key : Path) :
    Prop :=
  classify pending.2.target ≠ .Other ∧
    resolve pending.2.target ≠ .NotFound ∧
    lexicallyNormalize pending.2.target = key

/- What recording deferred references does. -/
structure Records
    (resolve : Path → NodeResult)
    (b b' : Builder)
    (edges : List (Path × Edge)) :
    Prop where
  problems : plain b'.problems = plain b.problems ++
    edges.filterMap (pendingProblem resolve)
  visited : ∀ key, key ∈ b'.visited ↔
    key ∈ b.visited ∨ ∃ pending ∈ edges, Supplies resolve pending key
  listed : Listed b → Listed b'
  cycles : HasCycle b'.problems ↔ HasCycle b.problems

/- One deferred reference whose problem is reported. -/
theorem Records.report
    (hProblem : pendingProblem resolve (referrer, e) = some problem)
    (hPlain : problem.isCycle = false)
    (hNone : ∀ key, ¬ Supplies resolve (referrer, e) key) :
    Records resolve b (b.report problem) [(referrer, e)] where
  problems := by
    rw [List.filterMap_cons_some hProblem, List.filterMap_nil]
    unfold Builder.report
    rw [plain_append]
    congr 1
    simp [plain, hPlain]
  visited := by
    intro key
    simp [Builder.report, hNone key]
  listed := fun hListed => ⟨hListed.once, hListed.visited⟩
  cycles := ⟨hasCycle_report hPlain, HasCycle.report⟩

/- One deferred reference to a project that is visited. -/
theorem Records.skip
    (hProblem : pendingProblem resolve (referrer, e) = none)
    (hOld : lexicallyNormalize e.target ∈ b.visited) :
    Records resolve b b [(referrer, e)] where
  problems := by
    rw [List.filterMap_cons_none hProblem, List.filterMap_nil,
      List.append_nil]
  visited := by
    intro key
    constructor
    · exact .inl
    · rintro (hVisited | ⟨pending, hMem, -, -, hKey⟩)
      · exact hVisited
      · rw [List.mem_singleton.1 hMem] at hKey
        rw [← hKey]
        exact hOld
  listed := id
  cycles := Iff.rfl

/- One deferred reference to a project that is new. -/
theorem Records.record
    (hProblem : pendingProblem resolve (referrer, e) = none)
    (hNew : node.path ∉ b.visited)
    (hSupplies : Supplies resolve (referrer, e) node.path) :
    Records resolve b (b.record node) [(referrer, e)] where
  problems := by
    rw [List.filterMap_cons_none hProblem, List.filterMap_nil,
      List.append_nil]
    rfl
  visited := by
    intro key
    change key ∈ insert node.path b.visited ↔ _
    rw [Finset.mem_insert]
    constructor
    · rintro (rfl | hOld)
      · exact .inr ⟨_, List.mem_singleton_self _, hSupplies⟩
      · exact .inl hOld
    · rintro (hOld | ⟨pending, hMem, -, -, hKey⟩)
      · exact .inr hOld
      · rw [List.mem_singleton.1 hMem] at hKey
        exact .inl (hKey.symm.trans hSupplies.2.2)
  listed := fun hListed => hListed.record hNew
  cycles := Iff.rfl

theorem pendingProblem_missing
    (hKind : classify e.target ≠ .Other)
    (hMissing : resolve e.target = .NotFound) :
    pendingProblem resolve (referrer, e) =
      some (.NotFound referrer (lexicallyNormalize e.target) e.span) := by
  unfold pendingProblem problemOf
  rw [hMissing]
  cases hClass : classify e.target with
  | Other => exact absurd hClass hKind
  | _ => rfl

theorem pendingProblem_found
    (hKind : classify e.target ≠ .Other)
    (hFound : resolve e.target ≠ .NotFound) :
    pendingProblem resolve (referrer, e) = none := by
  unfold pendingProblem problemOf
  cases hClass : classify e.target with
  | Other => exact absurd hClass hKind
  | _ =>
      dsimp only
      split
      · next hMissing => exact absurd hMissing hFound
      · rfl

theorem recordOutputOnly_records
    (hLexical : Lexical resolve)
    (hExists : ∀ key ∈ b.visited, resolve key ≠ .NotFound) :
    Records resolve b (recordOutputOnly resolve referrer e b)
      [(referrer, e)] := by
  -- the cases that C# and F# targets share
  have hMissing : classify e.target ≠ .Other →
      resolve e.target = .NotFound →
      Records resolve b (b.report
        (.NotFound referrer (lexicallyNormalize e.target) e.span))
        [(referrer, e)] := by
    intro hKind hNone
    apply Records.report (pendingProblem_missing hKind hNone) rfl
    exact fun key hSupplies => hSupplies.2.1 hNone
  have hOld : classify e.target ≠ .Other →
      lexicallyNormalize e.target ∈ b.visited →
      Records resolve b b [(referrer, e)] := by
    intro hKind hVisited
    have hFound := hExists _ hVisited
    rw [hLexical.normalize] at hFound
    exact Records.skip (pendingProblem_found hKind hFound) hVisited
  have hRecord : ∀ node : ProjectNode, classify e.target ≠ .Other →
      resolve e.target ≠ .NotFound →
      node.path = lexicallyNormalize e.target →
      lexicallyNormalize e.target ∉ b.visited →
      Records resolve b (b.record node) [(referrer, e)] := by
    intro node hKind hFound hPath hNew
    rw [← hPath] at hNew
    exact Records.record (pendingProblem_found hKind hFound) hNew
      ⟨hKind, hFound, hPath.symm⟩
  unfold recordOutputOnly
  cases hClass : classify e.target with
  | Other =>
      dsimp only
      apply Records.report _ rfl
      · exact fun key hSupplies => hSupplies.1 hClass
      · unfold pendingProblem problemOf
        rw [hClass]
  | CSharp =>
      have hKind : classify e.target ≠ .Other := by
        rw [hClass]
        exact ProjectKind.noConfusion
      dsimp only
      unfold recordCsharpBoundary
      split
      · next hNone => exact hMissing hKind hNone
      · next hSome =>
          split
          · next hVisited => exact hOld hKind hVisited
          · next hNew =>
              apply hRecord _ hKind _ rfl hNew
              rw [hSome]
              exact NodeResult.noConfusion
  | FSharp =>
      have hKind : classify e.target ≠ .Other := by
        rw [hClass]
        exact ProjectKind.noConfusion
      dsimp only
      split
      · next hVisited => exact hOld hKind hVisited
      · next hNew =>
          split
          · next hNone => exact hMissing hKind hNone
          · next hSome =>
              apply hRecord _ hKind _ rfl hNew
              rw [hSome]
              exact NodeResult.noConfusion

theorem recordOutputOnly_foldl
    (hLexical : Lexical resolve)
    (hExists : ∀ key ∈ b.visited, resolve key ≠ .NotFound)
    (edges : List (Path × Edge)) :
    Records resolve b
      (edges.foldl
        (fun b pending => recordOutputOnly resolve pending.1 pending.2 b) b)
      edges := by
  induction edges generalizing b with
  | nil =>
      refine ⟨(List.append_nil _).symm, ?_, id, Iff.rfl⟩
      intro key
      simp
  | cons pending edges ih =>
      have hFirst : Records resolve b
          (recordOutputOnly resolve pending.1 pending.2 b) [pending] :=
        recordOutputOnly_records hLexical hExists
      have hExists' : ∀ key ∈
          (recordOutputOnly resolve pending.1 pending.2 b).visited,
          resolve key ≠ .NotFound := by
        intro key hMem
        rcases (hFirst.visited key).1 hMem with
          hOld | ⟨_, _, -, hFound, rfl⟩
        · exact hExists key hOld
        · rw [hLexical.normalize]
          exact hFound
      have hRest := ih hExists'
      refine ⟨?_, ?_, ?_, ?_⟩
      · rw [List.foldl_cons, hRest.problems, hFirst.problems,
          List.append_assoc, ← List.filterMap_append]
        rfl
      · intro key
        rw [List.foldl_cons, hRest.visited, hFirst.visited]
        simp only [List.mem_cons, exists_eq_or_imp]
        tauto
      · exact fun hListed => hRest.listed (hFirst.listed hListed)
      · exact hRest.cycles.trans hFirst.cycles

------------------------------------------------------------
-- The Whole Graph
------------------------------------------------------------

/- The references followed at once and those put off are all of them. -/
theorem problems_perm
    (edges : List (Path × Edge)) :
    List.Perm (edges.filterMap (fullProblem resolve) ++
        (edges.filter isDeferred).filterMap (pendingProblem resolve))
      (edges.filterMap (pendingProblem resolve)) := by
  induction edges with
  | nil => exact List.Perm.refl _
  | cons pending edges ih =>
      cases hKind : pending.2.kind with
      | Full =>
          have hFull : isDeferred pending = false := by
            simp [isDeferred, hKind]
          have hSame : fullProblem resolve pending =
              pendingProblem resolve pending := if_pos hKind
          rw [List.filter_cons_of_neg (by rw [hFull]; exact Bool.false_ne_true),
            List.filterMap_cons, List.filterMap_cons, hSame]
          cases pendingProblem resolve pending with
          | none => exact ih
          | some problem => exact ih.cons problem
      | OutputOnly =>
          have hLater : isDeferred pending = true := by
            simp [isDeferred, hKind]
          have hNone : fullProblem resolve pending = none := by
            simp [fullProblem, hKind]
          rw [List.filter_cons_of_pos hLater, List.filterMap_cons_none hNone,
            List.filterMap_cons, List.filterMap_cons]
          cases pendingProblem resolve pending with
          | none => exact ih
          | some problem =>
              exact List.perm_middle.trans (ih.cons problem)

theorem mem_ownEdges
    {pending : Path × Edge} :
    pending ∈ fresh.flatMap (ownEdges resolve) ↔
      pending.1 ∈ fresh ∧ pending.2 ∈ edgesOf resolve pending.1 := by
  rw [List.mem_flatMap]
  unfold ownEdges
  constructor
  · rintro ⟨key, hKey, hMem⟩
    rcases List.mem_map.1 hMem with ⟨e, hEdge, rfl⟩
    exact ⟨hKey, hEdge⟩
  · rintro ⟨hKey, hEdge⟩
    exact ⟨pending.1, hKey, List.mem_map.2 ⟨pending.2, hEdge, rfl⟩⟩

/- The walk from the entry finishes the projects it leads to. -/
theorem Walks.fresh_iff
    (hWalks : Walks resolve entry .empty b' problems edges fresh)
    (hEntry : resolve entry ≠ .NotFound → lexicallyNormalize entry ∈ fresh)
    (key : Path) :
    key ∈ fresh ↔ Walked resolve entry key := by
  constructor
  · exact fun hMem => (hWalks.walked key hMem).1
  · rintro ⟨hFound, hPath⟩
    induction hPath with
    | refl => exact hEntry hFound
    | tail _ hStep ih =>
        have hVisited := hWalks.closed _ ih _ hStep
        rcases (hWalks.visited _).1 hVisited with hNone | hFresh | hBoundary
        · exact absurd hNone (Finset.notMem_empty _)
        · exact hFresh
        · rcases hStep with ⟨e, -, -, hClass, -, rfl⟩
          have hKind := classify_of_boundary hBoundary
          rw [classify_lexicallyNormalize, hClass] at hKind
          · cases hKind
          · rw [hClass]
            exact ProjectKind.noConfusion

/- The recorded projects are those that are meant. -/
theorem visited_iff
    {b' b'' : Builder}
    (hWalks : Walks resolve entry .empty b' problems edges fresh)
    (hFresh : ∀ key, key ∈ fresh ↔ Walked resolve entry key)
    (hPerm : List.Perm edges (fresh.flatMap (ownEdges resolve)))
    (hRecords : Records resolve { b' with deferred := [] } b''
      (edges.filter isDeferred))
    (key : Path) :
    key ∈ b''.visited ↔ Walked resolve entry key ∨
      CSharpTarget resolve entry key ∨ OutputTarget resolve entry key := by
  have hEdge : ∀ pending, pending ∈ edges ↔
      Walked resolve entry pending.1 ∧
        pending.2 ∈ edgesOf resolve pending.1 := by
    intro pending
    rw [hPerm.mem_iff, mem_ownEdges, hFresh]
  rw [hRecords.visited]
  change key ∈ b'.visited ∨ _ ↔ _
  rw [hWalks.visited, hFresh]
  constructor
  · rintro ((hNone | hWalked | hBoundary) | ⟨pending, hMem, hSupplies⟩)
    · exact absurd hNone (Finset.notMem_empty _)
    · exact .inl hWalked
    · rcases List.mem_filterMap.1 hBoundary with ⟨pending, hMem, hKey⟩
      unfold boundaryOf at hKey
      split at hKey
      · next hIs =>
          cases hKey
          rcases (hEdge pending).1 hMem with ⟨hReferrer, hOwn⟩
          exact .inr (.inl ⟨pending.1, hReferrer, pending.2, hOwn, hIs.2.1,
            hIs.2.2, rfl⟩)
      · cases hKey
    · rcases List.mem_filter.1 hMem with ⟨hIn, hDeferred⟩
      rcases (hEdge pending).1 hIn with ⟨hReferrer, hOwn⟩
      have hKind : pending.2.kind = .OutputOnly := by
        simpa [isDeferred] using hDeferred
      exact .inr (.inr ⟨pending.1, hReferrer, pending.2, hOwn, hKind,
        hSupplies⟩)
  · rintro (hWalked | ⟨referrer, hReferrer, e, hOwn, hClass, hFound, hKey⟩ |
      ⟨referrer, hReferrer, e, hOwn, hKind, hSupplies⟩)
    · exact .inl (.inr (.inl hWalked))
    · have hMem := (hEdge (referrer, e)).2 ⟨hReferrer, hOwn⟩
      cases hKind : e.kind with
      | Full =>
          refine .inl (.inr (.inr ?_))
          apply List.mem_filterMap.2
          refine ⟨(referrer, e), hMem, ?_⟩
          unfold boundaryOf
          rw [if_pos ⟨hKind, hClass, hFound⟩, hKey]
      | OutputOnly =>
          refine .inr ⟨(referrer, e), List.mem_filter.2 ⟨hMem, ?_⟩, ?_,
            hFound, hKey⟩
          · simp [isDeferred, hKind]
          · rw [hClass]
            exact ProjectKind.noConfusion
    · refine .inr ⟨(referrer, e), List.mem_filter.2 ⟨?_, ?_⟩, hSupplies⟩
      · exact (hEdge (referrer, e)).2 ⟨hReferrer, hOwn⟩
      · simp [isDeferred, hKind]

end Walking

/-
  Over finitely many projects the walk ends, and the graph has the
  projects and the problems it should.
-/
theorem build_graph_exact
    (resolve : Path → NodeResult)
    (entry : Path)
    (hEntry : classify entry = .FSharp)
    (hLexical : Lexical resolve)
    (hFinite : Set.Finite {key | Walked resolve entry key}) :
    ∃ bound, ∀ fuel, bound ≤ fuel →
      ∃ graph, buildGraph resolve fuel entry = some graph ∧
        Exact resolve entry graph := by
  refine ⟨hFinite.toFinset.card + 1, ?_⟩
  intro fuel hBound
  have hProjects : ∀ key, Walked resolve entry key →
      key ∈ hFinite.toFinset :=
    fun key hWalked => hFinite.mem_toFinset.2 hWalked
  have hFuel : (hFinite.toFinset \ Builder.empty.visited).card < fuel := by
    have hLe := Finset.card_le_card
      (Finset.sdiff_subset (s := hFinite.toFinset)
        (t := Builder.empty.visited))
    omega
  have hTarget : resolve entry ≠ .NotFound →
      Walked resolve entry (lexicallyNormalize entry) ∧
        Ready resolve entry .empty (lexicallyNormalize entry) := by
    intro hFound
    refine ⟨⟨hFound, .refl⟩, ?_, ?_, ?_⟩ <;>
      · intro other hMem
        exact absurd hMem (Finset.notMem_empty _)
  rcases walkFsharp_walks hLexical hProjects fuel entry none .empty hEntry
    (Finset.notMem_empty _) hTarget hFuel with
    ⟨b', edges, fresh, hRun, hWalks, hPerm, hIn⟩
  have hFresh := hWalks.fresh_iff hIn
  have hDeferred : b'.deferred = edges.filter isDeferred := hWalks.deferred
  have hEmpty : Listed .empty := ⟨List.nodup_nil, fun key => by
    simp [Builder.empty]⟩
  have hListed : Listed { b' with deferred := [] } := by
    rcases hWalks.listed hEmpty with ⟨hOnce, hVisited⟩
    exact ⟨hOnce, hVisited⟩
  have hExists : ∀ key ∈ b'.visited, resolve key ≠ .NotFound := by
    intro key hMem
    rcases (hWalks.visited key).1 hMem with hNone | hKey | hBoundary
    · exact absurd hNone (Finset.notMem_empty _)
    · exact ((hFresh key).1 hKey).found hLexical
    · exact found_of_boundary hLexical hBoundary
  have hRecords : Records resolve { b' with deferred := [] }
      (b'.deferred.foldl
        (fun b pending => recordOutputOnly resolve pending.1 pending.2 b)
        { b' with deferred := [] }) b'.deferred := by
    apply recordOutputOnly_foldl hLexical
    exact hExists
  have hEnd := hRecords.listed hListed
  refine ⟨_, by rw [buildGraph, hRun], ?_⟩
  refine ⟨hEnd.once, ?_, ⟨fresh, hWalks.nodup, hFresh, ?_⟩, ?_⟩
  · intro key
    rw [hEnd.visited]
    rw [hDeferred] at hRecords ⊢
    exact visited_iff hWalks hFresh hPerm hRecords key
  · have hVia : viaProblem resolve entry none = [] := by
      unfold viaProblem
      cases resolve entry <;> rfl
    have hPlain : plain b'.problems =
        edges.filterMap (fullProblem resolve) := by
      rw [hWalks.problems, hVia]
      rfl
    rw [hRecords.problems]
    change List.Perm (plain b'.problems ++ _) _
    rw [hPlain, hDeferred]
    apply (problems_perm edges).trans
    apply (hPerm.filterMap _).trans
    rw [List.filterMap_flatMap]
    unfold ownEdges
    simp only [List.filterMap_map]
    exact List.Perm.refl _
  · rw [hRecords.cycles]
    constructor
    · intro hCycle
      rcases hWalks.cyclic hCycle with ⟨_, hNone, _⟩ | hFound
      · cases hNone
      · exact hFound
    · rintro ⟨key, hWalked, hCycle⟩
      by_contra hNone
      have hSettled : Settled .empty [] :=
        fun _ hMem => absurd hMem (Finset.notMem_empty _)
      have hDescends := hWalks.descends [] hSettled hNone trivial
      rw [List.append_nil] at hDescends
      exact hDescends.acyclic ((hFresh key).2 hWalked) hCycle

/- The projects `/A.fsproj` and `/B.fsproj`. -/
def projectA : Path :=
  ⟨true, [.Normal "A.fsproj".toList]⟩

def projectB : Path :=
  ⟨true, [.Normal "B.fsproj".toList]⟩

/-
  Two projects that reference each other.  The first also references
  the output of a project that is missing.
-/
def mutualProjects
    (path : Path) :
    NodeResult :=
  if lexicallyNormalize path = projectA then
    .Resolved [⟨projectB, ⟨10, 20⟩, .Full⟩,
      ⟨⟨true, [.Normal "C.csproj".toList]⟩, ⟨20, 30⟩, .OutputOnly⟩]
      .NoneDeclared none false
  else if lexicallyNormalize path = projectB then
    .Resolved [⟨projectA, ⟨10, 20⟩, .Full⟩] .NoneDeclared none false
  else
    .NotFound

theorem build_graph_exact_mutual :
    ∃ fuel graph, buildGraph mutualProjects fuel projectA = some graph ∧
      Exact mutualProjects projectA graph ∧
      buildGraph mutualProjects 3 projectA = some
        ⟨[⟨projectA, .FSharp, [⟨projectB, ⟨10, 20⟩, .Full⟩,
              ⟨⟨true, [.Normal "C.csproj".toList]⟩, ⟨20, 30⟩, .OutputOnly⟩],
              .NoneDeclared, none, false⟩,
            ⟨projectB, .FSharp, [⟨projectA, ⟨10, 20⟩, .Full⟩],
              .NoneDeclared, none, false⟩],
          [.Cycle projectB projectA ⟨10, 20⟩,
            .NotFound projectA ⟨true, [.Normal "C.csproj".toList]⟩
              ⟨20, 30⟩]⟩ := by
  have hLexical : Lexical mutualProjects := by
    intro p q hSame
    unfold mutualProjects
    rw [hSame]
  have hFinite : Set.Finite {key | Walked mutualProjects projectA key} := by
    apply Set.Finite.subset (Set.toFinite {projectA, projectB})
    rintro key ⟨-, hPath⟩
    rcases ReflTransGen.cases_tail hPath with rfl | ⟨_, _, hStep⟩
    · exact .inl (by decide)
    · rcases hStep with ⟨e, -, -, -, hFound, rfl⟩
      unfold mutualProjects at hFound
      split at hFound
      · next hA => exact .inl hA
      · split at hFound
        · next hB => exact .inr hB
        · exact absurd rfl hFound
  rcases build_graph_exact mutualProjects projectA (by decide) hLexical
    hFinite with ⟨bound, hExact⟩
  rcases hExact bound (Nat.le_refl _) with ⟨graph, hRun, hGraph⟩
  exact ⟨bound, graph, hRun, hGraph, by decide⟩

end ProjectGraph

end Lsp

end Borzoi
