import Borzoi.Sema.Incremental
import Mathlib.Data.List.TakeWhile

/-
  Inference folded over Compile order.

  Each file publishes the types of its top-level values to the files
  after it.  The reusing fold keeps the inferred files of an earlier fold
  for the leading files whose resolution is the same allocation.

  Main declarations:
    * `PrecedingTypes`
    * `PrecedingTypes.publish`
    * `InferredProject`
    * `inferProjectReusing`
    * `Session`
    * `infer_reusing_matches_scratch`
-/

namespace Borzoi

namespace Resolve

inductive PrecedingGap where
  | notInferred
  | notWalked
  | untyped
  | signature
  | inlineBinding
  | rejectedUse
  | notAValue
deriving DecidableEq

/- What a file publishes for one binder, with `Y` the types. -/
inductive ModuleValue
    (Y : Type) where
  | typed (ty : Y)
  | declined (gap : PrecedingGap)

structure PrecedingTypes
    (Y : Type) where
  items : SortedMap ItemId (ModuleValue Y) compare := .empty
  types : SortedMap (Nat × Nat) (Path × Nat) lexOrd.compare := .empty

/- Inference of one file, and what is read of its result. -/
structure Inference
    (T E W I Y : Type) where
  inferFile :
    T → ResolvedFile W → AssemblyEnv E → PrecedingTypes Y → I
  projectTypes : I → DefId → Option (Path × Nat)
  moduleValue : I → DefId → Option (ModuleValue Y)

section Publish

variable {T E W I Y : Type} (inference : Inference T E W I Y)

/- The verdict for an export that is bound in the file's own arena. -/
def ownValue
    (resolved : ResolvedFile W)
    (inferred : Option I)
    (d : DefId) :
    ModuleValue Y :=
  match resolved.defs[d]? with
  | some ⟨_, .value _⟩ =>
      match inferred with
      | none => .declined .notInferred
      | some file => (inference.moduleValue file d).getD (.declined .notWalked)
  | _ => .declined .notAValue

def verdict
    (resolved : ResolvedFile W)
    (inferred : Option I)
    (screened : Bool)
    (it : ExportedItem) :
    ModuleValue Y :=
  match it.case, it.ownDef with
  | some _, _ => .declined .notAValue
  | none, none => .declined .signature
  | none, some d =>
      if screened then .declined .signature
      else ownValue inference resolved inferred d

namespace PrecedingTypes

def publishType
    (file : Nat)
    (inferred : I)
    (types : SortedMap (Nat × Nat) (Path × Nat) lexOrd.compare)
    (entry : DeclaredType × Nat) :
    SortedMap (Nat × Nat) (Path × Nat) lexOrd.compare :=
  match inference.projectTypes inferred entry.1.defId with
  | some ty => types.insert (file, entry.2) ty
  | none => types

/- `none` is the failed assertion that no item is published twice. -/
def publishItem
    (resolved : ResolvedFile W)
    (inferred : Option I)
    (screened : Bool)
    (items : SortedMap ItemId (ModuleValue Y) compare)
    (it : ExportedItem) :
    Option (SortedMap ItemId (ModuleValue Y) compare) :=
  match items.get it.id with
  | some _ => none
  | none => some (items.insert it.id (verdict inference resolved inferred screened it))

def publish
    (published : PrecedingTypes Y)
    (file : Nat)
    (resolved : ResolvedFile W)
    (inferred : Option I)
    (screened : Bool) :
    Option (PrecedingTypes Y) :=
  let types :=
    match inferred.filter fun _ => !screened with
    | some inferredFile =>
        resolved.placedTypes.zipIdx.foldl
          (publishType inference file inferredFile) published.types
    | none => published.types
  (resolved.exports.foldlM (publishItem inference resolved inferred screened)
    published.items).map (⟨·, types⟩)

end PrecedingTypes

end Publish

structure InferredProject
    (W I Y : Type) where
  files : List (Option I)
  resolved : ResolvedProject W
  published : PrecedingTypes Y

section Infer

variable {T E W I Y : Type} (inference : Inference T E W I Y)
variable (env : AssemblyEnv E)

def InferredProject.empty :
    InferredProject W I Y :=
  ⟨[], [], {}⟩

/- How many leading files share their allocation with `resolved`. -/
def InferredProject.sharedPrefix
    (project : InferredProject W I Y)
    (resolved : ResolvedProject W) :
    Nat :=
  ((project.resolved.zip resolved).takeWhile fun pair =>
    pair.1.ptr == pair.2.ptr).length

structure InferState
    (I Y : Type) where
  published : PrecedingTypes Y
  out : List (Option I)

/- The file at `i` inferred after what the files before it published. -/
def inferSlot
    (pf : ProjectFile T)
    (rf : ResolvedFile W)
    (published : PrecedingTypes Y) :
    Option I :=
  match pf.file with
  | .impl tree => some (inference.inferFile tree rf env published)
  | .sig _ => none

def inferStep
    (files : List (ProjectFile T))
    (prev : InferredProject W I Y)
    (reuse : Nat)
    (st : InferState I Y)
    (entry : Arc (ResolvedFile W) × Nat) :
    Option (InferState I Y) :=
  match files[entry.2]? with
  | none => none
  | some pf =>
      let rf := entry.1.val
      let inferred :=
        if entry.2 < reuse then prev.files[entry.2]?.join
        else inferSlot inference env pf rf st.published
      let screened :=
        pf.isImpl && (partnerAt (signaturePartners files) entry.2).isSome
      (st.published.publish inference entry.2 rf inferred screened).map
        fun published => ⟨published, st.out ++ [inferred]⟩

def inferFold
    (files : List (ProjectFile T))
    (resolved : ResolvedProject W)
    (prev : InferredProject W I Y)
    (reuse : Nat) :
    Option (InferState I Y) :=
  resolved.zipIdx.foldlM (inferStep inference env files prev reuse) ⟨{}, []⟩

/- `none` is a failed assertion. -/
def inferProjectReusing
    (files : List (ProjectFile T))
    (resolved : ResolvedProject W)
    (prev : InferredProject W I Y) :
    Option (InferredProject W I Y) :=
  if resolved.length ≤ files.length then
    (inferFold inference env files resolved prev
      (prev.sharedPrefix resolved)).map
        fun st => ⟨st.out, resolved, st.published⟩
  else none

def inferProject
    (files : List (ProjectFile T))
    (resolved : ResolvedProject W) :
    Option (InferredProject W I Y) :=
  inferProjectReusing inference env files resolved .empty

end Infer

section Once

variable {T E W I Y : Type} {inference : Inference T E W I Y}
variable {resolved : ResolvedFile W} {inferred : Option I} {screened : Bool}

/- Every published item is numbered below `bound`. -/
def PublishedBelow
    (items : SortedMap ItemId (ModuleValue Y) compare)
    (bound : Nat) :
    Prop :=
  ∀ id, bound ≤ id → items.get id = none

theorem publishItems_some
    (inference : Inference T E W I Y)
    (resolved : ResolvedFile W)
    (inferred : Option I)
    (screened : Bool)
    {exports : List ExportedItem}
    {base : Nat}
    {items : SortedMap ItemId (ModuleValue Y) compare}
    (hNumbered : ∀ k it, exports[k]? = some it → it.id = base + k)
    (hBelow : PublishedBelow items base) :
    ∃ items', exports.foldlM
        (PrecedingTypes.publishItem inference resolved inferred screened)
        items = some items' ∧
      PublishedBelow items' (base + exports.length) := by
  induction exports generalizing base items with
  | nil =>
      exact ⟨items, rfl, hBelow⟩
  | cons it rest ih =>
      have hId : it.id = base := hNumbered 0 it rfl
      have hFresh : items.get it.id = none := by
        apply hBelow
        rw [hId]
      have hRest : ∀ k it', rest[k]? = some it' → it'.id = base + 1 + k := by
        intro k it' hGet
        have hNext := hNumbered (k + 1) it' (by rw [List.getElem?_cons_succ, hGet])
        rw [hNext, Nat.add_assoc, Nat.add_comm 1 k]
      have hInserted : PublishedBelow
          (items.insert it.id (verdict inference resolved inferred screened it))
          (base + 1) := by
        intro id hLe
        rw [SortedMap.get_insert_of_ne]
        · exact hBelow id (Nat.le_of_succ_le hLe)
        · rw [hId]
          exact Nat.ne_of_gt hLe
      rcases ih hRest hInserted with ⟨items', hFold, hItems'⟩
      refine ⟨items', ?_, ?_⟩
      · rw [List.foldlM_cons]
        unfold PrecedingTypes.publishItem at hFold ⊢
        rw [hFresh]
        exact hFold
      · rw [List.length_cons, Nat.add_comm rest.length, ← Nat.add_assoc]
        exact hItems'

theorem publish_some
    {published : PrecedingTypes Y}
    {file : Nat}
    (hBelow : PublishedBelow published.items resolved.itemBase) :
    ∃ published', published.publish inference file resolved inferred screened =
        some published' ∧
      PublishedBelow published'.items
        (resolved.itemBase + resolved.exports.length) := by
  rcases publishItems_some inference resolved inferred screened
    resolved.numbered hBelow with ⟨items', hFold, hItems'⟩
  unfold PrecedingTypes.publish
  rw [hFold]
  exact ⟨_, rfl, hItems'⟩

end Once

variable {A : Type}

section Prefixes

variable {T E W I Y : Type} {inference : Inference T E W I Y}
variable {env : AssemblyEnv E} {files : List (ProjectFile T)}
variable {resolved : ResolvedProject W} {prev : InferredProject W I Y}
variable {arc : Arc (ResolvedFile W)} {pf : ProjectFile T}
variable {st st' : InferState I Y} {reuse i n : Nat}

theorem foldlM_zipIdx_take_succ
    {S A : Type}
    {f : S → A × Nat → Option S}
    {s : S}
    {xs : List A}
    {x : A}
    (hGet : xs[n]? = some x) :
    (xs.take (n + 1)).zipIdx.foldlM f s =
      ((xs.take n).zipIdx.foldlM f s).bind fun s' => f s' (x, n) := by
  have hLt := (List.getElem?_eq_some_iff.1 hGet).1
  have hTake : xs.take (n + 1) = xs.take n ++ [x] := by
    rw [List.take_add_one, hGet]
    rfl
  have hLength : (xs.take n).length = n :=
    List.length_take_of_le (Nat.le_of_lt hLt)
  rw [hTake, List.zipIdx_append, List.foldlM_append, hLength, Nat.zero_add]
  apply congrArg (Option.bind ((xs.take n).zipIdx.foldlM f s))
  funext s'
  rw [List.zipIdx_singleton, List.foldlM_cons]
  exact bind_pure _

def exportsBefore
    (project : ResolvedProject W)
    (i : Nat) :
    Nat :=
  ((project.take i).map fun arc => arc.val.exports.length).sum

/- Each file's items are numbered after those of the files before it. -/
def NumberedProject
    (project : ResolvedProject W) :
    Prop :=
  ∀ i arc, project[i]? = some arc → arc.val.itemBase = exportsBefore project i

theorem exportsBefore_succ
    (hGet : resolved[i]? = some arc) :
    exportsBefore resolved (i + 1) =
      exportsBefore resolved i + arc.val.exports.length := by
  unfold exportsBefore
  rw [List.take_add_one, hGet, List.map_append, List.sum_append]
  rfl

/- The state before file `n` of the fold. -/
def inferAt
    (inference : Inference T E W I Y)
    (env : AssemblyEnv E)
    (files : List (ProjectFile T))
    (resolved : ResolvedProject W)
    (prev : InferredProject W I Y)
    (reuse n : Nat) :
    Option (InferState I Y) :=
  inferFold inference env files (resolved.take n) prev reuse

theorem inferAt_succ
    (hGet : resolved[n]? = some arc) :
    inferAt inference env files resolved prev reuse (n + 1) =
      (inferAt inference env files resolved prev reuse n).bind fun st =>
        inferStep inference env files prev reuse st (arc, n) :=
  foldlM_zipIdx_take_succ hGet

theorem inferStep_out
    (hStep : inferStep inference env files prev reuse st (arc, n) = some st') :
    ∃ inferred, st'.out = st.out ++ [inferred] := by
  unfold inferStep at hStep
  split at hStep
  · cases hStep
  · rcases Option.map_eq_some_iff.1 hStep with ⟨published, _, hState⟩
    rw [← hState]
    exact ⟨_, rfl⟩

/- No assertion fails, and every item published so far is numbered before. -/
theorem inferAt_some
    (hBound : resolved.length ≤ files.length)
    (hNumbered : NumberedProject resolved)
    (hLe : n ≤ resolved.length) :
    ∃ st, inferAt inference env files resolved prev reuse n = some st ∧
      PublishedBelow st.published.items (exportsBefore resolved n) ∧
      st.out.length = n := by
  induction n with
  | zero =>
      refine ⟨⟨{}, []⟩, rfl, ?_, rfl⟩
      intro id _
      rfl
  | succ n ih =>
      rcases ih (Nat.le_of_succ_le hLe) with ⟨st, hState, hBelow, hOut⟩
      have hArc := List.getElem?_eq_getElem (Nat.lt_of_succ_le hLe)
      have hFile := List.getElem?_eq_getElem
        (Nat.lt_of_lt_of_le (Nat.lt_of_succ_le hLe) hBound)
      rw [← hNumbered n _ hArc] at hBelow
      have hPublish : ∀ inferred screened, ∃ published',
          st.published.publish inference n (resolved[n]).val inferred screened =
            some published' ∧
          PublishedBelow published'.items (exportsBefore resolved (n + 1)) := by
        intro inferred screened
        rw [exportsBefore_succ hArc, ← hNumbered n _ hArc]
        exact publish_some hBelow
      rw [inferAt_succ hArc, hState, Option.bind_some]
      unfold inferStep
      dsimp only
      rw [hFile]
      dsimp only
      rcases hPublish _ _ with ⟨published', hPublished, hBelow'⟩
      rw [hPublished]
      refine ⟨_, rfl, hBelow', ?_⟩
      rw [List.length_append, hOut]
      rfl

------------------------------------------------------------
-- Shared Prefixes
------------------------------------------------------------

/- The first `k` slots hold the same files, resolved and paired alike. -/
def AgreeBelow
    (files files' : List (ProjectFile T))
    (resolved resolved' : ResolvedProject W)
    (k : Nat) :
    Prop :=
  ∀ i, i < k → ∃ arc arc', resolved[i]? = some arc ∧ resolved'[i]? = some arc' ∧
    arc.val = arc'.val ∧ files[i]? = files'[i]? ∧
    partnerAt (signaturePartners files) i =
      partnerAt (signaturePartners files') i

theorem get_of_prefix
    {xs ys : List A}
    {x : A}
    (hPrefix : xs <+: ys)
    (hGet : xs[i]? = some x) :
    ys[i]? = some x := by
  rcases List.getElem?_eq_some_iff.1 hGet with ⟨hLt, hx⟩
  rw [List.prefix_iff_getElem?.1 hPrefix i hLt, hx]

theorem sharedPrefix_get
    (hLt : i < prev.sharedPrefix resolved) :
    ∃ arc arc', prev.resolved[i]? = some arc ∧ resolved[i]? = some arc' ∧
      arc.ptr = arc'.ptr := by
  unfold InferredProject.sharedPrefix at hLt
  have hGet := List.getElem?_eq_getElem hLt
  have hHolds := List.mem_takeWhile_imp (List.getElem_mem hLt)
  rcases hPair : ((prev.resolved.zip resolved).takeWhile fun pair =>
    pair.1.ptr == pair.2.ptr)[i] with ⟨arc, arc'⟩
  rw [hPair] at hGet hHolds
  have hZip : (prev.resolved.zip resolved)[i]? = some (arc, arc') :=
    get_of_prefix (List.takeWhile_prefix _) hGet
  rcases List.getElem?_zip_eq_some.1 hZip with ⟨hOld, hNew⟩
  exact ⟨arc, arc', hOld, hNew, eq_of_beq hHolds⟩

theorem sharedPrefix_empty :
    (InferredProject.empty : InferredProject W I Y).sharedPrefix resolved = 0 :=
  rfl

variable {files' : List (ProjectFile T)} {resolved' : ResolvedProject W}
variable {prev' : InferredProject W I Y} {k m : Nat}

theorem inferAt_agree
    (hAgree : AgreeBelow files files' resolved resolved' k)
    (hLe : n ≤ k) :
    inferAt inference env files resolved prev 0 n =
      inferAt inference env files' resolved' prev' 0 n := by
  induction n with
  | zero =>
      rfl
  | succ n ih =>
      rcases hAgree n (Nat.lt_of_succ_le hLe) with
        ⟨arc, arc', hArc, hArc', hVal, hFile, hPartner⟩
      rw [inferAt_succ hArc, inferAt_succ hArc', ih (Nat.le_of_succ_le hLe)]
      congr 1
      funext st
      unfold inferStep
      dsimp only
      rw [hFile, hVal, hPartner]
      rfl

theorem inferAt_out_prefix
    (hState : inferAt inference env files resolved prev reuse n = some st)
    (hLe : n ≤ m)
    (hBound : m ≤ resolved.length)
    (hLater : inferAt inference env files resolved prev reuse m = some st') :
    st.out <+: st'.out := by
  induction m generalizing st' with
  | zero =>
      have hZero : n = 0 := Nat.le_zero.1 hLe
      subst hZero
      rw [hState] at hLater
      cases hLater
      exact List.prefix_refl _
  | succ m ih =>
      by_cases hHere : n = m + 1
      · subst hHere
        rw [hState] at hLater
        cases hLater
        exact List.prefix_refl _
      · have hArc := List.getElem?_eq_getElem (Nat.lt_of_succ_le hBound)
        rw [inferAt_succ hArc] at hLater
        rcases Option.bind_eq_some_iff.1 hLater with ⟨mid, hMid, hStep⟩
        have hPrefix := ih (by omega) (Nat.le_of_succ_le hBound) hMid
        rcases inferStep_out hStep with ⟨inferred, hOut⟩
        rw [hOut]
        exact hPrefix.trans (List.prefix_append _ _)

/- File `n` of a scratch fold is inferred in the state before it. -/
theorem inferAt_scratch_get
    (hFile : files[n]? = some pf)
    (hArc : resolved[n]? = some arc)
    (hState : inferAt inference env files resolved prev 0 n = some st)
    (hOut : st.out.length = n)
    (hLast : inferAt inference env files resolved prev 0 resolved.length =
      some st') :
    st'.out[n]? = some (inferSlot inference env pf arc.val st.published) := by
  have hLt := (List.getElem?_eq_some_iff.1 hArc).1
  have hStep : ∃ next, inferAt inference env files resolved prev 0 (n + 1) =
      some next ∧
      next.out = st.out ++ [inferSlot inference env pf arc.val st.published] := by
    cases hNext : inferAt inference env files resolved prev 0 (n + 1) with
    | none =>
        -- A fold that fails at one file has no last state.
        exfalso
        have hNone : ∀ j, n + 1 ≤ j → j ≤ resolved.length →
            inferAt inference env files resolved prev 0 j = none := by
          intro j hFrom hTo
          induction j with
          | zero => omega
          | succ j ih =>
              by_cases hHere : n + 1 = j + 1
              · rw [← hHere]
                exact hNext
              · have hArc' := List.getElem?_eq_getElem (Nat.lt_of_succ_le hTo)
                rw [inferAt_succ hArc', ih (by omega) (by omega)]
                rfl
        rw [hNone resolved.length hLt (Nat.le_refl _)] at hLast
        cases hLast
    | some next =>
        refine ⟨next, rfl, ?_⟩
        rw [inferAt_succ hArc, hState, Option.bind_some] at hNext
        unfold inferStep at hNext
        dsimp only at hNext
        rw [hFile] at hNext
        dsimp only at hNext
        rcases Option.map_eq_some_iff.1 hNext with ⟨published, _, hEq⟩
        rw [← hEq]
        rfl
  rcases hStep with ⟨next, hNext, hOutNext⟩
  have hPrefix := inferAt_out_prefix hNext hLt (Nat.le_refl _) hLast
  apply get_of_prefix hPrefix
  rw [hOutNext, List.getElem?_append_right (Nat.le_of_eq hOut), hOut,
    Nat.sub_self]
  rfl

theorem inferAt_out_length
    (hLe : n ≤ resolved.length)
    (hState : inferAt inference env files resolved prev reuse n = some st) :
    st.out.length = n := by
  induction n generalizing st with
  | zero =>
      cases hState
      rfl
  | succ n ih =>
      have hArc := List.getElem?_eq_getElem (Nat.lt_of_succ_le hLe)
      rw [inferAt_succ hArc] at hState
      rcases Option.bind_eq_some_iff.1 hState with ⟨mid, hMid, hStep⟩
      rcases inferStep_out hStep with ⟨inferred, hOut⟩
      rw [hOut, List.length_append, ih (Nat.le_of_succ_le hLe) hMid]
      rfl

/- Reusing the files of a shared prefix changes nothing. -/
theorem inferAt_reusing
    {last : InferState I Y}
    (hAgree : AgreeBelow files' files resolved' resolved reuse)
    (hLast : inferAt inference env files' resolved' .empty 0 resolved'.length =
      some last)
    (hPrev : prev.files = last.out)
    (hBound : resolved.length ≤ files.length)
    (hLe : n ≤ resolved.length) :
    inferAt inference env files resolved prev reuse n =
      inferAt inference env files resolved .empty 0 n := by
  induction n with
  | zero =>
      rfl
  | succ n ih =>
      have hArc := List.getElem?_eq_getElem (Nat.lt_of_succ_le hLe)
      have hFile := List.getElem?_eq_getElem
        (Nat.lt_of_lt_of_le (Nat.lt_of_succ_le hLe) hBound)
      rw [inferAt_succ hArc, inferAt_succ hArc, ih (Nat.le_of_succ_le hLe)]
      cases hState : inferAt inference env files resolved .empty 0 n with
      | none =>
          rfl
      | some st =>
          rw [Option.bind_some, Option.bind_some]
          unfold inferStep
          dsimp only
          rw [hFile]
          dsimp only
          by_cases hShared : n < reuse
          · rcases hAgree n hShared with
              ⟨arc, arc', hOld, hNew, hVal, hSameFile, _⟩
            rw [hArc] at hNew
            cases hNew
            rw [hFile] at hSameFile
            have hOldState : inferAt inference env files' resolved' .empty 0 n =
                some st := by
              rw [inferAt_agree hAgree (Nat.le_of_lt hShared)]
              exact hState
            have hOut := inferAt_out_length
              (Nat.le_of_lt (List.getElem?_eq_some_iff.1 hOld).1) hOldState
            have hGet := inferAt_scratch_get hSameFile hOld hOldState hOut hLast
            rw [if_pos hShared, if_neg (Nat.not_lt_zero n), hPrev, hGet, hVal]
            rfl
          · rw [if_neg hShared, if_neg (Nat.not_lt_zero n)]

theorem inferAt_length :
    inferAt inference env files resolved prev reuse resolved.length =
      inferFold inference env files resolved prev reuse := by
  unfold inferAt
  rw [List.take_length]

end Prefixes

section Allocations

variable {T E W : Type} {walk : Walk T E W} {env : AssemblyEnv E}
variable {pf : ProjectFile T} {arc : Arc (ResolvedFile W)} {st : FoldState W}
variable {kept : Nat → Arc (ResolvedFile W) → Prop} {partner : Option Nat}
variable {heap i n : Nat}

theorem get_concat
    {xs : List A}
    {x y : A}
    (hGet : (xs ++ [x])[i]? = some y) :
    xs[i]? = some y ∨ i = xs.length ∧ y = x := by
  by_cases hLt : i < xs.length
  · rw [List.getElem?_append_left hLt] at hGet
    exact Or.inl hGet
  · rw [List.getElem?_append_right (Nat.le_of_not_lt hLt)] at hGet
    have hZero : i - xs.length = 0 := by
      have hBound := (List.getElem?_eq_some_iff.1 hGet).1
      rw [List.length_singleton] at hBound
      omega
    rw [hZero] at hGet
    cases hGet
    exact Or.inr ⟨by omega, rfl⟩

/-
  Of the files that a fold from `heap` has resolved, those allocated
  before are kept in their slots, and the others are allocated once.
-/
structure Allocated
    (kept : Nat → Arc (ResolvedFile W) → Prop)
    (heap : Nat)
    (st : FoldState W) :
    Prop where
  start : heap ≤ st.heap
  bound : ∀ (i : Nat) (arc : Arc (ResolvedFile W)),
    st.resolved[i]? = some arc → arc.ptr < st.heap
  before : ∀ (i : Nat) (arc : Arc (ResolvedFile W)),
    st.resolved[i]? = some arc → arc.ptr < heap → kept i arc
  once : ∀ (i j : Nat) (arc arc' : Arc (ResolvedFile W)),
    st.resolved[i]? = some arc → st.resolved[j]? = some arc' →
      heap ≤ arc.ptr → arc.ptr = arc'.ptr → i = j

theorem Allocated.push_fresh
    {rf : ResolvedFile W}
    (hState : Allocated kept heap st) :
    Allocated kept heap
      (st.push walk env ⟨st.heap, rf⟩ pf i partner (st.heap + 1)) := by
  constructor
  · exact Nat.le_succ_of_le hState.start
  · intro j arc hGet
    rcases get_concat hGet with hOld | ⟨_, rfl⟩
    · exact Nat.lt_succ_of_lt (hState.bound j arc hOld)
    · exact Nat.lt_succ_self _
  · intro j arc hGet hBefore
    rcases get_concat hGet with hOld | ⟨_, rfl⟩
    · exact hState.before j arc hOld hBefore
    · exact absurd hState.start (Nat.not_le_of_lt hBefore)
  · intro j k arc arc' hGet hGet' hFresh hSame
    rcases get_concat hGet with hOld | ⟨hj, rfl⟩
    · rcases get_concat hGet' with hOld' | ⟨hk, rfl⟩
      · exact hState.once j k arc arc' hOld hOld' hFresh hSame
      · exact absurd hSame (Nat.ne_of_lt (hState.bound j arc hOld))
    · rcases get_concat hGet' with hOld' | ⟨hk, rfl⟩
      · exact absurd hSame.symm (Nat.ne_of_lt (hState.bound k arc' hOld'))
      · rw [hj, hk]

theorem Allocated.push_kept
    (hState : Allocated kept heap st)
    (hBefore : arc.ptr < heap)
    (hKept : kept st.resolved.length arc) :
    Allocated kept heap (st.push walk env arc pf i partner st.heap) := by
  constructor
  · exact hState.start
  · intro j arc' hGet
    rcases get_concat hGet with hOld | ⟨_, rfl⟩
    · exact hState.bound j arc' hOld
    · exact Nat.lt_of_lt_of_le hBefore hState.start
  · intro j arc' hGet hLt
    rcases get_concat hGet with hOld | ⟨rfl, rfl⟩
    · exact hState.before j arc' hOld hLt
    · exact hKept
  · intro j k a a' hGet hGet' hFresh hSame
    rcases get_concat hGet with hOld | ⟨_, rfl⟩
    · rcases get_concat hGet' with hOld' | ⟨_, rfl⟩
      · exact hState.once j k a a' hOld hOld' hFresh hSame
      · rw [hSame] at hFresh
        exact absurd hFresh (Nat.not_le_of_lt hBefore)
    · exact absurd hFresh (Nat.not_le_of_lt hBefore)

variable {th : Threaded}

theorem resolveSlot_itemBase
    {values : List (ResolvedFile W)} :
    (resolveSlot walk env th values pf i partner).itemBase =
      th.preceding.count := by
  have hRead : (readSlot walk env pf th.preceding th.ext).itemBase =
      th.preceding.count := by
    unfold readSlot
    split
    · rfl
    · exact walk.numbered _ _ _ _
  unfold resolveSlot materialise
  split
  · split
    · exact hRead
    · exact hRead
  · exact hRead

theorem threadPast_count
    {values : List (ResolvedFile W)}
    {rf : ResolvedFile W} :
    (threadPast walk env th values rf pf i partner).preceding.count =
      th.preceding.count + rf.exports.length := by
  unfold threadPast Threaded.noteShadow
  split
  · exact ProjectItems.extendWith_count
  · exact ProjectItems.extendWith_count

/- The accumulator counts the items of the files resolved so far. -/
structure Counted
    (st : FoldState W) :
    Prop where
  count : st.threaded.preceding.count =
    exportsBefore st.resolved st.resolved.length
  numbered : NumberedProject st.resolved

theorem exportsBefore_append
    {project : ResolvedProject W}
    (hLe : i ≤ project.length) :
    exportsBefore (project ++ [arc]) i = exportsBefore project i := by
  unfold exportsBefore
  rw [List.take_append_of_le_length hLe]

theorem Counted.push
    {heap' : Nat}
    (hState : Counted st)
    (hBase : arc.val.itemBase = st.threaded.preceding.count) :
    Counted (st.push walk env arc pf i partner heap') := by
  constructor
  · change (threadPast walk env st.threaded st.values arc.val pf i
      partner).preceding.count = _
    have hLast : (st.resolved ++ [arc])[st.resolved.length]? = some arc :=
      List.getElem?_concat_length
    rw [threadPast_count, hState.count]
    change _ = exportsBefore (st.resolved ++ [arc])
      (st.resolved ++ [arc]).length
    rw [List.length_append, List.length_singleton, exportsBefore_succ hLast,
      exportsBefore_append (Nat.le_refl _)]
  · intro j a hGet
    change a.val.itemBase = exportsBefore (st.resolved ++ [arc]) j
    rcases get_concat hGet with hOld | ⟨rfl, rfl⟩
    · have hLt := (List.getElem?_eq_some_iff.1 hOld).1
      rw [exportsBefore_append (Nat.le_of_lt hLt)]
      exact hState.numbered j a hOld
    · rw [exportsBefore_append (Nat.le_refl _), hBase, hState.count]

theorem Allocated.start_state :
    Allocated kept heap (FoldState.start env heap : FoldState W) := by
  constructor
  · exact Nat.le_refl _
  · intro j arc hGet
    cases hGet
  · intro j arc hGet
    cases hGet
  · intro j k arc arc' hGet
    cases hGet

theorem Counted.start_state :
    Counted (FoldState.start env heap : FoldState W) := by
  constructor
  · rfl
  · intro j arc hGet
    cases hGet

theorem coldFold_allocated
    {files : List (ProjectFile T)}
    (hLe : n ≤ files.length) :
    Allocated (fun _ _ => False) heap (coldFold walk env files n heap) ∧
      Counted (coldFold walk env files n heap) := by
  induction n with
  | zero =>
      exact ⟨Allocated.start_state, Counted.start_state⟩
  | succ n ih =>
      rcases ih (Nat.le_of_succ_le hLe) with ⟨hAllocated, hCounted⟩
      have hGet := List.getElem?_eq_getElem (Nat.lt_of_succ_le hLe)
      unfold coldFold at hAllocated hCounted ⊢
      rw [foldl_zipIdx_take_succ hGet]
      constructor
      · exact hAllocated.push_fresh
      · exact hCounted.push resolveSlot_itemBase

section Incremental

variable [DecidableEq T] {prevFiles newFiles : List (ProjectFile T)}
variable {prev : ResolvedProject W}

/- A previous slot that the new list keeps as it was. -/
def KeptSlot
    (prevFiles newFiles : List (ProjectFile T))
    (prev : ResolvedProject W)
    (i : Nat)
    (arc : Arc (ResolvedFile W)) :
    Prop :=
  prev[i]? = some arc ∧ prevFiles[i]? = newFiles[i]? ∧
    partnerAt (signaturePartners prevFiles) i =
      partnerAt (signaturePartners newFiles) i

/- What holds of the incremental fold before slot `n`. -/
structure IncrementalFacts
    (prevFiles newFiles : List (ProjectFile T))
    (prev : ResolvedProject W)
    (heap n : Nat)
    (st : IncrementalState W) :
    Prop where
  length : st.fold.resolved.length = n
  allocated : Allocated (KeptSlot prevFiles newFiles prev) heap st.fold
  counted : Counted st.fold
  aligned : st.inSync = true → n ≤ prev.length ∧
    exportsBefore st.fold.resolved n = exportsBefore prev n

theorem incrementalStep_facts
    {st : IncrementalState W}
    (hPrev : ∀ (i : Nat) (arc : Arc (ResolvedFile W)),
      prev[i]? = some arc → arc.ptr < heap)
    (hNumbered : NumberedProject prev)
    (hFile : newFiles[n]? = some pf)
    (hState : IncrementalFacts prevFiles newFiles prev heap n st) :
    IncrementalFacts prevFiles newFiles prev heap (n + 1)
      (incrementalStep walk env prevFiles prev newFiles st (pf, n)) := by
  unfold incrementalStep
  dsimp only
  split
  · next arc hReuse =>
      rcases reusable_some hReuse with ⟨hIn, hOld, hArc, hPartner⟩
      rcases hState.aligned hIn with ⟨_, hAligned⟩
      have hLast : (st.fold.resolved ++ [arc])[n]? = some arc := by
        rw [← hState.length]
        exact List.getElem?_concat_length
      constructor
      · change (st.fold.resolved ++ [arc]).length = n + 1
        rw [List.length_append, hState.length]
        rfl
      · apply hState.allocated.push_kept (hPrev n arc hArc)
        rw [hState.length]
        exact ⟨hArc, hOld.trans hFile.symm, hPartner⟩
      · apply hState.counted.push
        rw [hNumbered n arc hArc, ← hAligned, hState.counted.count,
          hState.length]
      · intro _
        refine ⟨(List.getElem?_eq_some_iff.1 hArc).1, ?_⟩
        change exportsBefore (st.fold.resolved ++ [arc]) (n + 1) = _
        rw [exportsBefore_succ hLast, exportsBefore_succ hArc,
          exportsBefore_append (Nat.le_of_eq hState.length.symm), hAligned]
  · next hReuse =>
      constructor
      · change (st.fold.resolved ++ [_]).length = n + 1
        rw [List.length_append, hState.length]
        rfl
      · exact hState.allocated.push_fresh
      · exact hState.counted.push resolveSlot_itemBase
      · intro hStays
        rw [Bool.and_eq_true, Bool.and_eq_true] at hStays
        rcases hStays with ⟨⟨hIn, hPairing⟩, hSame⟩
        rcases samePairing_spec hPairing with ⟨_, arc, _, hArc, _, _⟩
        rcases hState.aligned hIn with ⟨_, hAligned⟩
        rw [hArc, Option.any_some] at hSame
        have hExports := (sameThreading_spec hSame).1.exports
        refine ⟨(List.getElem?_eq_some_iff.1 hArc).1, ?_⟩
        generalize resolveSlot walk env st.fold.threaded st.fold.values pf n
          (partnerAt (signaturePartners newFiles) n) = rf at hExports
        change exportsBefore (st.fold.resolved ++ [⟨st.fold.heap, rf⟩])
          (n + 1) = _
        have hLast : (st.fold.resolved ++ [⟨st.fold.heap, rf⟩])[n]? =
            some ⟨st.fold.heap, rf⟩ := by
          rw [← hState.length]
          exact List.getElem?_concat_length
        rw [exportsBefore_succ hLast, exportsBefore_succ hArc,
          exportsBefore_append (Nat.le_of_eq hState.length.symm), hAligned,
          hExports]

theorem incrementalFold_facts
    (hPrev : ∀ (i : Nat) (arc : Arc (ResolvedFile W)),
      prev[i]? = some arc → arc.ptr < heap)
    (hNumbered : NumberedProject prev)
    (hLe : n ≤ newFiles.length) :
    IncrementalFacts prevFiles newFiles prev heap n
      (incrementalFold walk env prevFiles prev newFiles n heap) := by
  induction n with
  | zero =>
      constructor
      · rfl
      · exact Allocated.start_state
      · exact Counted.start_state
      · intro _
        exact ⟨Nat.zero_le _, rfl⟩
  | succ n ih =>
      have hFile := List.getElem?_eq_getElem (Nat.lt_of_succ_le hLe)
      have hStep : incrementalFold walk env prevFiles prev newFiles (n + 1) heap =
          incrementalStep walk env prevFiles prev newFiles
            (incrementalFold walk env prevFiles prev newFiles n heap)
            (newFiles[n], n) :=
        foldl_zipIdx_take_succ hFile
      rw [hStep]
      exact incrementalStep_facts hPrev hNumbered hFile
        (ih (Nat.le_of_succ_le hLe))

end Incremental

end Allocations

------------------------------------------------------------
-- Sessions
------------------------------------------------------------

structure Step
    (T W I Y : Type) where
  files : List (ProjectFile T)
  resolved : ResolvedProject W
  inferred : InferredProject W I Y

section Sessions

variable {T E W I Y : Type} [DecidableEq T] (walk : Walk T E W)
variable (inference : Inference T E W I Y) (env : AssemblyEnv E)

/- The next resolved project: cold, or from the latest one. -/
inductive Refold
    (heap : Nat) :
    List (Step T W I Y) → List (ProjectFile T) → ResolvedProject W → Nat →
      Prop where
  | cold
      {steps : List (Step T W I Y)}
      {files : List (ProjectFile T)}
      {resolved : ResolvedProject W}
      {horizon heap' : Nat}
      (hFold : resolveProjectFilesPrefix walk env files horizon heap =
        some (resolved, heap')) :
      Refold heap steps files resolved heap'
  | incremental
      {last : Step T W I Y}
      {steps : List (Step T W I Y)}
      {files : List (ProjectFile T)}
      {resolved : ResolvedProject W}
      {reused : List Bool}
      {horizon heap' : Nat}
      (hFold : resolveProjectFilesPrefixIncremental walk env last.files
        last.resolved files horizon heap = some (resolved, reused, heap')) :
      Refold heap (last :: steps) files resolved heap'

/- Inference may start from any earlier inferred project, or from none. -/
def Earlier
    (steps : List (Step T W I Y))
    (prev : InferredProject W I Y) :
    Prop :=
  prev = .empty ∨ ∃ s ∈ steps, prev = s.inferred

inductive Session :
    Nat → List (Step T W I Y) → Prop where
  | start
      {heap : Nat} :
      Session heap []
  | infer
      {heap heap' : Nat}
      {steps : List (Step T W I Y)}
      {files : List (ProjectFile T)}
      {resolved : ResolvedProject W}
      {prev inferred : InferredProject W I Y}
      (hSession : Session heap steps)
      (hRefold : Refold walk env heap steps files resolved heap')
      (hEarlier : Earlier steps prev)
      (hInfer : inferProjectReusing inference env files resolved prev =
        some inferred) :
      Session heap' (⟨files, resolved, inferred⟩ :: steps)

/- One allocation stands for one file in one slot. -/
def OneOrigin
    (files files' : List (ProjectFile T))
    (resolved resolved' : ResolvedProject W) :
    Prop :=
  ∀ (i j : Nat) (arc arc' : Arc (ResolvedFile W)),
    resolved[i]? = some arc → resolved'[j]? = some arc' →
      arc.ptr = arc'.ptr →
      i = j ∧ arc.val = arc'.val ∧ files[i]? = files'[i]? ∧
        partnerAt (signaturePartners files) i =
          partnerAt (signaturePartners files') i

/- What every resolved project of a session satisfies. -/
structure Sound
    (heap : Nat)
    (files : List (ProjectFile T))
    (resolved : ResolvedProject W) :
    Prop where
  bound : resolved.length ≤ files.length
  allocated : ∀ (i : Nat) (arc : Arc (ResolvedFile W)),
    resolved[i]? = some arc → arc.ptr < heap
  numbered : NumberedProject resolved
  origin : OneOrigin files files resolved resolved

/- The projects of a session, each inferred as from scratch. -/
structure SessionInvariant
    (heap : Nat)
    (steps : List (Step T W I Y)) :
    Prop where
  sound : ∀ s ∈ steps, Sound heap s.files s.resolved
  origin : ∀ s ∈ steps, ∀ s' ∈ steps,
    OneOrigin s.files s'.files s.resolved s'.resolved
  scratch : ∀ s ∈ steps,
    inferProject inference env s.files s.resolved = some s.inferred

variable {walk}
variable {inference}
variable {env}
variable {heap heap' : Nat} {steps : List (Step T W I Y)}
variable {files files' : List (ProjectFile T)}
variable {resolved resolved' : ResolvedProject W}
variable {prev inferred : InferredProject W I Y}

omit [DecidableEq T] in
theorem OneOrigin.symm
    (hOrigin : OneOrigin files files' resolved resolved') :
    OneOrigin files' files resolved' resolved := by
  intro i j arc arc' hGet hGet' hSame
  rcases hOrigin j i arc' arc hGet' hGet hSame.symm with
    ⟨rfl, hVal, hFile, hPartner⟩
  exact ⟨rfl, hVal.symm, hFile.symm, hPartner.symm⟩

variable {st : FoldState W} {prevFiles : List (ProjectFile T)}
variable {kept : Nat → Arc (ResolvedFile W) → Prop}
variable {prevResolved : ResolvedProject W}

/- The slots of a fold's result, whatever the fold. -/
omit [DecidableEq T] in
theorem sound_of_allocated
    (hState : Allocated kept heap st)
    (hCounted : Counted st)
    (hLength : st.resolved.length ≤ files.length)
    (hKept : ∀ (i : Nat) (arc : Arc (ResolvedFile W)), kept i arc →
      KeptSlot prevFiles files prevResolved i arc)
    (hPrev : OneOrigin prevFiles prevFiles prevResolved prevResolved) :
    Sound st.heap files st.resolved := by
  refine ⟨hLength, hState.bound, hCounted.numbered, ?_⟩
  intro i j arc arc' hGet hGet' hSame
  by_cases hBefore : arc.ptr < heap
  · rcases hKept i arc (hState.before i arc hGet hBefore) with ⟨hOld, _, _⟩
    rw [hSame] at hBefore
    rcases hKept j arc' (hState.before j arc' hGet' hBefore) with ⟨hOld', _, _⟩
    rcases hPrev i j arc arc' hOld hOld' hSame with ⟨hIndex, hVal, _, _⟩
    exact ⟨hIndex, hVal, rfl, rfl⟩
  · have hIndex := hState.once i j arc arc' hGet hGet' (Nat.le_of_not_lt hBefore)
      hSame
    subst hIndex
    rw [hGet] at hGet'
    cases hGet'
    exact ⟨rfl, rfl, rfl, rfl⟩

/- Against an earlier project, only kept slots share an allocation. -/
omit [DecidableEq T] in
theorem oneOrigin_of_allocated
    (hState : Allocated kept heap st)
    (hKept : ∀ (i : Nat) (arc : Arc (ResolvedFile W)), kept i arc →
      KeptSlot prevFiles files prevResolved i arc)
    (hOther : Sound heap files' resolved')
    (hPrev : OneOrigin prevFiles files' prevResolved resolved') :
    OneOrigin files files' st.resolved resolved' := by
  intro i j arc arc' hGet hGet' hSame
  have hBefore := hOther.allocated j arc' hGet'
  rw [← hSame] at hBefore
  rcases hKept i arc (hState.before i arc hGet hBefore) with
    ⟨hOld, hFile, hPartner⟩
  rcases hPrev i j arc arc' hOld hGet' hSame with
    ⟨hIndex, hVal, hFile', hPartner'⟩
  exact ⟨hIndex, hVal, hFile.symm.trans hFile', hPartner.symm.trans hPartner'⟩

omit [DecidableEq T] in
theorem Sound.mono
    (hSound : Sound heap files resolved)
    (hLe : heap ≤ heap') :
    Sound heap' files resolved :=
  ⟨hSound.bound,
    fun i arc hGet => Nat.lt_of_lt_of_le (hSound.allocated i arc hGet) hLe,
    hSound.numbered, hSound.origin⟩

omit [DecidableEq T] in
theorem coldFold_length
    {n : Nat}
    (hLe : n ≤ files.length) :
    (coldFold walk env files n heap).resolved.length = n := by
  have hValues : (coldFold walk env files n heap).resolved.map (·.val) =
      (viewAt walk env files n).values :=
    coldFold_values hLe
  have hLength := congrArg List.length hValues
  rw [List.length_map, viewAt_values_length hLe] at hLength
  exact hLength

theorem refold_sound
    (hSteps : SessionInvariant inference env heap steps)
    (hRefold : Refold walk env heap steps files resolved heap') :
    heap ≤ heap' ∧ Sound heap' files resolved ∧
      ∀ s ∈ steps, OneOrigin files s.files resolved s.resolved := by
  cases hRefold with
  | @cold _ _ _ horizon _ hFold =>
      unfold resolveProjectFilesPrefix at hFold
      split at hFold
      · next hHorizon =>
          cases hFold
          rcases coldFold_allocated hHorizon with ⟨hAllocated, hCounted⟩
          have hLength : (coldFold walk env files horizon heap).resolved.length ≤
              files.length := by
            rw [coldFold_length hHorizon]
            exact hHorizon
          have hKept : ∀ (i : Nat) (arc : Arc (ResolvedFile W)), False →
              KeptSlot files files ([] : ResolvedProject W) i arc := by
            intro _ _ hFalse
            exact hFalse.elim
          refine ⟨hAllocated.start, ?_, ?_⟩
          · apply sound_of_allocated hAllocated hCounted hLength hKept
            intro i j arc arc' hGet
            cases hGet
          · intro s hMem
            apply oneOrigin_of_allocated hAllocated hKept (hSteps.sound s hMem)
            intro i j arc arc' hGet
            cases hGet
      · cases hFold
  | @incremental last earlier _ _ reused horizon _ hFold =>
      have hLast := hSteps.sound last List.mem_cons_self
      unfold resolveProjectFilesPrefixIncremental at hFold
      split at hFold
      · next hHorizon =>
          cases hFold
          have hFacts : IncrementalFacts last.files files last.resolved heap
              horizon (incrementalFold walk env last.files last.resolved files
                horizon heap) :=
            incrementalFold_facts hLast.allocated hLast.numbered hHorizon
          have hLength := hFacts.length
          refine ⟨hFacts.allocated.start, ?_, ?_⟩
          · apply sound_of_allocated hFacts.allocated hFacts.counted _
              (fun _ _ hKept => hKept) hLast.origin
            rw [hLength]
            exact hHorizon
          · intro s hMem
            exact oneOrigin_of_allocated hFacts.allocated
              (fun _ _ hKept => hKept) (hSteps.sound s hMem)
              (hSteps.origin last List.mem_cons_self s hMem)
      · cases hFold

/- Slots below the shared prefix agree. -/
omit [DecidableEq T] in
theorem agreeBelow_sharedPrefix
    (hOrigin : OneOrigin files' files resolved' resolved)
    (hResolved : prev.resolved = resolved') :
    AgreeBelow files' files resolved' resolved (prev.sharedPrefix resolved) := by
  intro i hLt
  rcases sharedPrefix_get hLt with ⟨arc, arc', hOld, hNew, hPtr⟩
  rw [hResolved] at hOld
  rcases hOrigin i i arc arc' hOld hNew hPtr with ⟨_, hVal, hFile, hPartner⟩
  exact ⟨arc, arc', hOld, hNew, hVal, hFile, hPartner⟩

/- Inference from scratch succeeds on a sound project. -/
omit [DecidableEq T] in
theorem Sound.inferProject_some
    (hSound : Sound heap files resolved) :
    ∃ inferred, inferProject inference env files resolved = some inferred := by
  have hLast : ∃ st, inferAt inference env files resolved .empty 0
        resolved.length = some st ∧
      PublishedBelow st.published.items
        (exportsBefore resolved resolved.length) ∧
      st.out.length = resolved.length :=
    inferAt_some hSound.bound hSound.numbered (Nat.le_refl _)
  rcases hLast with ⟨st, hState, _, _⟩
  rw [inferAt_length] at hState
  unfold inferProject inferProjectReusing
  rw [if_pos hSound.bound, sharedPrefix_empty, hState]
  exact ⟨_, rfl⟩

/- What an inferred project records of its fold. -/
omit [DecidableEq T] in
theorem inferProject_spec
    (hInfer : inferProject inference env files resolved = some inferred) :
    ∃ last, inferAt inference env files resolved .empty 0 resolved.length =
        some last ∧
      inferred = ⟨last.out, resolved, last.published⟩ := by
  unfold inferProject inferProjectReusing at hInfer
  split at hInfer
  · rw [sharedPrefix_empty, ← inferAt_length] at hInfer
    rcases Option.map_eq_some_iff.1 hInfer with ⟨last, hLast, hEq⟩
    exact ⟨last, hLast, hEq.symm⟩
  · cases hInfer

omit [DecidableEq T] in
theorem reusing_eq_scratch
    (hSteps : SessionInvariant inference env heap steps)
    (hBound : resolved.length ≤ files.length)
    (hOrigin : ∀ s ∈ steps, OneOrigin files s.files resolved s.resolved)
    (hEarlier : Earlier steps prev) :
    inferProjectReusing inference env files resolved prev =
      inferProject inference env files resolved := by
  rcases hEarlier with rfl | ⟨s, hMem, rfl⟩
  · rfl
  · rcases inferProject_spec (hSteps.scratch s hMem) with ⟨last, hLast, hEq⟩
    have hAgree := agreeBelow_sharedPrefix (hOrigin s hMem).symm
      (congrArg InferredProject.resolved hEq)
    have hFold := inferAt_reusing hAgree hLast
      (congrArg InferredProject.files hEq) hBound (Nat.le_refl _)
    rw [inferAt_length, inferAt_length] at hFold
    unfold inferProject inferProjectReusing
    rw [hFold, sharedPrefix_empty]

theorem Session.invariant
    (hSession : Session walk inference env heap steps) :
    SessionInvariant inference env heap steps := by
  induction hSession with
  | start =>
      constructor
      · intro s hMem
        cases hMem
      · intro s hMem
        cases hMem
      · intro s hMem
        cases hMem
  | @infer heap heap' steps files resolved prev inferred _ hRefold hEarlier
      hInfer ih =>
      rcases refold_sound ih hRefold with ⟨hLe, hSound, hOrigin⟩
      rw [reusing_eq_scratch ih hSound.bound hOrigin hEarlier] at hInfer
      constructor
      · intro s hMem
        rcases List.mem_cons.1 hMem with rfl | hOld
        · exact hSound
        · exact (ih.sound s hOld).mono hLe
      · intro s hMem s' hMem'
        rcases List.mem_cons.1 hMem with rfl | hOld
        · rcases List.mem_cons.1 hMem' with rfl | hOld'
          · exact hSound.origin
          · exact hOrigin s' hOld'
        · rcases List.mem_cons.1 hMem' with rfl | hOld'
          · exact (hOrigin s hOld).symm
          · exact ih.origin s hOld s' hOld'
      · intro s hMem
        rcases List.mem_cons.1 hMem with rfl | hOld
        · exact hInfer
        · exact ih.scratch s hOld

/-
  The next inference of a session, from whichever earlier one, fails no
  assertion and gives what inference from scratch gives.
-/
theorem infer_reusing_matches_scratch
    (hSession : Session walk inference env heap steps)
    (hRefold : Refold walk env heap steps files resolved heap')
    (hEarlier : Earlier steps prev) :
    ∃ inferred,
      inferProjectReusing inference env files resolved prev = some inferred ∧
      inferProject inference env files resolved = some inferred := by
  have hSteps := hSession.invariant
  rcases refold_sound hSteps hRefold with ⟨_, hSound, hOrigin⟩
  rcases hSound.inferProject_some with ⟨inferred, hInfer⟩
  refine ⟨inferred, ?_, hInfer⟩
  rw [reusing_eq_scratch hSteps hSound.bound hOrigin hEarlier]
  exact hInfer

end Sessions

def sampleInference :
    Inference SampleTree Unit Bool Bool Unit where
  inferFile _ rf _ _ := rf.walked
  projectTypes _ _ := none
  moduleValue _ _ := none

def sampleInferred :
    InferredProject Bool Bool Unit :=
  ⟨[some false, some true], samplePrev, {}⟩

def sampleNext :
    ResolvedProject Bool :=
  (incrementalFold sampleWalk sampleEnv (sampleFiles (.bare 0)) samplePrev
    (sampleFiles (.bare 1)) 2 2).fold.resolved

/- The reader's inference is kept across a second parse of the first file. -/
theorem infer_reusing_matches_scratch_reparsed :
    ∃ inferred,
      inferProjectReusing sampleInference sampleEnv (sampleFiles (.bare 1))
          sampleNext sampleInferred = some inferred ∧
        inferProject sampleInference sampleEnv (sampleFiles (.bare 1))
          sampleNext = some inferred := by
  have hFirst : inferProjectReusing sampleInference sampleEnv
      (sampleFiles (.bare 0)) samplePrev .empty = some sampleInferred :=
    rfl
  have hSession := Session.infer Session.start (Refold.cold samplePrev_folded)
    (Or.inl rfl) hFirst
  have hNext : resolveProjectFilesPrefixIncremental sampleWalk sampleEnv
      (sampleFiles (.bare 0)) samplePrev (sampleFiles (.bare 1)) 2 2 =
        some (sampleNext, [false, true], 3) :=
    rfl
  apply infer_reusing_matches_scratch hSession (Refold.incremental hNext)
  exact Or.inr ⟨_, List.mem_cons_self, rfl⟩

end Resolve

end Borzoi
