import Mathlib.Order.Compare
import Mathlib.Data.Finset.Sort
import Mathlib.Data.String.Basic
import Borzoi.Program.SortedMap

/-
  The diagnostics that a client sees.

  A document contributes diagnostics to itself and, through `#line`, to
  other files.  `PublishState` answers each change with the
  notifications for the files that the document feeds or fed, and a
  client keeps the last notification of each file.

  Main declarations:
    * `PublishState.plan`
    * `PublishState.planClose`
    * `Session.after`
    * `published`
    * `client_shows_latest_contributions`
-/

namespace Borzoi

namespace Lsp

/- `FileDiagnostics`: the group of one virtual file. -/
structure FileDiagnostics
    (Diagnostic : Type) where
  file : Option (List Char)
  diagnostics : List Diagnostic

/- `PublishDiagnosticsParams`, whose version is always `None`. -/
structure Notification
    (Uri Diagnostic : Type) where
  uri : Uri
  diagnostics : List Diagnostic

/- The order of URIs is that of their strings. -/
variable {Uri Diagnostic : Type} [LinearOrder Uri]

/- What a document gives to each target. -/
abbrev Contribution
    (Uri Diagnostic : Type)
    [LinearOrder Uri] :=
  SortedMap Uri (List Diagnostic) compare

structure PublishState
    (Uri Diagnostic : Type)
    [LinearOrder Uri] where
  contributions : SortedMap Uri (Contribution Uri Diagnostic) compare

/- `Vec::dedup`. -/
def dedup : List Uri → List Uri
  | [] => []
  | [a] => [a]
  | a :: b :: rest => if a = b then dedup (b :: rest) else a :: dedup (b :: rest)

/- `sort_by` on the strings of URIs. -/
def sortUris
    (uris : List Uri) :
    List Uri :=
  uris.mergeSort fun a b => decide (a ≤ b)

/- `sorted_targets`. -/
def sortedTargets
    (keys : List Uri)
    (changed : Uri) :
    List Uri :=
  dedup (sortUris (keys.filter fun k => k ≠ changed))

namespace PublishState

def new : PublishState Uri Diagnostic := ⟨.empty⟩

/- `union_for`. -/
def unionFor
    (state : PublishState Uri Diagnostic)
    (target : Uri) :
    List Diagnostic :=
  (sortUris state.contributions.keys).flatMap fun g =>
    match state.contributions.get g with
    | some contribution => (contribution.get target).getD []
    -- `g` is a key
    | none => []

/- `publish_for`. -/
def publishFor
    (state : PublishState Uri Diagnostic)
    (target : Uri) :
    Notification Uri Diagnostic :=
  ⟨target, state.unionFor target⟩

/- The changed document's notification, and those of its targets. -/
def publishAll
    (state : PublishState Uri Diagnostic)
    (changed : Uri)
    (targets : List Uri) :
    List (Notification Uri Diagnostic) :=
  state.publishFor changed :: targets.map state.publishFor

/- `resolve_target`, which reads its two arguments only. -/
variable (resolveTarget : Uri → List Char → Option Uri)

/- One group of `plan`. -/
def addGroup
    (changed : Uri)
    (contribution : Contribution Uri Diagnostic)
    (group : FileDiagnostics Diagnostic) :
    Contribution Uri Diagnostic :=
  match group.file with
  | none =>
      if group.diagnostics.isEmpty then
        contribution
      else
        contribution.modify changed [] (· ++ group.diagnostics)
  | some file =>
      match resolveTarget changed file with
      | some target => contribution.modify target [] (· ++ group.diagnostics)
      | none => contribution

/- `PublishState::plan`. -/
def plan
    (state : PublishState Uri Diagnostic)
    (changed : Uri)
    (groups : List (FileDiagnostics Diagnostic)) :
    List (Notification Uri Diagnostic) × PublishState Uri Diagnostic :=
  let newContrib := groups.foldl (addGroup resolveTarget changed) .empty
  let old := (state.contributions.get changed).getD .empty
  let removed := state.contributions.erase changed
  let targets := sortedTargets (newContrib.keys ++ old.keys) changed
  let next : PublishState Uri Diagnostic :=
    if newContrib.entries.isEmpty then
      ⟨removed⟩
    else
      ⟨removed.insert changed newContrib⟩
  (next.publishAll changed targets, next)

/- `PublishState::plan_close`. -/
def planClose
    (state : PublishState Uri Diagnostic)
    (changed : Uri) :
    List (Notification Uri Diagnostic) × PublishState Uri Diagnostic :=
  let old := (state.contributions.get changed).getD .empty
  let targets := sortedTargets old.keys changed
  let next : PublishState Uri Diagnostic := ⟨state.contributions.erase changed⟩
  (next.publishAll changed targets, next)

end PublishState

/- A call on the state. -/
inductive Call
    (Uri Diagnostic : Type)
  | plan (changed : Uri) (groups : List (FileDiagnostics Diagnostic))
  | planClose (changed : Uri)

namespace Call

def document :
    Call Uri Diagnostic → Uri
  | .plan changed _ => changed
  | .planClose changed => changed

def groups :
    Call Uri Diagnostic → List (FileDiagnostics Diagnostic)
  | .plan _ groups => groups
  | .planClose _ => []

end Call

/- The server's state, and the last notification of each file. -/
structure Session
    (Uri Diagnostic : Type)
    [LinearOrder Uri] where
  state : PublishState Uri Diagnostic
  client : Uri → Option (List Diagnostic)

namespace Session

def start : Session Uri Diagnostic := ⟨.new, fun _ => none⟩

/- The client replaces what it shows for the file. -/
def receive
    (client : Uri → Option (List Diagnostic))
    (notification : Notification Uri Diagnostic) :
    Uri → Option (List Diagnostic) :=
  Function.update client notification.uri (some notification.diagnostics)

variable (resolveTarget : Uri → List Char → Option Uri)

def call
    (session : Session Uri Diagnostic)
    (c : Call Uri Diagnostic) :
    Session Uri Diagnostic :=
  let planned :=
    match c with
    | .plan changed groups => session.state.plan resolveTarget changed groups
    | .planClose changed => session.state.planClose changed
  ⟨planned.2, planned.1.foldl receive session.client⟩

/- The session after some calls. -/
def after
    (calls : List (Call Uri Diagnostic)) :
    Session Uri Diagnostic :=
  calls.foldl (call resolveTarget) start

/- What the client shows for a file. -/
def shows
    (session : Session Uri Diagnostic)
    (uri : Uri) :
    List Diagnostic :=
  (session.client uri).getD []

end Session

section Specification

variable (resolveTarget : Uri → List Char → Option Uri)

/- The file that a group of a document is about. -/
def targetOf
    (document : Uri)
    (group : FileDiagnostics Diagnostic) :
    Option Uri :=
  match group.file with
  | none => some document
  | some file => resolveTarget document file

/- What the groups of a document say about a file. -/
def contributed
    (document : Uri)
    (groups : List (FileDiagnostics Diagnostic))
    (uri : Uri) :
    List Diagnostic :=
  groups.flatMap fun group =>
    if targetOf resolveTarget document group = some uri then
      group.diagnostics
    else
      []

/- The groups of a document's latest call, none when it is closed. -/
def latest
    (calls : List (Call Uri Diagnostic))
    (document : Uri) :
    List (FileDiagnostics Diagnostic) :=
  match calls.reverse.find? fun c => c.document = document with
  | some c => c.groups
  | none => []

/- The documents of the calls, in ascending order. -/
def documents
    (calls : List (Call Uri Diagnostic)) :
    List Uri :=
  (calls.map Call.document).toFinset.sort (· ≤ ·)

/- The latest contributions of all documents to a file. -/
def published
    (calls : List (Call Uri Diagnostic))
    (uri : Uri) :
    List Diagnostic :=
  (documents calls).flatMap fun document =>
    contributed resolveTarget document (latest calls document) uri

end Specification

section Unions

/-
  Joining along an ascending list depends only on the elements that
  give something.
-/
theorem flatMap_eq_of_support
    {α β : Type}
    [LinearOrder α]
    {l₁ l₂ : List α}
    {give : α → List β}
    (hSorted₁ : l₁.Pairwise (· < ·))
    (hSorted₂ : l₂.Pairwise (· < ·))
    (hSupport : ∀ a, give a ≠ [] → (a ∈ l₁ ↔ a ∈ l₂)) :
    l₁.flatMap give = l₂.flatMap give := by
  have hFilter : ∀ l : List α, l.flatMap give =
      (l.filter fun a => !(give a).isEmpty).flatMap give := by
    intro l
    induction l with
    | nil => rfl
    | cons a l ih =>
        by_cases hEmpty : give a = []
        · rw [List.flatMap_cons, hEmpty, List.nil_append, ih,
            List.filter_cons_of_neg]
          rw [hEmpty]
          exact Bool.false_ne_true
        · rw [List.flatMap_cons, ih, List.filter_cons_of_pos,
            List.flatMap_cons]
          rw [Bool.not_eq_true', List.isEmpty_eq_false_iff]
          exact hEmpty
  rw [hFilter l₁, hFilter l₂]
  congr 1
  apply (hSorted₁.filter _).eq_of_mem_iff (hSorted₂.filter _)
  intro a
  rw [List.mem_filter, List.mem_filter, Bool.not_eq_true',
    List.isEmpty_eq_false_iff]
  constructor
  · rintro ⟨hMem, hSome⟩
    exact ⟨(hSupport a hSome).1 hMem, hSome⟩
  · rintro ⟨hMem, hSome⟩
    exact ⟨(hSupport a hSome).2 hMem, hSome⟩

variable {uris : List Uri}

theorem mem_sortUris
    {uri : Uri} :
    uri ∈ sortUris uris ↔ uri ∈ uris :=
  List.mem_mergeSort

theorem sortUris_pairwise
    (hNodup : uris.Nodup) :
    (sortUris uris).Pairwise (· < ·) := by
  have hLe : (sortUris uris).Pairwise (· ≤ ·) := by
    have hSorted := @List.pairwise_mergeSort Uri
      (fun a b => decide (a ≤ b))
      (fun a b c hab hbc => decide_eq_true
        (le_trans (of_decide_eq_true hab) (of_decide_eq_true hbc)))
      (fun a b => by
        rw [Bool.or_eq_true, decide_eq_true_eq, decide_eq_true_eq]
        exact le_total a b) uris
    exact hSorted.imp of_decide_eq_true
  have hNe : (sortUris uris).Pairwise (· ≠ ·) :=
    (List.mergeSort_perm uris _).nodup_iff.2 hNodup
  exact (hLe.and hNe).imp fun h => lt_of_le_of_ne h.1 h.2

theorem mem_dedup
    {uri : Uri} :
    uri ∈ dedup uris ↔ uri ∈ uris := by
  fun_induction dedup uris with
  | case1 => exact Iff.rfl
  | case2 a => exact Iff.rfl
  | case3 b rest ih =>
      rw [ih, List.mem_cons (b := b) (l := b :: rest)]
      constructor
      · exact Or.inr
      · rintro (rfl | hMem)
        · exact List.mem_cons_self
        · exact hMem
  | case4 a b rest _ ih =>
      rw [List.mem_cons, ih, List.mem_cons (b := a)]

theorem mem_sortedTargets
    {keys : List Uri}
    {changed uri : Uri} :
    uri ∈ sortedTargets keys changed ↔ uri ∈ keys ∧ uri ≠ changed := by
  unfold sortedTargets
  rw [mem_dedup, mem_sortUris, List.mem_filter, decide_eq_true_eq]

end Unions

------------------------------------------------------------
-- Contributions
------------------------------------------------------------

namespace PublishState

/- What a document gives to a file now. -/
def given
    (state : PublishState Uri Diagnostic)
    (document uri : Uri) :
    List Diagnostic :=
  match state.contributions.get document with
  | some contribution => (contribution.get uri).getD []
  | none => []

variable {state state' : PublishState Uri Diagnostic}
variable {changed document uri : Uri}
variable {resolveTarget : Uri → List Char → Option Uri}

theorem keys_nodup :
    state.contributions.keys.Nodup := by
  unfold SortedMap.keys
  rw [List.Nodup, List.pairwise_map]
  apply state.contributions.sorted.imp
  intro a b hLt hEq
  rw [compare_lt_iff_lt, hEq] at hLt
  exact lt_irrefl _ hLt

theorem mem_keys_of_given
    (hSome : state.given document uri ≠ []) :
    document ∈ sortUris state.contributions.keys := by
  rw [mem_sortUris]
  by_contra hNone
  apply hSome
  unfold given
  rw [SortedMap.get_eq_none_of_not_mem hNone]

/- The union depends only on what each document gives. -/
theorem unionFor_congr
    (hGiven : ∀ document, state.given document uri = state'.given document uri) :
    state.unionFor uri = state'.unionFor uri := by
  have hSame : (fun document => state.given document uri) =
      fun document => state'.given document uri := funext hGiven
  change (sortUris _).flatMap (fun document => state.given document uri) =
    (sortUris _).flatMap (fun document => state'.given document uri)
  rw [← hSame]
  apply flatMap_eq_of_support (sortUris_pairwise keys_nodup)
    (sortUris_pairwise keys_nodup)
  intro document hSome
  constructor
  · intro _
    have hSome' : state'.given document uri ≠ [] := by
      rw [← hGiven]
      exact hSome
    exact mem_keys_of_given hSome'
  · intro _
    exact mem_keys_of_given hSome

theorem addGroup_get
    (contribution : Contribution Uri Diagnostic)
    (group : FileDiagnostics Diagnostic) :
    ((addGroup resolveTarget changed contribution group).get uri).getD [] =
      (contribution.get uri).getD [] ++
        if targetOf resolveTarget changed group = some uri then
          group.diagnostics
        else
          [] := by
  have hModify : ∀ target, ((contribution.modify target []
      (· ++ group.diagnostics)).get uri).getD [] =
        (contribution.get uri).getD [] ++
          if some target = some uri then group.diagnostics else [] := by
    intro target
    unfold SortedMap.modify
    by_cases hHere : target = uri
    · rw [hHere, SortedMap.get_insert_self, if_pos rfl]
      rfl
    · have hApart : ¬ some target = some uri := by
        rw [Option.some.injEq]
        exact hHere
      rw [SortedMap.get_insert_of_ne (Ne.symm hHere), if_neg hApart,
        List.append_nil]
  unfold addGroup targetOf
  cases group.file with
  | none =>
      dsimp only
      by_cases hEmpty : group.diagnostics = []
      · rw [hEmpty]
        simp
      · rw [if_neg (by rw [List.isEmpty_iff]; exact hEmpty)]
        exact hModify changed
  | some file =>
      rcases Option.eq_none_or_eq_some (resolveTarget changed file) with
        hNone | ⟨target, hSome⟩
      · simp only [hNone]
        rw [if_neg (by simp), List.append_nil]
      · simp only [hSome]
        exact hModify target

/- The groups of a document are joined in their order. -/
theorem addGroups_get
    (groups : List (FileDiagnostics Diagnostic))
    (contribution : Contribution Uri Diagnostic) :
    ((groups.foldl (addGroup resolveTarget changed) contribution).get
        uri).getD [] =
      (contribution.get uri).getD [] ++
        contributed resolveTarget changed groups uri := by
  induction groups generalizing contribution with
  | nil =>
      unfold contributed
      rw [List.foldl_nil, List.flatMap_nil, List.append_nil]
  | cons group groups ih =>
      rw [List.foldl_cons, ih, addGroup_get, List.append_assoc]
      rfl

theorem given_of_get
    {contribution : Contribution Uri Diagnostic}
    (hGet : state.contributions.get document = some contribution) :
    state.given document uri = (contribution.get uri).getD [] := by
  unfold given
  rw [hGet]

theorem given_of_get_none
    (hGet : state.contributions.get document = none) :
    state.given document uri = [] := by
  unfold given
  rw [hGet]

theorem given_eq_of_get_eq
    (hGet : state.contributions.get document =
      state'.contributions.get document) :
    state.given document uri = state'.given document uri := by
  unfold given
  rw [hGet]

/- After a plan the document gives what its groups say. -/
theorem plan_given
    (groups : List (FileDiagnostics Diagnostic)) :
    (state.plan resolveTarget changed groups).2.given document uri =
      if changed = document then
        contributed resolveTarget changed groups uri
      else
        state.given document uri := by
  have hGroups : ((groups.foldl (addGroup resolveTarget changed)
      .empty).get uri).getD [] =
        [] ++ contributed resolveTarget changed groups uri :=
    addGroups_get groups .empty
  rw [List.nil_append] at hGroups
  unfold plan
  dsimp only
  generalize groups.foldl (addGroup resolveTarget changed) .empty =
    newContrib at hGroups ⊢
  by_cases hHere : changed = document
  · subst hHere
    rw [if_pos rfl, ← hGroups]
    split
    · next hEmpty =>
        have hNone : (⟨state.contributions.erase changed⟩ :
            PublishState Uri Diagnostic).given changed uri = [] :=
          given_of_get_none SortedMap.get_erase_self
        rw [hNone]
        have hEntries := List.isEmpty_iff.1 hEmpty
        unfold SortedMap.get
        rw [hEntries]
        rfl
    · exact given_of_get SortedMap.get_insert_self
  · rw [if_neg hHere]
    have hNe : document ≠ changed := Ne.symm hHere
    apply given_eq_of_get_eq
    split
    · exact SortedMap.get_erase_of_ne hNe
    · exact (SortedMap.get_insert_of_ne hNe).trans
        (SortedMap.get_erase_of_ne hNe)

theorem planClose_given :
    (state.planClose changed : List (Notification Uri Diagnostic) ×
        PublishState Uri Diagnostic).2.given document uri =
      if changed = document then [] else state.given document uri := by
  unfold planClose
  by_cases hHere : changed = document
  · subst hHere
    rw [if_pos rfl]
    exact given_of_get_none SortedMap.get_erase_self
  · rw [if_neg hHere]
    apply given_eq_of_get_eq
    exact SortedMap.get_erase_of_ne (Ne.symm hHere)

theorem mem_old_keys
    (hSome : state.given changed uri ≠ []) :
    uri ∈ ((state.contributions.get changed).getD .empty).keys := by
  by_contra hNone
  apply hSome
  cases hGet : state.contributions.get changed with
  | none => exact given_of_get_none hGet
  | some contribution =>
      rw [hGet, Option.getD_some] at hNone
      rw [given_of_get hGet, SortedMap.get_eq_none_of_not_mem hNone]
      rfl

/- The files that a plan sends notifications for. -/
theorem plan_notified
    (groups : List (FileDiagnostics Diagnostic))
    (hOther : uri ≠ changed)
    (hSome : contributed resolveTarget changed groups uri ≠ [] ∨
      state.given changed uri ≠ []) :
    uri ∈ sortedTargets
      ((groups.foldl (addGroup resolveTarget changed) .empty).keys ++
        ((state.contributions.get changed).getD .empty).keys) changed := by
  rw [mem_sortedTargets, List.mem_append]
  refine ⟨?_, hOther⟩
  rcases hSome with hNew | hOld
  · left
    by_contra hNone
    apply hNew
    have hGroups : ((groups.foldl (addGroup resolveTarget changed)
        .empty).get uri).getD [] =
          [] ++ contributed resolveTarget changed groups uri :=
      addGroups_get groups .empty
    rw [SortedMap.get_eq_none_of_not_mem hNone, List.nil_append] at hGroups
    exact hGroups.symm
  · right
    exact mem_old_keys hOld

end PublishState

section Sessions

variable {resolveTarget : Uri → List Char → Option Uri}
variable {calls : List (Call Uri Diagnostic)} {session : Session Uri Diagnostic}
variable {state : PublishState Uri Diagnostic}

theorem receive_all
    (uris : List Uri)
    (client : Uri → Option (List Diagnostic))
    (uri : Uri) :
    (uris.map state.publishFor).foldl Session.receive client uri =
      if uri ∈ uris then some (state.unionFor uri) else client uri := by
  induction uris generalizing client with
  | nil =>
      rw [if_neg (List.not_mem_nil)]
      rfl
  | cons first uris ih =>
      rw [List.map_cons, List.foldl_cons, ih]
      by_cases hLater : uri ∈ uris
      · rw [if_pos hLater, if_pos (List.mem_cons_of_mem _ hLater)]
      · rw [if_neg hLater]
        unfold Session.receive
        by_cases hFirst : uri = first
        · rw [hFirst, if_pos List.mem_cons_self]
          exact Function.update_self _ _ _
        · have hNone : uri ∉ first :: uris := by
            rw [List.mem_cons, not_or]
            exact ⟨hFirst, hLater⟩
          rw [if_neg hNone]
          exact Function.update_of_ne hFirst _ _

theorem latest_append
    (c : Call Uri Diagnostic)
    (document : Uri) :
    latest (calls ++ [c]) document =
      if c.document = document then c.groups else latest calls document := by
  unfold latest
  rw [List.reverse_append, List.reverse_singleton, List.singleton_append,
    List.find?_cons]
  by_cases hHere : c.document = document
  · rw [if_pos hHere, decide_eq_true hHere]
  · rw [if_neg hHere, decide_eq_false hHere]

/-
  The state holds each document's latest contribution, and the client
  shows the state's unions.
-/
structure Kept
    (resolveTarget : Uri → List Char → Option Uri)
    (calls : List (Call Uri Diagnostic))
    (session : Session Uri Diagnostic) :
    Prop where
  given : ∀ document uri, session.state.given document uri =
    contributed resolveTarget document (latest calls document) uri
  shown : ∀ uri, session.shows uri = session.state.unionFor uri

/- A call that notifies every file its document feeds or fed. -/
theorem Kept.publish
    {next : PublishState Uri Diagnostic}
    {targets : List Uri}
    (hKept : Kept resolveTarget calls session)
    (c : Call Uri Diagnostic)
    (hGiven : ∀ document uri, next.given document uri =
      if c.document = document then
        contributed resolveTarget c.document c.groups uri
      else
        session.state.given document uri)
    (hTargets : ∀ uri, uri ≠ c.document →
      contributed resolveTarget c.document c.groups uri ≠ [] ∨
        session.state.given c.document uri ≠ [] →
      uri ∈ targets) :
    Kept resolveTarget (calls ++ [c])
      ⟨next, (next.publishAll c.document targets).foldl Session.receive
        session.client⟩ := by
  constructor
  · intro document uri
    rw [hGiven, latest_append]
    by_cases hHere : c.document = document
    · rw [if_pos hHere, if_pos hHere, hHere]
    · rw [if_neg hHere, if_neg hHere]
      exact hKept.given document uri
  · intro uri
    unfold Session.shows
    change ((List.map next.publishFor (c.document :: targets)).foldl
      Session.receive session.client uri).getD [] = _
    rw [receive_all]
    by_cases hNotified : uri ∈ c.document :: targets
    · rw [if_pos hNotified]
      rfl
    · rw [if_neg hNotified]
      rw [List.mem_cons, not_or] at hNotified
      -- The document gives this file nothing, before and after.
      have hNothing : contributed resolveTarget c.document c.groups uri = [] ∧
          session.state.given c.document uri = [] := by
        have hNone := mt (hTargets uri hNotified.1) hNotified.2
        rw [not_or, not_not, not_not] at hNone
        exact hNone
      refine (hKept.shown uri).trans (PublishState.unionFor_congr ?_)
      intro document
      rw [hGiven]
      by_cases hHere : c.document = document
      · rw [if_pos hHere, ← hHere, hNothing.1, hNothing.2]
      · rw [if_neg hHere]

theorem Kept.call
    (hKept : Kept resolveTarget calls session)
    (c : Call Uri Diagnostic) :
    Kept resolveTarget (calls ++ [c]) (session.call resolveTarget c) := by
  cases c with
  | plan changed groups =>
      apply hKept.publish (.plan changed groups)
      · intro document uri
        exact PublishState.plan_given groups
      · intro uri hOther hSome
        exact PublishState.plan_notified groups hOther hSome
  | planClose changed =>
      apply hKept.publish (.planClose changed)
      · intro document uri
        exact PublishState.planClose_given
      · intro uri hOther hSome
        rcases hSome with hNew | hOld
        · exact absurd rfl hNew
        · rw [mem_sortedTargets]
          exact ⟨PublishState.mem_old_keys hOld, hOther⟩

theorem kept_after
    (calls : List (Call Uri Diagnostic)) :
    Kept resolveTarget calls (Session.after resolveTarget calls) := by
  induction calls using List.reverseRecOn with
  | nil =>
      refine ⟨fun _ _ => rfl, ?_⟩
      intro uri
      change [] = (sortUris []).flatMap _
      unfold sortUris
      rw [List.mergeSort_nil]
      rfl
  | append_singleton calls c ih =>
      unfold Session.after
      rw [List.foldl_append]
      exact ih.call c

theorem mem_documents
    {document : Uri}
    (hSome : latest calls document ≠ []) :
    document ∈ documents calls := by
  unfold documents
  rw [Finset.mem_sort, List.mem_toFinset, List.mem_map]
  unfold latest at hSome
  split at hSome
  · next c hFind =>
      have hMem := List.mem_of_find?_eq_some hFind
      have hHere := List.find?_some hFind
      exact ⟨c, List.mem_reverse.1 hMem, of_decide_eq_true hHere⟩
  · exact absurd rfl hSome

theorem latest_of_contributed
    {document uri : Uri}
    {groups : List (FileDiagnostics Diagnostic)}
    (hSome : contributed resolveTarget document groups uri ≠ []) :
    groups ≠ [] := by
  intro hNil
  apply hSome
  rw [hNil]
  rfl

theorem documents_pairwise :
    (documents calls).Pairwise (· < ·) :=
  (Finset.sortedLT_sort _).pairwise

theorem unionFor_eq_published
    (hKept : Kept resolveTarget calls session)
    (uri : Uri) :
    session.state.unionFor uri = published resolveTarget calls uri := by
  have hGiven : (fun document => session.state.given document uri) =
      fun document =>
        contributed resolveTarget document (latest calls document) uri :=
    funext fun document => hKept.given document uri
  change (sortUris _).flatMap
    (fun document => session.state.given document uri) = _
  unfold published
  rw [← hGiven]
  apply flatMap_eq_of_support (sortUris_pairwise PublishState.keys_nodup)
    documents_pairwise
  intro document hSome
  constructor
  · intro _
    rw [hKept.given] at hSome
    exact mem_documents (latest_of_contributed hSome)
  · intro _
    exact PublishState.mem_keys_of_given hSome

theorem published_congr
    {calls' : List (Call Uri Diagnostic)}
    (hLatest : ∀ document, latest calls' document = latest calls document)
    (uri : Uri) :
    published resolveTarget calls' uri = published resolveTarget calls uri := by
  unfold published
  have hSame : latest calls' = latest calls := funext hLatest
  rw [hSame]
  apply flatMap_eq_of_support documents_pairwise documents_pairwise
  intro document hSome
  have hGroups := latest_of_contributed hSome
  constructor
  · intro _
    exact mem_documents hGroups
  · intro _
    apply mem_documents
    rw [hSame]
    exact hGroups

end Sessions

/-
  The client shows for every file the latest contributions of all
  documents, in the order of the documents, so what it shows depends on
  the latest call of each document only.
-/
theorem client_shows_latest_contributions
    (resolveTarget : Uri → List Char → Option Uri)
    (calls : List (Call Uri Diagnostic)) :
    (∀ uri, (Session.after resolveTarget calls).shows uri =
      published resolveTarget calls uri) ∧
    ∀ calls' : List (Call Uri Diagnostic),
      (∀ document, latest calls' document = latest calls document) →
      ∀ uri, (Session.after resolveTarget calls').shows uri =
        (Session.after resolveTarget calls).shows uri := by
  have hShows : ∀ calls : List (Call Uri Diagnostic), ∀ uri,
      (Session.after resolveTarget calls).shows uri =
        published resolveTarget calls uri := by
    intro calls uri
    have hKept : Kept resolveTarget calls
        (Session.after resolveTarget calls) := kept_after calls
    exact (hKept.shown uri).trans (unionFor_eq_published hKept uri)
  refine ⟨hShows calls, ?_⟩
  intro calls' hLatest uri
  rw [hShows, hShows]
  exact published_congr hLatest uri

/- A document and one with a target in common, planned in any order. -/
def sharedTarget
    (first second : Call String Nat) :
    Session String Nat :=
  Session.after (fun _ file => some (String.ofList file)) [first, second]

theorem client_shows_latest_contributions_shared :
    ∀ uri, (sharedTarget (.plan "b" [⟨some ['t'], [1]⟩])
        (.plan "a" [⟨some ['t'], [2]⟩])).shows uri =
      (sharedTarget (.plan "a" [⟨some ['t'], [2]⟩])
        (.plan "b" [⟨some ['t'], [1]⟩])).shows uri := by
  apply (client_shows_latest_contributions
    (fun _ file => some (String.ofList file)) _).2
  intro document
  unfold latest
  by_cases hA : "a" = document
  · subst hA
    rfl
  · by_cases hB : "b" = document
    · subst hB
      rfl
    · simp [Call.document, hA, hB]

end Lsp

end Borzoi
