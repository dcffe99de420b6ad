import Mathlib.Data.List.Basic
import Mathlib.Data.List.Zip
import Std.Data.TreeMap

/-
  Maps that are iterated in the order of their keys.
-/

namespace Borzoi

open Std

namespace Entries

variable {K V : Type} (cmp : K → K → Ordering)

/- Every key is below the ones after it. -/
def Sorted
    (entries : List (K × V)) :
    Prop :=
  entries.Pairwise fun a b => cmp a.1 b.1 = .lt

def get
    (entries : List (K × V))
    (k : K) :
    Option V :=
  match entries with
  | [] => none
  | (k', v) :: rest =>
      match cmp k k' with
      | .eq => some v
      | _ => get rest k

def insert
    (entries : List (K × V))
    (k : K)
    (v : V) :
    List (K × V) :=
  match entries with
  | [] => [(k, v)]
  | (k', v') :: rest =>
      match cmp k k' with
      | .lt => (k, v) :: (k', v') :: rest
      | .eq => (k, v) :: rest
      | .gt => (k', v') :: insert rest k v

variable {cmp}
variable {entries : List (K × V)} {k k' : K} {v : V}

theorem mem_insert_key
    [LawfulEqCmp cmp]
    {entry : K × V}
    (hMem : entry ∈ insert cmp entries k v) :
    entry = (k, v) ∨ entry ∈ entries := by
  induction entries with
  | nil =>
      exact Or.inl (List.mem_singleton.1 hMem)
  | cons first rest ih =>
      rcases first with ⟨k', v'⟩
      unfold insert at hMem
      split at hMem
      · rcases List.mem_cons.1 hMem with hNew | hOld
        · exact Or.inl hNew
        · exact Or.inr hOld
      · rcases List.mem_cons.1 hMem with hNew | hOld
        · exact Or.inl hNew
        · exact Or.inr (List.mem_cons_of_mem _ hOld)
      · rcases List.mem_cons.1 hMem with hFirst | hLater
        · exact Or.inr (List.mem_cons.2 (Or.inl hFirst))
        · rcases ih hLater with hNew | hOld
          · exact Or.inl hNew
          · exact Or.inr (List.mem_cons_of_mem _ hOld)

theorem insert_sorted
    [TransCmp cmp]
    [LawfulEqCmp cmp]
    (hSorted : Sorted cmp entries) :
    Sorted cmp (insert cmp entries k v) := by
  induction entries with
  | nil =>
      exact List.pairwise_singleton _ _
  | cons first rest ih =>
      rcases first with ⟨k', v'⟩
      rcases List.pairwise_cons.1 hSorted with ⟨hBelow, hRest⟩
      unfold insert
      split
      · next hLt =>
          apply List.pairwise_cons.2
          refine ⟨?_, hSorted⟩
          intro entry hMem
          rcases List.mem_cons.1 hMem with hFirst | hLater
          · rw [hFirst]
            exact hLt
          · exact TransCmp.lt_trans hLt (hBelow entry hLater)
      · next hEq =>
          have hSame : k = k' := LawfulEqCmp.eq_of_compare hEq
          apply List.pairwise_cons.2
          refine ⟨?_, hRest⟩
          rw [hSame]
          exact hBelow
      · next hGt =>
          apply List.pairwise_cons.2
          refine ⟨?_, ih hRest⟩
          intro entry hMem
          rcases mem_insert_key hMem with hNew | hOld
          · rw [hNew]
            exact OrientedCmp.gt_iff_lt.1 hGt
          · exact hBelow entry hOld

theorem get_cons_self
    [ReflCmp cmp] :
    get cmp ((k, v) :: entries) k = some v := by
  have hSelf : cmp k k = .eq := ReflCmp.compare_self
  unfold get
  rw [hSelf]

theorem get_cons_of_ne
    [LawfulEqCmp cmp]
    (hNe : k' ≠ k) :
    get cmp ((k, v) :: entries) k' = get cmp entries k' := by
  rw [get]
  split
  · next hEq =>
      exact absurd (LawfulEqCmp.eq_of_compare hEq) hNe
  · rfl

theorem get_insert_self
    [LawfulEqCmp cmp] :
    get cmp (insert cmp entries k v) k = some v := by
  induction entries with
  | nil =>
      exact get_cons_self
  | cons first rest ih =>
      rcases first with ⟨k', v'⟩
      unfold insert
      split
      · exact get_cons_self
      · exact get_cons_self
      · next hGt =>
          rw [get_cons_of_ne]
          · exact ih
          · rintro rfl
            have hSelf : cmp k k = .eq := ReflCmp.compare_self
            rw [hSelf] at hGt
            cases hGt

theorem get_insert_of_ne
    [LawfulEqCmp cmp]
    (hNe : k' ≠ k) :
    get cmp (insert cmp entries k v) k' = get cmp entries k' := by
  induction entries with
  | nil =>
      exact get_cons_of_ne hNe
  | cons first rest ih =>
      rcases first with ⟨k'', v''⟩
      unfold insert
      split
      · exact get_cons_of_ne hNe
      · next hEq =>
          have hSame : k = k'' := LawfulEqCmp.eq_of_compare hEq
          subst hSame
          rw [get_cons_of_ne hNe, get_cons_of_ne hNe]
      · by_cases hHere : k' = k''
        · rw [hHere, get_cons_self, get_cons_self]
        · rw [get_cons_of_ne hHere, get_cons_of_ne hHere, ih]

theorem mem_of_get
    [LawfulEqCmp cmp]
    (hGet : get cmp entries k = some v) :
    (k, v) ∈ entries := by
  induction entries with
  | nil =>
      cases hGet
  | cons first rest ih =>
      rcases first with ⟨k', v'⟩
      by_cases hHere : k = k'
      · rw [hHere, get_cons_self] at hGet
        cases hGet
        rw [hHere]
        exact List.mem_cons_self
      · rw [get_cons_of_ne hHere] at hGet
        exact List.mem_cons_of_mem _ (ih hGet)

theorem get_of_mem
    [LawfulEqCmp cmp]
    (hSorted : Sorted cmp entries)
    (hMem : (k, v) ∈ entries) :
    get cmp entries k = some v := by
  induction entries with
  | nil =>
      cases hMem
  | cons first rest ih =>
      rcases first with ⟨k', v'⟩
      rcases List.pairwise_cons.1 hSorted with ⟨hBelow, hRest⟩
      rcases List.mem_cons.1 hMem with hFirst | hLater
      · cases hFirst
        exact get_cons_self
      · rw [get_cons_of_ne]
        · exact ih hRest hLater
        · rintro rfl
          have hLt := hBelow _ hLater
          have hSelf : cmp k k = .eq := ReflCmp.compare_self
          rw [hSelf] at hLt
          cases hLt

end Entries

structure SortedMap
    (K V : Type)
    (cmp : K → K → Ordering) where
  entries : List (K × V)
  sorted : Entries.Sorted cmp entries

namespace SortedMap

variable {K V : Type} {cmp : K → K → Ordering}

def empty : SortedMap K V cmp :=
  ⟨[], List.Pairwise.nil⟩

def get
    (m : SortedMap K V cmp)
    (k : K) :
    Option V :=
  Entries.get cmp m.entries k

def insert
    [TransCmp cmp]
    [LawfulEqCmp cmp]
    (m : SortedMap K V cmp)
    (k : K)
    (v : V) :
    SortedMap K V cmp :=
  ⟨Entries.insert cmp m.entries k v, Entries.insert_sorted m.sorted⟩

/- Drop the value at `k`. -/
def erase
    [DecidableEq K]
    (m : SortedMap K V cmp)
    (k : K) :
    SortedMap K V cmp :=
  ⟨m.entries.filter fun entry => entry.1 ≠ k, m.sorted.filter _⟩

def keys
    (m : SortedMap K V cmp) :
    List K :=
  m.entries.map Prod.fst

/- Change the value at `k`, starting from `default` when there is none. -/
def modify
    [TransCmp cmp]
    [LawfulEqCmp cmp]
    (m : SortedMap K V cmp)
    (k : K)
    (default : V)
    (f : V → V) :
    SortedMap K V cmp :=
  m.insert k (f ((m.get k).getD default))

theorem ext_entries
    {m m' : SortedMap K V cmp}
    (hEntries : m.entries = m'.entries) :
    m = m' := by
  cases m
  cases m'
  cases hEntries
  rfl

instance
    [DecidableEq K]
    [DecidableEq V] :
    DecidableEq (SortedMap K V cmp) :=
  fun m m' =>
    decidable_of_iff (m.entries = m'.entries)
      ⟨ext_entries, fun hSame => hSame ▸ rfl⟩

/- Equality of maps, with the equality of values given. -/
def eqBy
    [DecidableEq K]
    (same : V → V → Bool)
    (m m' : SortedMap K V cmp) :
    Bool :=
  m.entries.length == m'.entries.length &&
    (m.entries.zip m'.entries).all fun pair =>
      decide (pair.1.1 = pair.2.1) && same pair.1.2 pair.2.2

variable [LawfulEqCmp cmp] {m m' : SortedMap K V cmp} {k k' : K} {v : V}

theorem get_insert_self
    [TransCmp cmp] :
    (m.insert k v).get k = some v :=
  Entries.get_insert_self

theorem get_insert_of_ne
    [TransCmp cmp]
    (hNe : k' ≠ k) :
    (m.insert k v).get k' = m.get k' :=
  Entries.get_insert_of_ne hNe

theorem mem_entries :
    (k, v) ∈ m.entries ↔ m.get k = some v := by
  constructor
  · exact Entries.get_of_mem m.sorted
  · exact Entries.mem_of_get

theorem mem_keys :
    k ∈ m.keys ↔ ∃ v, m.get k = some v := by
  unfold keys
  rw [List.mem_map]
  constructor
  · rintro ⟨⟨k', v⟩, hMem, rfl⟩
    exact ⟨v, mem_entries.1 hMem⟩
  · rintro ⟨v, hGet⟩
    exact ⟨(k, v), mem_entries.2 hGet, rfl⟩

theorem get_eq_none_of_not_mem
    (hNone : k ∉ m.keys) :
    m.get k = none := by
  cases hGet : m.get k with
  | none => rfl
  | some v => exact absurd (mem_keys.2 ⟨v, hGet⟩) hNone

theorem get_erase_self
    [DecidableEq K] :
    (m.erase k).get k = none := by
  apply get_eq_none_of_not_mem
  rw [mem_keys]
  rintro ⟨v, hGet⟩
  have hMem := mem_entries.2 hGet
  have hKept := (List.mem_filter.1 hMem).2
  exact absurd rfl (of_decide_eq_true hKept)

theorem get_erase_of_ne
    [DecidableEq K]
    (hNe : k' ≠ k) :
    (m.erase k).get k' = m.get k' := by
  apply Option.ext
  intro v
  rw [← mem_entries, ← mem_entries]
  unfold erase
  rw [List.mem_filter]
  constructor
  · exact And.left
  · intro hMem
    exact ⟨hMem, decide_eq_true hNe⟩

variable {same : V → V → Bool}

/- Maps that are equal have the same keys, with the same values. -/
theorem get_of_eqBy
    [DecidableEq K]
    (hEq : m.eqBy same m' = true)
    (hGet : m.get k = some v) :
    ∃ v', m'.get k = some v' ∧ same v v' = true := by
  unfold eqBy at hEq
  rw [Bool.and_eq_true, beq_iff_eq] at hEq
  rcases hEq with ⟨hLength, hAll⟩
  unfold get at hGet ⊢
  generalize m.entries = xs at hGet hLength hAll
  generalize m'.entries = ys at hLength hAll ⊢
  induction xs generalizing ys with
  | nil =>
      cases hGet
  | cons x xs ih =>
      cases ys with
      | nil =>
          cases hLength
      | cons y ys =>
          rcases x with ⟨kx, vx⟩
          rcases y with ⟨ky, vy⟩
          rw [List.zip_cons_cons, List.all_cons, Bool.and_eq_true,
            Bool.and_eq_true, decide_eq_true_iff] at hAll
          rcases hAll with ⟨⟨hKey, hSame⟩, hRest⟩
          dsimp only at hKey hSame
          subst hKey
          by_cases hHere : k = kx
          · rw [hHere, Entries.get_cons_self] at hGet
            cases hGet
            rw [hHere, Entries.get_cons_self]
            exact ⟨vy, rfl, hSame⟩
          · rw [Entries.get_cons_of_ne hHere] at hGet ⊢
            exact ih hGet ys (Nat.succ.inj hLength) hRest

omit [LawfulEqCmp cmp] in
theorem eqBy_flip
    [DecidableEq K]
    (hEq : m.eqBy same m' = true) :
    m'.eqBy (fun v' v => same v v') m = true := by
  unfold eqBy at *
  rw [Bool.and_eq_true, beq_iff_eq] at *
  refine ⟨hEq.1.symm, ?_⟩
  rw [← List.zip_swap, List.all_map, ← hEq.2]
  congr 1
  funext pair
  have hKey : decide (pair.2.1 = pair.1.1) =
      decide (pair.1.1 = pair.2.1) := decide_eq_decide.2 eq_comm
  dsimp only [Function.comp_apply, Prod.swap]
  rw [hKey]

end SortedMap

end Borzoi
