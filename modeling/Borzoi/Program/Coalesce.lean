import Mathlib.Data.List.Chain

/-
  Lists whose neighbours merge.

  A list is written from its first element on; an element is dropped, is
  joined to the last one written, or is written behind it.
-/

namespace Borzoi

namespace Program

structure Merging (α : Type) where
  dropped : α → Bool
  join : α → α → Option α

namespace Merging

variable {α β : Type} {m : Merging α}

/- What is written is kept in reverse. -/
def step
    (m : Merging α)
    (out : List α)
    (atom : α) :
    List α :=
  if m.dropped atom then
    out
  else
    match out with
    | [] => [atom]
    | last :: before =>
        match m.join last atom with
        | some joined => joined :: before
        | none => atom :: last :: before

def merge
    (m : Merging α)
    (atoms : List α) :
    List α :=
  (atoms.foldl m.step []).reverse

/- The ways a step goes. -/
theorem step_cases
    (m : Merging α)
    (out : List α)
    (atom : α) :
    (m.dropped atom = true ∧ m.step out atom = out) ∨
    (m.dropped atom = false ∧ m.step out atom = atom :: out ∧
      ∀ last ∈ out.head?, m.join last atom = none) ∨
    ∃ last before joined,
      m.dropped atom = false ∧ out = last :: before ∧
      m.join last atom = some joined ∧
      m.step out atom = joined :: before := by
  unfold step
  by_cases hDrop : m.dropped atom = true
  · exact Or.inl ⟨hDrop, if_pos hDrop⟩
  · rw [if_neg hDrop]
    have hKept : m.dropped atom = false := Bool.eq_false_iff.2 hDrop
    cases out with
    | nil =>
        refine Or.inr (Or.inl ⟨hKept, rfl, ?_⟩)
        intro last hHead
        cases hHead
    | cons last before =>
        cases hJoin : m.join last atom with
        | none =>
            refine Or.inr (Or.inl ⟨hKept, ?_, ?_⟩)
            · dsimp only
              rw [hJoin]
            · intro other hHead
              cases hHead
              exact hJoin
        | some joined =>
            refine Or.inr (Or.inr
              ⟨last, before, joined, hKept, rfl, hJoin, ?_⟩)
            dsimp only
            rw [hJoin]

variable {atoms : List α}

/- What holds of the elements and of what they join to. -/
theorem merge_all
    {P : α → Prop}
    (hJoin : ∀ a b joined, m.join a b = some joined → P a → P b → P joined)
    (hAtoms : ∀ a ∈ atoms, m.dropped a = false → P a) :
    ∀ a ∈ m.merge atoms, P a := by
  have hRun : ∀ (rest out : List α),
      (∀ a ∈ rest, m.dropped a = false → P a) → (∀ a ∈ out, P a) →
      ∀ a ∈ rest.foldl m.step out, P a := by
    intro rest
    induction rest with
    | nil => exact fun out _ hOut => hOut
    | cons atom rest ih =>
        intro out hRest hOut
        apply ih
        · exact fun a hMem => hRest a (List.mem_cons_of_mem _ hMem)
        · have hAtom := hRest atom List.mem_cons_self
          rcases m.step_cases out atom with
            ⟨-, hStep⟩ | ⟨hKept, hStep, -⟩ |
            ⟨last, before, joined, hKept, hSame, hSome, hStep⟩
          · rw [hStep]
            exact hOut
          · rw [hStep]
            exact List.forall_mem_cons.2 ⟨hAtom hKept, hOut⟩
          · rw [hStep]
            rw [hSame] at hOut
            rcases List.forall_mem_cons.1 hOut with ⟨hLast, hBefore⟩
            exact List.forall_mem_cons.2
              ⟨hJoin last atom joined hSome hLast (hAtom hKept), hBefore⟩
  intro a hMem
  exact hRun atoms [] hAtoms (List.forall_mem_nil _) a
    (List.mem_reverse.1 hMem)

/- What is read off the elements, and splits where they join. -/
theorem merge_flatMap
    {f : α → List β}
    (hDrop : ∀ a, m.dropped a = true → f a = [])
    (hJoin : ∀ a b joined,
      m.join a b = some joined → f joined = f a ++ f b)
    (atoms : List α) :
    (m.merge atoms).flatMap f = atoms.flatMap f := by
  have hRun : ∀ rest out : List α,
      (rest.foldl m.step out).reverse.flatMap f =
        out.reverse.flatMap f ++ rest.flatMap f := by
    intro rest
    induction rest with
    | nil =>
        intro out
        exact (List.append_nil _).symm
    | cons atom rest ih =>
        intro out
        rw [List.foldl_cons, ih, List.flatMap_cons, ← List.append_assoc]
        congr 1
        rcases m.step_cases out atom with
          ⟨hGone, hStep⟩ | ⟨-, hStep, -⟩ |
          ⟨last, before, joined, -, hSame, hSome, hStep⟩
        · rw [hStep, hDrop atom hGone, List.append_nil]
        · rw [hStep, List.reverse_cons, List.flatMap_append,
            List.flatMap_singleton]
        · rw [hStep, hSame, List.reverse_cons, List.reverse_cons,
            List.flatMap_append, List.flatMap_append, List.flatMap_singleton,
            List.flatMap_singleton, hJoin last atom joined hSome,
            List.append_assoc]
  exact hRun atoms []

/- No two neighbours of a merged list join. -/
theorem merge_apart
    (hLeft : ∀ a b c joined,
      m.join a b = none → m.join b c = some joined → m.join a joined = none)
    (atoms : List α) :
    (m.merge atoms).IsChain fun a b => m.join a b = none := by
  have hRun : ∀ rest out : List α,
      out.IsChain (fun b a => m.join a b = none) →
      (rest.foldl m.step out).IsChain fun b a => m.join a b = none := by
    intro rest
    induction rest with
    | nil => exact fun out hOut => hOut
    | cons atom rest ih =>
        intro out hOut
        apply ih
        rcases m.step_cases out atom with
          ⟨-, hStep⟩ | ⟨-, hStep, hApart⟩ |
          ⟨last, before, joined, -, hSame, hSome, hStep⟩
        · rw [hStep]
          exact hOut
        · rw [hStep]
          exact hOut.cons hApart
        · rw [hStep]
          rw [hSame] at hOut
          rcases List.isChain_cons.1 hOut with ⟨hBefore, hRest⟩
          apply hRest.cons
          intro a hHead
          exact hLeft a last atom joined (hBefore a hHead) hSome
  unfold merge
  rw [List.isChain_reverse]
  exact hRun atoms [] List.isChain_nil

/- Another relation of neighbours that joining keeps. -/
theorem merge_chain
    {R : α → α → Prop}
    (hLeft : ∀ a b c joined, m.join b c = some joined → R a b → R a joined)
    (hRight : ∀ a b c joined, m.join a b = some joined → R b c → R joined c)
    (hKept : ∀ a ∈ atoms, m.dropped a = false)
    (hAtoms : atoms.IsChain R) :
    (m.merge atoms).IsChain R := by
  have hRun : ∀ rest out : List α,
      (∀ a ∈ rest, m.dropped a = false) →
      out.IsChain (fun b a => R a b) → rest.IsChain R →
      (∀ last ∈ out.head?, ∀ next ∈ rest.head?, R last next) →
      (rest.foldl m.step out).IsChain fun b a => R a b := by
    intro rest
    induction rest with
    | nil => exact fun out _ hOut _ _ => hOut
    | cons atom rest ih =>
        intro out hKeeps hOut hRest hSeam
        rcases List.isChain_cons.1 hRest with ⟨hNext, hTail⟩
        have hKeepsRest : ∀ a ∈ rest, m.dropped a = false :=
          fun a hMem => hKeeps a (List.mem_cons_of_mem _ hMem)
        rcases m.step_cases out atom with
          ⟨hGone, -⟩ | ⟨-, hStep, -⟩ |
          ⟨last, before, joined, -, hSame, hSome, hStep⟩
        · rw [hKeeps atom List.mem_cons_self] at hGone
          cases hGone
        · rw [List.foldl_cons, hStep]
          apply ih (atom :: out) hKeepsRest _ hTail
          · intro last hHead next hFirst
            cases hHead
            exact hNext next hFirst
          · apply hOut.cons
            intro last hHead
            exact hSeam last hHead atom rfl
        · rw [List.foldl_cons, hStep]
          rw [hSame] at hOut
          rcases List.isChain_cons.1 hOut with ⟨hBefore, hOutRest⟩
          apply ih (joined :: before) hKeepsRest _ hTail
          · intro other hHead next hFirst
            cases hHead
            exact hRight last atom next joined hSome (hNext next hFirst)
          · apply hOutRest.cons
            intro a hHead
            exact hLeft a last atom joined hSome (hBefore a hHead)
  unfold merge
  rw [List.isChain_reverse]
  refine hRun atoms [] hKept List.isChain_nil hAtoms ?_
  intro last hHead
  cases hHead

/- A merged list stays as it is. -/
theorem merge_self
    (hKept : ∀ a ∈ atoms, m.dropped a = false)
    (hApart : atoms.IsChain fun a b => m.join a b = none) :
    m.merge atoms = atoms := by
  have hRun : ∀ rest out : List α,
      (∀ a ∈ rest, m.dropped a = false) →
      (rest.IsChain fun a b => m.join a b = none) →
      (∀ last ∈ out.head?, ∀ next ∈ rest.head?, m.join last next = none) →
      rest.foldl m.step out = rest.reverse ++ out := by
    intro rest
    induction rest with
    | nil => exact fun out _ _ _ => rfl
    | cons atom rest ih =>
        intro out hKeeps hRest hSeam
        rcases List.isChain_cons.1 hRest with ⟨hNext, hTail⟩
        have hStep : m.step out atom = atom :: out := by
          rcases m.step_cases out atom with
            ⟨hGone, -⟩ | ⟨-, hStep, -⟩ |
            ⟨last, before, joined, -, hSame, hSome, -⟩
          · rw [hKeeps atom List.mem_cons_self] at hGone
            cases hGone
          · exact hStep
          · rw [hSame] at hSeam
            rw [hSeam last rfl atom rfl] at hSome
            cases hSome
        rw [List.foldl_cons, hStep, ih, List.reverse_cons, List.append_assoc]
        · rfl
        · exact fun a hMem => hKeeps a (List.mem_cons_of_mem _ hMem)
        · exact hTail
        · intro last hHead next hFirst
          cases hHead
          exact hNext next hFirst
  unfold merge
  rw [hRun atoms [] hKept hApart, List.append_nil, List.reverse_reverse]
  intro last hHead
  cases hHead

end Merging

end Program

end Borzoi
