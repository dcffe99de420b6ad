import Mathlib.Tactic.Common

/-
  Machines that step until they are done, or fail.
-/

namespace Borzoi

namespace Program

/- A deterministic machine with a failing step. -/
structure Machine
    (σ ε : Type) where
  step : σ → Except ε σ
  done : σ → Bool

namespace Machine

variable {σ ε : Type}

/- Take at most `n` steps, stopping when the machine is done. -/
def runFor
    (m : Machine σ ε)
    (n : Nat)
    (s : σ) :
    Except ε σ :=
  match n with
  | 0 => .ok s
  | n + 1 =>
      if m.done s then
        .ok s
      else
        match m.step s with
        | .ok t => m.runFor n t
        | .error e => .error e

/- The states a run from `s` passes through. -/
inductive Reaches
    (m : Machine σ ε) :
    σ → σ → Prop
  | refl (s : σ) : Reaches m s s
  | tail
      {s t u : σ}
      (hReach : Reaches m s t)
      (hMore : m.done t = false)
      (hStep : m.step t = .ok u) :
      Reaches m s u

variable {m : Machine σ ε}

/- Prepend a step to a run. -/
theorem Reaches.head
    {s t u : σ}
    (hMore : m.done s = false)
    (hStep : m.step s = .ok t)
    (hReach : m.Reaches t u) :
    m.Reaches s u := by
  induction hReach with
  | refl =>
      exact .tail (.refl s) hMore hStep
  | tail _ hMore' hStep' ih =>
      exact .tail ih hMore' hStep'

/- A bounded run ends in a reachable state. -/
theorem reaches_of_runFor
    {n : Nat}
    {s t : σ}
    (hRun : m.runFor n s = .ok t) :
    m.Reaches s t := by
  induction n generalizing s with
  | zero =>
      simp only [runFor, Except.ok.injEq] at hRun
      rw [hRun]
      exact .refl t
  | succ n ih =>
      rw [runFor] at hRun
      split at hRun
      · simp only [Except.ok.injEq] at hRun
        rw [hRun]
        exact .refl t
      · next hMore =>
          split at hRun
          · next u hStep =>
              refine .head ?_ hStep (ih hRun)
              simpa using hMore
          · cases hRun

/- A bounded run that fails does so at a reachable state. -/
theorem reaches_of_runFor_error
    {n : Nat}
    {s : σ}
    {e : ε}
    (hRun : m.runFor n s = .error e) :
    ∃ t, m.Reaches s t ∧ m.done t = false ∧
      m.step t = .error e := by
  induction n generalizing s with
  | zero =>
      cases hRun
  | succ n ih =>
      rw [runFor] at hRun
      split at hRun
      · cases hRun
      · next hMore =>
          have hMore' : m.done s = false := by
            simpa using hMore
          split at hRun
          · next u hStep =>
              rcases ih hRun with ⟨t, hReach, hOpen, hFail⟩
              exact ⟨t, .head hMore' hStep hReach, hOpen, hFail⟩
          · next e' hStep =>
              cases hRun
              exact ⟨s, .refl s, hMore', hStep⟩

theorem Reaches.trans
    {s t u : σ}
    (hFirst : m.Reaches s t)
    (hSecond : m.Reaches t u) :
    m.Reaches s u := by
  induction hSecond with
  | refl =>
      exact hFirst
  | tail _ hMore hStep ih =>
      exact .tail ih hMore hStep

/- One more step of a bounded run. -/
theorem runFor_succ
    {n : Nat}
    {s t u : σ}
    (hRun : m.runFor n s = .ok t)
    (hMore : m.done t = false)
    (hStep : m.step t = .ok u) :
    m.runFor (n + 1) s = .ok u := by
  induction n generalizing s with
  | zero =>
      cases hRun
      rw [runFor, if_neg (by simp [hMore]), hStep]
      rfl
  | succ n ih =>
      rw [runFor] at hRun ⊢
      split at hRun
      · next hDone =>
          cases hRun
          rw [hMore] at hDone
          cases hDone
      · next hOpen =>
          rw [if_neg hOpen]
          split at hRun
          · exact ih hRun
          · cases hRun

/- Every reachable state ends a bounded run. -/
theorem runFor_of_reaches
    {s t : σ}
    (hReach : m.Reaches s t) :
    ∃ n, m.runFor n s = .ok t := by
  induction hReach with
  | refl =>
      exact ⟨0, rfl⟩
  | tail _ hMore hStep ih =>
      rcases ih with ⟨n, hRun⟩
      exact ⟨n + 1, runFor_succ hRun hMore hStep⟩

/- What every step preserves holds in every reachable state. -/
theorem reaches_invariant
    {Inv : σ → Prop}
    (hStep : ∀ s t, Inv s → m.done s = false →
      m.step s = .ok t → Inv t)
    {s t : σ}
    (hReach : m.Reaches s t)
    (hInv : Inv s) :
    Inv t := by
  induction hReach with
  | refl =>
      exact hInv
  | tail _ hMore hNext ih =>
      exact hStep _ _ ih hMore hNext

/- The states of a run whose steps all start where `Ok` holds. -/
inductive ReachesWhile
    (m : Machine σ ε)
    (Ok : σ → Prop) :
    σ → σ → Prop
  | refl (s : σ) : ReachesWhile m Ok s s
  | tail
      {s t u : σ}
      (hReach : ReachesWhile m Ok s t)
      (hOk : Ok t)
      (hMore : m.done t = false)
      (hStep : m.step t = .ok u) :
      ReachesWhile m Ok s u

theorem ReachesWhile.head
    {Ok : σ → Prop}
    {s t u : σ}
    (hOk : Ok s)
    (hMore : m.done s = false)
    (hStep : m.step s = .ok t)
    (hReach : m.ReachesWhile Ok t u) :
    m.ReachesWhile Ok s u := by
  induction hReach with
  | refl =>
      exact .tail (.refl s) hOk hMore hStep
  | tail _ hOk' hMore' hStep' ih =>
      exact .tail ih hOk' hMore' hStep'

/-
  A machine whose steps decrease a measure is done, or has failed,
  after that many steps.
-/
theorem runFor_done_of_measure
    {Inv : σ → Prop}
    {measure : σ → Nat}
    (hStep : ∀ s t, Inv s → m.done s = false →
      m.step s = .ok t → Inv t ∧ measure t < measure s)
    {n : Nat}
    {s t : σ}
    (hInv : Inv s)
    (hBound : measure s < n)
    (hRun : m.runFor n s = .ok t) :
    m.done t = true := by
  induction n generalizing s with
  | zero =>
      omega
  | succ n ih =>
      rw [runFor] at hRun
      split at hRun
      · next hDone =>
          simp only [Except.ok.injEq] at hRun
          rw [← hRun]
          exact hDone
      · next hMore =>
          split at hRun
          · next u hNext =>
              rcases hStep s u hInv (by simpa using hMore) hNext with
                ⟨hInv', hLess⟩
              exact ih hInv' (by omega) hRun
          · cases hRun

/- A machine that cannot fail and makes progress finishes. -/
theorem runFor_finishes
    {m : Machine σ Empty}
    {Inv : σ → Prop}
    {measure : σ → Nat}
    (hStep : ∀ s t, Inv s → m.done s = false →
      m.step s = .ok t → Inv t ∧ measure t < measure s)
    {s : σ}
    (hInv : Inv s) :
    ∃ n t, m.runFor n s = .ok t ∧ m.done t = true ∧ Inv t := by
  cases hRun : m.runFor (measure s + 1) s with
  | error e =>
      cases e
  | ok t =>
      refine ⟨_, t, hRun, ?_, ?_⟩
      · exact runFor_done_of_measure hStep hInv (Nat.lt_succ_self _) hRun
      · apply reaches_invariant _ (reaches_of_runFor hRun) hInv
        intro u v hHere hMore hNext
        exact (hStep u v hHere hMore hNext).1

/-
  Related states of two machines stay related along a bounded run
  that ends clean.
-/
theorem runFor_lockstep
    {m' : Machine σ ε}
    {Rel : σ → σ → Prop}
    {Clean : σ → Prop}
    (hDone : ∀ s s', Rel s s' → m.done s = m'.done s')
    (hClean : ∀ s t, m.step s = .ok t → Clean t → Clean s)
    (hStep : ∀ s s' t, Rel s s' → m.step s = .ok t → Clean t →
      ∃ t', m'.step s' = .ok t' ∧ Rel t t')
    {n : Nat}
    {s s' t : σ}
    (hRel : Rel s s')
    (hRun : m.runFor n s = .ok t)
    (hEnd : Clean t) :
    ∃ t', m'.runFor n s' = .ok t' ∧ Rel t t' := by
  induction n generalizing s s' with
  | zero =>
      simp only [runFor, Except.ok.injEq] at hRun
      rw [← hRun]
      exact ⟨s', rfl, hRel⟩
  | succ n ih =>
      rw [runFor] at hRun ⊢
      rw [← hDone s s' hRel]
      split at hRun
      · next hStop =>
          simp only [Except.ok.injEq] at hRun
          rw [← hRun, if_pos hStop]
          exact ⟨s', rfl, hRel⟩
      · next hMore =>
          rw [if_neg hMore]
          split at hRun
          · next u hNext =>
              have hMid : Clean u := by
                by_contra hDirty
                have hStuck : ∀ v w, ¬ Clean v →
                    m.done v = false → m.step v = .ok w →
                      ¬ Clean w := by
                  intro v w hv _ hvw hw
                  exact hv (hClean v w hvw hw)
                exact reaches_invariant hStuck
                  (reaches_of_runFor hRun) hDirty hEnd
              rcases hStep s s' u hRel hNext hMid with
                ⟨u', hNext', hRel'⟩
              rw [hNext']
              exact ih hRel' hRun
          · cases hRun

end Machine

end Program

end Borzoi
