import Mathlib.Tactic.Common

/-
  Programs over an operation signature.

  A program is a tree of operations: each node performs one
  operation and continues with its reply.  A handler gives
  the operations their concrete effect on a state, and a
  contract gives them an abstract one.
-/

namespace Borzoi

namespace Program

/- A program that performs operations of `Op`. -/
inductive Prog
    (Op : Type → Type)
    (α : Type) :
    Type 1
  | pure (a : α) : Prog Op α
  | op {β : Type} (o : Op β) (k : β → Prog Op α) : Prog Op α

variable {Op : Type → Type} {α β γ : Type} {σ τ ε : Type}

namespace Prog

/- Sequence two programs. -/
def bind
    (p : Prog Op α)
    (f : α → Prog Op β) :
    Prog Op β :=
  match p with
  | .pure a => f a
  | .op o k => .op o (fun b => (k b).bind f)

instance : Monad (Prog Op) where
  pure := .pure
  bind := bind

/- Perform one operation and return its reply. -/
def perform
    (o : Op α) :
    Prog Op α :=
  .op o .pure

end Prog

/- The concrete effect of each operation on a state. -/
abbrev Handler
    (Op : Type → Type)
    (σ ε : Type) :=
  ∀ β : Type, Op β → σ → Except ε (β × σ)

variable {h : Handler Op σ ε} {p : Prog Op α} {a : α} {s t : σ}

namespace Prog

/- Run a program under a handler. -/
def run
    (h : Handler Op σ ε)
    (p : Prog Op α)
    (s : σ) :
    Except ε (α × σ) :=
  match p with
  | .pure a => .ok (a, s)
  | .op o k =>
      match h _ o s with
      | .ok (b, t) => (k b).run h t
      | .error e => .error e

/- The states a run of the program passes through. -/
inductive Visits
    (h : Handler Op σ ε) :
    Prog Op α → σ → σ → Prop
  | here (p : Prog Op α) (s : σ) : Visits h p s s
  | step
      {β : Type} {o : Op β} {k : β → Prog Op α}
      {s t u : σ} {b : β}
      (hRun : h β o s = .ok (b, t))
      (hRest : Visits h (k b) t u) :
      Visits h (.op o k) s u

variable {Inv : σ → Prop}

/- An invariant of every operation holds at every visited state. -/
theorem visits_invariant
    (hOp : ∀ β (o : Op β) s b t,
      Inv s → h β o s = .ok (b, t) → Inv t)
    (hVisit : Visits h p s t)
    (hInv : Inv s) :
    Inv t := by
  induction hVisit with
  | here =>
      exact hInv
  | step hRun _ ih =>
      exact ih (hOp _ _ _ _ _ hInv hRun)

/- A completed run ends in a visited state. -/
theorem visits_of_run
    (hRun : p.run h s = .ok (a, t)) :
    Visits h p s t := by
  induction p generalizing s with
  | pure b =>
      simp only [run, Except.ok.injEq, Prod.mk.injEq] at hRun
      rw [← hRun.2]
      exact Visits.here _ _
  | op o k ih =>
      rw [run] at hRun
      split at hRun
      · next b u hOp =>
          exact Visits.step hOp (ih b hRun)
      · cases hRun

/- An invariant of every operation is an invariant of every run. -/
theorem run_preserves
    (hOp : ∀ β (o : Op β) s b t,
      Inv s → h β o s = .ok (b, t) → Inv t)
    (hRun : p.run h s = .ok (a, t))
    (hInv : Inv s) :
    Inv t :=
  visits_invariant hOp (visits_of_run hRun) hInv

end Prog

namespace Prog

/-
  Two related states answer every operation alike as long as the
  first run ends clean, so they answer every program alike.
-/
theorem run_lockstep
    {Rel : σ → σ → Prop}
    {Clean : σ → Prop}
    (hClean : ∀ β (o : Op β) s b t,
      h β o s = .ok (b, t) → Clean t → Clean s)
    (hOp : ∀ β (o : Op β) s s' b t,
      Rel s s' → h β o s = .ok (b, t) → Clean t →
      ∃ t', h β o s' = .ok (b, t') ∧ Rel t t')
    {s s' t : σ}
    (hRel : Rel s s')
    (hRun : p.run h s = .ok (a, t))
    (hEnd : Clean t) :
    ∃ t', p.run h s' = .ok (a, t') ∧ Rel t t' := by
  induction p generalizing s s' with
  | pure b =>
      simp only [run, Except.ok.injEq, Prod.mk.injEq] at hRun
      rcases hRun with ⟨rfl, rfl⟩
      exact ⟨s', rfl, hRel⟩
  | op o k ih =>
      rw [run] at hRun
      split at hRun
      · next b u hStep =>
          -- cleanliness flows backwards through the tail
          have hMid : Clean u := by
            by_contra hDirty
            have hStuck : ∀ β (o : Op β) s b t,
                ¬ Clean s → h β o s = .ok (b, t) →
                  ¬ Clean t := by
              intro β o s b t hs hOp ht
              exact hs (hClean β o s b t hOp ht)
            exact run_preserves hStuck hRun hDirty hEnd
          rcases hOp _ o s s' b u hRel hStep hMid with
            ⟨u', hStep', hRel'⟩
          rcases ih b hRel' hRun with ⟨t', hRun', hRelEnd⟩
          refine ⟨t', ?_, hRelEnd⟩
          rw [run, hStep']
          exact hRun'
      · cases hRun

end Prog

/-
  The abstract effect of each operation, as a predicate
  transformer on an abstract state.
-/
abbrev Contract
    (Op : Type → Type)
    (τ : Type) :=
  ∀ β : Type, Op β → (β → τ → Prop) → τ → Prop

namespace Prog

/- The weakest precondition of a program under a contract. -/
def wp
    (c : Contract Op τ)
    (p : Prog Op α)
    (Q : α → τ → Prop)
    (t : τ) :
    Prop :=
  match p with
  | .pure a => Q a t
  | .op o k => c _ o (fun b u => (k b).wp c Q u) t

variable {c : Contract Op τ}

@[simp] theorem wp_bind
    (p : Prog Op α)
    (f : α → Prog Op β)
    (Q : β → τ → Prop)
    (t : τ) :
    wp c (p >>= f) Q t ↔
      wp c p (fun a u => wp c (f a) Q u) t := by
  change wp c (p.bind f) Q t ↔ _
  induction p generalizing t with
  | pure a =>
      exact Iff.rfl
  | op o k ih =>
      have hTail :
          (fun b u => wp c ((k b).bind f) Q u) =
            fun b u => wp c (k b)
              (fun a v => wp c (f a) Q v) u := by
        funext b u
        exact propext (ih b u)
      simp only [bind, wp, hTail]

/- Contracts are monotone in the postcondition. -/
def Monotone
    (c : Contract Op τ) :
    Prop :=
  ∀ β (o : Op β) (Q R : β → τ → Prop) t,
    (∀ b u, Q b u → R b u) → c β o Q t → c β o R t

/- The consequence rule. -/
theorem wp_mono
    (hMono : Monotone c)
    {Q R : α → τ → Prop}
    {t : τ}
    (hQR : ∀ a u, Q a u → R a u)
    (hWp : wp c p Q t) :
    wp c p R t := by
  induction p generalizing t with
  | pure a =>
      exact hQR a t hWp
  | op o k ih =>
      exact hMono _ o _ _ t (fun b u hb => ih b hb) hWp

/-
  A reply whose state is related to an abstract one that meets the
  postcondition, or a permitted fault.
-/
def Answers
    (Sim : σ → τ → Prop)
    (Fault : ε → Prop)
    (Q : β → τ → Prop)
    (reply : Except ε (β × σ)) :
    Prop :=
  match reply with
  | .ok (b, s) => ∃ t, Sim s t ∧ Q b t
  | .error e => Fault e

/-
  A contract that is sound for every operation is sound for every
  program.
-/
theorem run_simulates
    {Sim : σ → τ → Prop}
    {Fault : ε → Prop}
    (hOp : ∀ β (o : Op β) (Q : β → τ → Prop) s t,
      Sim s t → c β o Q t → Answers Sim Fault Q (h β o s))
    {Q : α → τ → Prop}
    {t : τ}
    (hSim : Sim s t)
    (hWp : wp c p Q t) :
    Answers Sim Fault Q (p.run h s) := by
  induction p generalizing s t with
  | pure a =>
      exact ⟨t, hSim, hWp⟩
  | op o k ih =>
      have hStep := hOp _ o _ s t hSim hWp
      rw [run]
      revert hStep
      rcases h _ o s with e | ⟨b, s'⟩
      · exact id
      · rintro ⟨t', hSim', hWp'⟩
        exact ih b hSim' hWp'

end Prog

end Program

end Borzoi
