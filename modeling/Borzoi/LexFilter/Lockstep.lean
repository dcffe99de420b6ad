import Borzoi.LexFilter.Fetch

/-
  Two runs of the filter side by side.

  Where related states answer every operation alike, related
  configurations stay related along a whole run.  The first run may be
  required to end clean, when cleanness goes back along every operation.
-/

namespace Borzoi

namespace LexFilter

open Program

/- Related states answer every operation alike, up to a clean end. -/
structure Lockstep
    (Rel : Filter → Filter → Prop)
    (Clean : Filter → Prop) :
    Prop where
  initialized : ∀ {s s'}, Rel s s' → s'.initialized = s.initialized
  clean : ∀ {β : Type} (o : Op β) {s b t},
    Op.exec β o s = .ok (b, t) → Clean t → Clean s
  op : ∀ {β : Type} (o : Op β) {s s' b t},
    Rel s s' → Op.exec β o s = .ok (b, t) → Clean t →
    ∃ t', Op.exec β o s' = .ok (b, t') ∧ Rel t t'

/- Configurations that differ at most in their filters. -/
structure Paired
    (Rel : Filter → Filter → Prop)
    (c c' : Config) :
    Prop where
  phase : c.phase = c'.phase
  emitted : c.emitted = c'.emitted
  filter : Rel c.filter c'.filter

variable {run : FilterRun} {raw : List Lexer.RawItem} {source : List UInt8}
variable {fuel : Nat}

namespace Lockstep

variable {Rel : Filter → Filter → Prop} {Clean : Filter → Prop}

variable {c : Config} {fetched : Fetched} {s s' t : Filter}
variable {emitted : List FilteredItem} {α : Type} {p : FilterM α} {a : α}

section

variable (hLock : Lockstep Rel Clean)

include hLock

/- A program run from either state returns the same value. -/
theorem runFilter
    (hRel : Rel s s')
    (hRun : LexFilter.runFilter p s = .ok (a, t))
    (hEnd : Clean t) :
    ∃ t', LexFilter.runFilter p s' = .ok (a, t') ∧ Rel t t' :=
  Prog.run_lockstep
    (fun _ o _ _ _ hExec hClean => hLock.clean o hExec hClean)
    (fun _ o _ _ _ _ hRel hExec hClean => hLock.op o hRel hExec hClean)
    hRel hRun hEnd

/- A program that ends clean started clean. -/
theorem clean_runFilter
    (hRun : LexFilter.runFilter p s = .ok (a, t))
    (hEnd : Clean t) :
    Clean s := by
  by_contra hDirty
  have hStays : ∀ β (o : Op β) (s : Filter) b (t : Filter),
      ¬ Clean s → Op.exec β o s = .ok (b, t) → ¬ Clean t := by
    intro β o s b t hs hExec ht
    exact hs (hLock.clean o hExec ht)
  exact Prog.run_preserves hStays hRun hDirty hEnd

theorem startNext
    (hRel : Rel s s')
    (hStart : LexFilter.startNext s = .ok t)
    (hEnd : Clean t) :
    ∃ t', LexFilter.startNext s' = .ok t' ∧ Rel t t' := by
  unfold LexFilter.startNext at hStart ⊢
  rw [hLock.initialized hRel]
  split at hStart
  · next hTrue =>
      simp only [Except.ok.injEq] at hStart
      rw [if_pos hTrue, ← hStart]
      exact ⟨s', rfl, hRel⟩
  · next hFalse =>
      split at hStart
      · next u hRun =>
          simp only [Except.ok.injEq] at hStart
          subst hStart
          rcases hLock.runFilter hRel hRun hEnd with ⟨u', hRun', hRel'⟩
          rw [if_neg hFalse, hRun']
          exact ⟨u', rfl, hRel'⟩
      · cases hStart

theorem afterIteration
    (hRel : Rel s s')
    (hAfter : LexFilter.afterIteration emitted fetched s = .ok c)
    (hEnd : Clean c.filter) :
    ∃ c', LexFilter.afterIteration emitted fetched s' = .ok c' ∧
      Paired Rel c c' := by
  unfold LexFilter.afterIteration at hAfter ⊢
  cases fetched with
  | Again useBlockRule =>
      simp only [Except.ok.injEq] at hAfter
      subst hAfter
      exact ⟨_, rfl, rfl, rfl, hRel⟩
  | Exhausted =>
      simp only [Except.ok.injEq] at hAfter
      subst hAfter
      exact ⟨_, rfl, rfl, rfl, hRel⟩
  | Yield tt =>
      dsimp only at hAfter ⊢
      split at hAfter
      · next item t hRun =>
          simp only [Except.ok.injEq] at hAfter
          subst hAfter
          rcases hLock.runFilter hRel hRun hEnd with ⟨t', hRun', hRel'⟩
          rw [hRun']
          exact ⟨_, rfl, rfl, rfl, hRel'⟩
      · next t hRun =>
          simp only [Except.ok.injEq] at hAfter
          subst hAfter
          rcases hLock.runFilter hRel hRun hEnd with ⟨t', hRun', hRel'⟩
          rw [hRun']
          exact ⟨_, rfl, rfl, rfl, hRel'⟩
      · cases hAfter

/- An iteration that ends clean was clean before. -/
theorem clean_afterIteration
    (hAfter : LexFilter.afterIteration emitted fetched s = .ok c)
    (hEnd : Clean c.filter) :
    Clean s := by
  unfold LexFilter.afterIteration at hAfter
  split at hAfter
  · simp only [Except.ok.injEq] at hAfter
    subst hAfter
    exact hEnd
  · simp only [Except.ok.injEq] at hAfter
    subst hAfter
    exact hEnd
  · split at hAfter
    · next hRun =>
        simp only [Except.ok.injEq] at hAfter
        subst hAfter
        exact hLock.clean_runFilter hRun hEnd
    · next hRun =>
        simp only [Except.ok.injEq] at hAfter
        subst hAfter
        exact hLock.clean_runFilter hRun hEnd
    · cases hAfter

theorem step
    {c c' d : Config}
    (hPaired : Paired Rel c c')
    (hStep : c.step = .ok d)
    (hEnd : Clean d.filter) :
    ∃ d', c'.step = .ok d' ∧ Paired Rel d d' := by
  rcases hPaired with ⟨hPhase, hEmitted, hRel⟩
  unfold Config.step at hStep ⊢
  rw [← hPhase, ← hEmitted]
  cases hAt : c.phase with
  | Next =>
      rw [hAt] at hStep
      dsimp only at hStep ⊢
      split at hStep
      · next t hStart =>
          simp only [Except.ok.injEq] at hStep
          subst hStep
          rcases hLock.startNext hRel hStart hEnd with
            ⟨t', hStart', hRel'⟩
          rw [hStart']
          exact ⟨_, rfl, rfl, rfl, hRel'⟩
      · cases hStep
  | Fetching useBlockRule =>
      rw [hAt] at hStep
      dsimp only at hStep ⊢
      split at hStep
      · next fetched t hRun =>
          have hMid := hLock.clean_afterIteration hStep hEnd
          rcases hLock.runFilter hRel hRun hMid with ⟨t', hRun', hRel'⟩
          rw [hRun']
          exact hLock.afterIteration hRel' hStep hEnd
      · cases hStep
  | Finished =>
      rw [hAt] at hStep
      simp only [Except.ok.injEq] at hStep
      subst hStep
      exact ⟨c', rfl, hPhase, hEmitted, hRel⟩

theorem clean_step
    {c d : Config}
    (hStep : c.step = .ok d)
    (hEnd : Clean d.filter) :
    Clean c.filter := by
  unfold Config.step at hStep
  split at hStep
  · split at hStep
    · next t hStart =>
        simp only [Except.ok.injEq] at hStep
        subst hStep
        unfold LexFilter.startNext at hStart
        split at hStart
        · simp only [Except.ok.injEq] at hStart
          rw [hStart]
          exact hEnd
        · split at hStart
          · next hRun =>
              simp only [Except.ok.injEq] at hStart
              subst hStart
              exact hLock.clean_runFilter hRun hEnd
          · cases hStart
    · cases hStep
  · split at hStep
    · next hRun =>
        exact hLock.clean_runFilter hRun
          (hLock.clean_afterIteration hStep hEnd)
    · cases hStep
  · simp only [Except.ok.injEq] at hStep
    rw [hStep]
    exact hEnd

/- Paired configurations stay paired along a run that ends clean. -/
theorem runFor
    {c c' d : Config}
    (hPaired : Paired Rel c c')
    (hRun : filterMachine.runFor fuel c = .ok d)
    (hEnd : Clean d.filter) :
    ∃ d', filterMachine.runFor fuel c' = .ok d' ∧ Paired Rel d d' := by
  have hDone : ∀ e e', Paired Rel e e' →
      filterMachine.done e = filterMachine.done e' := by
    intro e e' hPair
    simp only [filterMachine, hPair.phase]
  have hClean : ∀ e e' : Config, filterMachine.step e = .ok e' →
      Clean e'.filter → Clean e.filter :=
    fun e e' hStep hEnd => hLock.clean_step hStep hEnd
  have hStep : ∀ e e' f, Paired Rel e e' →
      filterMachine.step e = .ok f → Clean f.filter →
      ∃ f', filterMachine.step e' = .ok f' ∧ Paired Rel f f' :=
    fun e e' f hPair hStep hEnd => hLock.step hPair hStep hEnd
  exact Machine.runFor_lockstep hDone hClean hStep hPaired hRun hEnd

end

end Lockstep

/-
  A completed run on one side gives a completed run on the other, with
  the same tokens and related filters at the end.
-/
theorem Lockstep.filterCollect
    {Rel : Filter → Filter → Prop}
    {Clean : Filter → Prop}
    (hLock : Lockstep Rel Clean)
    {v v' : LanguageVersion}
    (hStart : Rel (Filter.new source v raw) (Filter.new source v' raw))
    (hRun : LexFilter.filterCollect fuel source v raw = .ok (some run))
    (hEnd : ∀ c : Config, c.result = run → Clean c.filter) :
    ∃ c c' : Config, c.result = run ∧
      LexFilter.filterCollect fuel source v' raw = .ok (some c'.result) ∧
      Paired Rel c c' := by
  unfold LexFilter.filterCollect at hRun ⊢
  split at hRun
  · cases hRun
  · next c hSteps =>
      split at hRun
      · next hDone =>
          simp only [Except.ok.injEq, Option.some.injEq] at hRun
          have hInitial : Paired Rel (.initial source v raw)
              (.initial source v' raw) :=
            ⟨rfl, rfl, hStart⟩
          rcases hLock.runFor hInitial hSteps (hEnd c hRun) with
            ⟨c', hSteps', hPaired⟩
          refine ⟨c, c', hRun, ?_, hPaired⟩
          rw [hSteps']
          dsimp only
          rw [← hPaired.phase, if_pos hDone]
      · cases hRun

/- What every operation preserves holds at the end of a run. -/
theorem filterCollect_invariant
    {Inv : Filter → Prop}
    (hOp : ∀ {β : Type} (o : Op β) {s b t},
      Inv s → Op.exec β o s = .ok (b, t) → Inv t)
    {v : LanguageVersion}
    (hStart : Inv (Filter.new source v raw))
    (hRun : filterCollect fuel source v raw = .ok (some run)) :
    ∃ c : Config, c.result = run ∧ Inv c.filter := by
  -- the run beside itself, with the invariant
  have hLock : Lockstep (fun s s' => s' = s ∧ Inv s) (fun _ => True) := by
    constructor
    · rintro s s' ⟨rfl, -⟩
      rfl
    · exact fun _ _ _ _ _ _ => trivial
    · rintro β o s s' b t ⟨rfl, hInv⟩ hExec -
      exact ⟨t, hExec, rfl, hOp o hInv hExec⟩
  rcases hLock.filterCollect ⟨rfl, hStart⟩ hRun fun _ _ => trivial with
    ⟨c, c', hResult, -, hPaired⟩
  exact ⟨c, hResult, hPaired.filter.2⟩

end LexFilter

end Borzoi
