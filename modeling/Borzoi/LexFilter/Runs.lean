import Borzoi.LexFilter.Layout
import Borzoi.LexFilter.Refinement.Parens
import Borzoi.LexFilter.Soundness
import Mathlib.Logic.Relation

/-
  Runs of the filter are runs of the abstract filter.

  Every configuration a run reaches has a stage, and every step of
  the run is a step of the stages.  A run fails with a fault of the
  stream only.
-/

namespace Borzoi

namespace LexFilter

open Lexer
open Program
open FilterM

/- What the iterator yields for a token. -/
def itemOf
    (tt : TokenTup) :
    Option FilteredItem :=
  match tt.token with
  | .Real token => some ⟨.ok (.Raw token), tt.span⟩
  | .Virtual virt => some ⟨.ok (.Virtual virt), tt.span⟩
  | .Err e => some ⟨.error e, tt.span⟩
  | .Eof | .Dummy _ _ => none

variable {tt : TokenTup}

section Programs

variable {trusted : Prop} {bounded : Pos → Prop} {t : Abs}

/- The first token of a stream opens a block. -/
theorem wp_peekInitial
    (hZero : t.pulled = 0) :
    wp trusted bounded peekInitial
      (fun _ u => u.initialized = true ∧
        ((t.pending = [] ∧
            u.view = { t.view with initialized := true }) ∨
          ∃ d rest, t.pending = d :: rest ∧
            u.view = t.view.begin d rest)) t := by
  rw [peekInitial, wp_bind, wp_core, coreContract, wp_bind, wp_core,
    coreContract]
  refine ⟨hZero, ?_⟩
  unfold takeContract
  split
  · next hPending =>
      intro known hKnown
      exact ⟨rfl, .inl ⟨hPending, rfl⟩⟩
  · next d rest hPending =>
      intro known hKnown hGood hSemi
      dsimp only
      rw [wp_bind, wp_delayToken]
      refine ⟨hGood, hSemi, ?_⟩
      rw [wp_pushCtxt]
      exact ⟨⟨hGood.1, fun hTrusted => (hGood.2.2 hTrusted).start⟩, rfl,
        .inr ⟨d, rest, hPending, rfl⟩⟩

/- A yielded token becomes an item, or the end. -/
theorem wp_finishNext
    (hDummy : tt.token.isDummy = false) :
    wp trusted bounded (finishNext tt)
      (fun item u => item = itemOf tt ∧ u.view = t.view ∧
        u.pulled = t.pulled) t := by
  unfold finishNext itemOf
  cases hToken : tt.token with
  | Real token =>
      exact ⟨rfl, rfl, rfl⟩
  | Err e =>
      exact ⟨rfl, rfl, rfl⟩
  | Eof =>
      exact ⟨rfl, rfl, rfl⟩
  | Virtual virt =>
      exact ⟨rfl, rfl, rfl⟩
  | Dummy prevEnd inner =>
      rw [hToken] at hDummy
      cases hDummy

/- An iteration may start at a tidy view. -/
theorem Tidy.settled
    (hTidy : Tidy t.view)
    (hInit : t.initialized = true) :
    t.Settled := by
  refine ⟨hInit, ?_, ?_⟩
  · intro hIdle d hMem
    have hMem' : d ∈ t.view.pending := hMem
    rcases hTidy.layout with ⟨-, tt, rest, hFront, hUp⟩ |
      ⟨marked, rest, hSplit, hLength, -, hQuiet, -⟩
    · rw [hFront] at hMem'
      rcases List.mem_cons.1 hMem' with rfl | hRest
      · rfl
      · exact (hUp.quiet d hRest).unmarked
    · have hNone : marked.length = 0 := hLength.trans hIdle
      rw [hSplit, List.length_eq_zero_iff.1 hNone] at hMem'
      exact (hQuiet d hMem').unmarked
  · intro d hMem prevEnd inner hToken
    have hMem' : d ∈ t.view.pending := hMem
    -- only the foremost token can be a dummy
    have hNot : d.tup.token.isDummy = false → False := by
      rw [hToken]
      exact Bool.noConfusion
    rcases hTidy.layout with ⟨-, tt, rest, hFront, hUp⟩ |
      ⟨marked, rest, hSplit, -, hMarked, hQuiet, -⟩
    · rw [hFront] at hMem'
      rcases List.mem_cons.1 hMem' with rfl | hRest
      · exact (hUp.dummy prevEnd inner hToken).1
      · exact (hNot (hUp.quiet d hRest).notDummy).elim
    · rw [hSplit] at hMem'
      rcases List.mem_append.1 hMem' with hPass | hRest
      · exact (hNot (hMarked d hPass).notDummy).elim
      · exact (hNot (hQuiet d hRest).notDummy).elim

end Programs

/- The stage of a configuration. -/
structure Tracks
    (trusted : Prop)
    (source : List UInt8)
    (c : Config)
    (g : Stage)
    (t : Abs) :
    Prop where
  sim : Sim trusted source c.filter t
  view : t.view = g.view
  phase : c.phase = g.phase
  emitted : c.emitted = g.out.filterMap itemOf
  valid : g.Valid
  ready : t.initialized = true ∨ t.pulled = 0

section Runs

variable {trusted : Prop} {source : List UInt8} {c c' : Config} {g : Stage}
variable {t : Abs}

/- The view of a filter. -/
def Filter.view
    (s : Filter) :
    View :=
  ⟨s.delayed ++ s.upcoming.map fresh, s.offsideStack, s.parenDepth,
    s.tokensThatNeedNoProcessing, s.initialized⟩

variable {useBlockRule : Bool} {s : Filter}

theorem Sim.view
    (hSim : Sim trusted source s t) :
    t.view = s.view := by
  unfold Abs.view Filter.view
  rw [hSim.pending, hSim.stack, hSim.parenDepth, hSim.noProcessing,
    hSim.initialized]

/- What a step of the filter answers. -/
def Advances
    (trusted : Prop)
    (source : List UInt8)
    (g : Stage)
    (reply : Except Panic Config) :
    Prop :=
  match reply with
  | .ok c' => ∃ g' t', g.Steps g' ∧ Tracks trusted source c' g' t'
  | .error e => Fault trusted e

section

variable (hTracks : Tracks trusted source c g t)

include hTracks

/- The head of the iterator's `next`. -/
theorem Tracks.startNext
    (hPhase : c.phase = .Next) :
    Advances trusted source g c.step := by
  have hPhase' : g.phase = .Next := hTracks.phase.symm.trans hPhase
  have hSim := hTracks.sim
  have hView := hTracks.view
  unfold Config.step LexFilter.startNext
  rw [hPhase]
  dsimp only
  by_cases hInit : c.filter.initialized = true
  · rw [if_pos hInit]
    have hReady : g.view.initialized = true := by
      rw [← hView]
      exact hSim.initialized.trans hInit
    have hStep : g.Steps ⟨.Fetching true, g.view, g.out⟩ :=
      .start hPhase' hReady
    exact ⟨_, t, hStep, hSim, hView, rfl, hTracks.emitted,
      hStep.valid hTracks.valid, hTracks.ready⟩
  · rw [if_neg hInit]
    have hFresh : t.initialized = false := by
      rw [hSim.initialized]
      simpa using hInit
    have hFresh' : g.view.initialized = false := by
      rw [← hView]
      exact hFresh
    have hZero : t.pulled = 0 := by
      refine hTracks.ready.resolve_left ?_
      rw [hFresh]
      exact Bool.noConfusion
    have hRun := hSim.run (wp_peekInitial hZero)
    revert hRun
    rcases runFilter peekInitial c.filter with e | ⟨_, s⟩
    · exact id
    · rintro ⟨t', hSim', hReady, hCases⟩
      rcases hCases with ⟨hPending, hView'⟩ |
        ⟨d, rest, hPending, hView'⟩
      · have hEmpty : g.view.pending = [] := by
          rw [← hView]
          exact hPending
        have hStep : g.Steps ⟨.Fetching true,
            { g.view with initialized := true }, g.out⟩ :=
          .beginEmpty hPhase' hFresh' hEmpty
        refine ⟨_, t', hStep, hSim', ?_, rfl, hTracks.emitted,
          hStep.valid hTracks.valid, .inl hReady⟩
        rw [hView', hView]
      · have hFirst : g.view.pending = d :: rest := by
          rw [← hView]
          exact hPending
        have hStep : g.Steps ⟨.Fetching true, g.view.begin d rest,
            g.out⟩ := .begin hPhase' hFresh' hFirst
        refine ⟨_, t', hStep, hSim', ?_, rfl, hTracks.emitted,
          hStep.valid hTracks.valid, .inl hReady⟩
        rw [hView', hView]

/- The end of an iteration that yields a token. -/
theorem Tracks.yield
    {u : Abs}
    (hPhase : g.phase = .Fetching useBlockRule)
    (hSim : Sim trusted source s u)
    (hMove : Iterates useBlockRule g.view (.Yield tt) u.view)
    (hReady : u.initialized = true ∨ u.pulled = 0) :
    Advances trusted source g
      (afterIteration c.emitted (.Yield tt) s) := by
  have hValid := hTracks.valid
  have hOpen : g.phase ≠ .Finished := by
    rw [hPhase]
    exact Phase.noConfusion
  have hDummy : tt.token.isDummy = false :=
    (hMove.outcome (hValid.tidy hOpen) (hValid.fetching _ hPhase)).1
  have hRun := hSim.run (wp_finishNext hDummy)
  unfold afterIteration
  dsimp only
  revert hRun
  rcases runFilter (finishNext tt) s with e | ⟨item, s'⟩
  · exact id
  · rintro ⟨u', hSim', rfl, hView, hPulled⟩
    have hReady' : u'.initialized = true ∨ u'.pulled = 0 := by
      rw [hPulled]
      exact hReady.imp_left
        (congrArg View.initialized hView).trans
    have hOut : c.emitted = g.out.filterMap itemOf := hTracks.emitted
    -- the end of file is the only token that ends the iteration
    by_cases hEof : tt.token = .Eof
    · have hNone : itemOf tt = none := by
        simp only [itemOf, hEof]
      have hStep : g.Steps ⟨.Finished, u.view, g.out⟩ :=
        .finish hPhase hMove hEof
      rw [hNone]
      exact ⟨_, u', hStep, hSim', hView, rfl, hOut,
        hStep.valid hValid, hReady'⟩
    · have hSome : ∃ i, itemOf tt = some i := by
        cases hToken : tt.token with
        | Eof =>
            exact absurd hToken hEof
        | Dummy prevEnd inner =>
            rw [hToken] at hDummy
            cases hDummy
        | _ =>
            simp only [itemOf, hToken]
            exact ⟨_, rfl⟩
      rcases hSome with ⟨i, hItem⟩
      have hStep : g.Steps ⟨.Next, u.view, g.out ++ [tt]⟩ :=
        .emit hPhase hMove hEof
      rw [hItem]
      refine ⟨_, u', hStep, hSim', hView, rfl, ?_, hStep.valid hValid,
        hReady'⟩
      dsimp only
      rw [List.filterMap_append, hOut]
      simp [hItem]

/- An iteration of the fetch loop. -/
theorem Tracks.fetch
    (hPhase : c.phase = .Fetching useBlockRule) :
    Advances trusted source g c.step := by
  have hPhase' : g.phase = .Fetching useBlockRule :=
    hTracks.phase.symm.trans hPhase
  have hValid := hTracks.valid
  have hOpen : g.phase ≠ .Finished := by
    rw [hPhase']
    exact Phase.noConfusion
  have hInit : t.initialized = true := by
    have hView := hValid.fetching _ hPhase'
    rw [← hTracks.view] at hView
    exact hView
  have hTidy := hValid.tidy hOpen
  rw [← hTracks.view] at hTidy
  have hWp : wp trusted (Bounded source) (fetchIteration useBlockRule)
      _ t := wp_fetchIteration (hTidy.settled hInit)
  have hRun := hTracks.sim.run hWp
  unfold Config.step
  rw [hPhase]
  dsimp only
  revert hRun
  rcases runFilter (fetchIteration useBlockRule) c.filter with
    e | ⟨fetched, s⟩
  · exact id
  · rintro ⟨u, hSim, hMove, hReady⟩
    rw [hTracks.view] at hMove
    cases fetched with
    | Again again =>
        have hStep : g.Steps ⟨.Fetching again, u.view, g.out⟩ :=
          .again hPhase' hMove
        exact ⟨_, u, hStep, hSim, rfl, rfl, hTracks.emitted,
          hStep.valid hValid, hReady⟩
    | Exhausted =>
        have hStep : g.Steps ⟨.Finished, u.view, g.out⟩ :=
          .exhausted hPhase' hMove
        exact ⟨_, u, hStep, hSim, rfl, rfl, hTracks.emitted,
          hStep.valid hValid, hReady⟩
    | Yield tt =>
        exact hTracks.yield hPhase' hSim hMove hReady

/- Every step of a run is a step of the stages, or a fault. -/
theorem Tracks.step
    (hMore : filterMachine.done c = false) :
    Advances trusted source g c.step := by
  cases hPhase : c.phase with
  | Next =>
      exact hTracks.startNext hPhase
  | Fetching useBlockRule =>
      exact hTracks.fetch hPhase
  | Finished =>
      simp [filterMachine, hPhase] at hMore

end

end Runs

section Reachable

variable (trusted : Prop) (source : List UInt8) (lang : LanguageVersion)
variable (raw : List RawItem)

/- The stage before the first token. -/
def Stage.initial : Stage :=
  ⟨.Next,
    ⟨(Filter.new source lang raw).upcoming.map fresh, [], 0, 0,
      false⟩, []⟩

variable {trusted source lang raw}

theorem eofTup_quiet
    (s : Core)
    (pos : Pos) :
    Quiet (fresh (s.eofTup pos)) :=
  ⟨rfl, rfl, TokenContent.noConfusion, TokenContent.noConfusion⟩

theorem eofTup_endsInEof
    (s : Core)
    (pos : Pos) :
    EndsInEof ([s.eofTup pos].map fresh) := by
  have hToken : (fresh (s.eofTup pos)).tup.token = .Eof := rfl
  rw [List.map_singleton, EndsInEof, if_pos hToken]

variable {c : Config} {s : Core}

/- The upcoming tokens are those of the stream. -/
theorem upcomingFrom_quiet
    {items : List RawItem} :
    ∀ tt ∈ s.upcomingFrom items, Quiet (fresh tt) := by
  induction items generalizing s with
  | nil =>
      intro tt hMem
      rw [Core.upcomingFrom] at hMem
      split at hMem
      · cases hMem
      · split at hMem <;>
          · rw [List.mem_singleton.1 hMem]
            exact eofTup_quiet _ _
  | cons item rest ih =>
      intro tt hMem
      rw [Core.upcomingFrom] at hMem
      split at hMem
      · rw [List.mem_singleton.1 hMem]
        exact eofTup_quiet _ _
      · split at hMem
        · exact ih tt hMem
        · next content hContent =>
            rcases List.mem_cons.1 hMem with rfl | hRest
            · unfold Core.contentOf at hContent
              split at hContent
              · split at hContent
                · cases hContent
                · cases hContent
                  exact .real rfl
              · cases hContent
                exact ⟨rfl, rfl, TokenContent.noConfusion,
                  TokenContent.noConfusion⟩
            · exact ih tt hRest

theorem Core.contentOf_ne_eof
    {item : RawItem}
    {content : TokenContent}
    (hContent : Core.contentOf item = some content) :
    content ≠ .Eof := by
  unfold Core.contentOf at hContent
  split at hContent
  · split at hContent
    · cases hContent
    · cases hContent
      exact TokenContent.noConfusion
  · cases hContent
    exact TokenContent.noConfusion

/- The upcoming tokens end in the end of file. -/
theorem upcomingFrom_endsInEof
    {items : List RawItem}
    (hTracked : Tracked s)
    (hOpen : s.eofPulled = false) :
    EndsInEof ((s.upcomingFrom items).map fresh) := by
  induction items generalizing s with
  | nil =>
      rw [Core.upcomingFrom, hOpen, if_neg Bool.noConfusion]
      split
      · exact eofTup_endsInEof s _
      · exact eofTup_endsInEof s _
  | cons item rest ih =>
      rw [Core.upcomingFrom]
      split
      · exact eofTup_endsInEof s _
      · next start stop s₁ hMove =>
          rcases Core.advanceAcross_crossed hTracked hMove with
            ⟨mid, hCross⟩
          have hOpen₁ : s₁.eofPulled = false := by
            rw [hCross.second.eofPulled, hCross.first.eofPulled]
            exact hOpen
          have hRest : EndsInEof ((s₁.upcomingFrom rest).map fresh) :=
            ih hCross.second.tracked hOpen₁
          split
          · exact hRest
          · next content hContent =>
              refine (EndsInEof.cons ?_).2 hRest
              exact Core.contentOf_ne_eof hContent

/- The initial stage. -/
theorem Stage.initial_valid :
    (Stage.initial source lang raw).Valid := by
  have hTracked : Tracked (Filter.new source lang raw).toCore.bare :=
    Tracked.bare_iff.2 (Tracked.new source lang raw)
  have hQuiet : ∀ d ∈ (Stage.initial source lang raw).view.pending,
      Quiet d := by
    intro d hMem
    rcases List.mem_map.1 hMem with ⟨tt, hIn, rfl⟩
    exact upcomingFrom_quiet tt hIn
  refine ⟨?_, ?_, ?_, ?_⟩
  · intro useBlockRule hPhase
    cases hPhase
  · intro _
    refine Tidy.stream rfl (.inr rfl) ?_ hQuiet
      (upcomingFrom_endsInEof hTracked rfl)
    intro c hMem
    cases hMem
  · intro hPhase
    cases hPhase
  · intro tt hMem
    cases hMem

theorem Tracks.initial
    (hLexed : trusted → linesStartChars source = true ∧
      fits source 0 raw = true) :
    ∃ t, Tracks trusted source (.initial source lang raw)
      (Stage.initial source lang raw) t :=
  ⟨_, Sim.initial hLexed, rfl, rfl, rfl, Stage.initial_valid, .inr rfl⟩

/- Stages reachable from another. -/
abbrev Stage.Reaches : Stage → Stage → Prop :=
  Relation.ReflTransGen Stage.Steps

/- A run of the filter is a run of the stages. -/
theorem reaches_tracks
    (hLexed : trusted → linesStartChars source = true ∧
      fits source 0 raw = true)
    (hReach : filterMachine.Reaches (.initial source lang raw) c) :
    ∃ g t, (Stage.initial source lang raw).Reaches g ∧
      Tracks trusted source c g t := by
  induction hReach with
  | refl =>
      rcases Tracks.initial hLexed with ⟨t, hTracks⟩
      exact ⟨_, t, .refl, hTracks⟩
  | tail hReach hMore hStep ih =>
      rcases ih with ⟨g, t, hStages, hTracks⟩
      have hNext := hTracks.step hMore
      have hStep' : Config.step _ = .ok _ := hStep
      rw [hStep'] at hNext
      rcases hNext with ⟨g', t', hSteps, hTracks'⟩
      exact ⟨g', t', hStages.tail hSteps, hTracks'⟩

/- A run fails with a fault of the stream only. -/
theorem reaches_fault
    {e : Panic}
    (hLexed : trusted → linesStartChars source = true ∧
      fits source 0 raw = true)
    (hReach : filterMachine.Reaches (.initial source lang raw) c)
    (hMore : filterMachine.done c = false)
    (hFail : c.step = .error e) :
    Fault trusted e := by
  rcases reaches_tracks hLexed hReach with ⟨g, t, -, hTracks⟩
  have hNext := hTracks.step hMore
  rw [hFail] at hNext
  exact hNext

/- What every step preserves holds at every stage of a run. -/
theorem Stage.Reaches.invariant
    {Inv : Stage → Prop}
    {g g' : Stage}
    (hReach : g.Reaches g')
    (hValid : g.Valid)
    (hInv : Inv g)
    (hStep : ∀ h h' : Stage, h.Valid → Inv h → h.Steps h' → Inv h') :
    g'.Valid ∧ Inv g' := by
  induction hReach with
  | refl =>
      exact ⟨hValid, hInv⟩
  | tail _ hNext ih =>
      exact ⟨hNext.valid ih.1, hStep _ _ ih.1 ih.2 hNext⟩

end Reachable

end LexFilter

end Borzoi
