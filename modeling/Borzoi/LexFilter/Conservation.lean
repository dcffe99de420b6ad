import Borzoi.LexFilter.Retirement

/-
  The filter conserves the raw tokens.

  Main declarations:
    * `Stage.Steps.accounts`
    * `Core.waiting`
    * `raw_tokens_conserved`
-/

namespace Borzoi

namespace LexFilter

open Lexer
open Program
open Text

section Stages

variable {ins unreached : List RawItem} {emitted : List FilteredItem}
variable {fetched : Fetched} {waiting waiting' : List RawItem}

/- What an iteration yields is emitted. -/
theorem Accounts.yield
    (hAcc : Accounts ins emitted (fetched.raws ++ waiting)) :
    Accounts ins (emitted ++ fetched.items) waiting := by
  cases fetched with
  | Again useBlockRule =>
      rw [Fetched.items, List.append_nil]
      exact hAcc
  | Exhausted =>
      rw [Fetched.items, List.append_nil]
      exact hAcc
  | Yield tt =>
      have hSame := itemOf_raw tt
      rw [Fetched.raws] at hAcc
      rw [Fetched.items]
      cases hItem : itemOf tt with
      | none =>
          rw [hItem] at hSame
          rw [← hSame] at hAcc
          rw [Option.toList_none, List.append_nil]
          exact hAcc
      | some item =>
          rw [hItem, Option.bind_some] at hSame
          rw [← hSame] at hAcc
          rw [Option.toList_some]
          cases hRaw : item.raw with
          | none =>
              rw [hRaw] at hAcc
              exact hAcc.virtual hRaw
          | some x =>
              rw [hRaw] at hAcc
              exact hAcc.emit hRaw

/- An account survives an iteration. -/
theorem Retires.accounts
    (hSpaced : Spaced ins)
    (hRetires : Retires fetched waiting waiting')
    (hAcc : Accounts ins emitted (waiting ++ unreached)) :
    Accounts ins (emitted ++ fetched.items) (waiting' ++ unreached) := by
  cases hRetires with
  | cuts hCuts =>
      have hAll := hCuts.both (.refl unreached)
      have hNext := hAcc.recuts hSpaced hAll
      rw [List.append_assoc] at hNext
      exact hNext.yield
  | swallows hWaits hYields hToken hSwallowed =>
      rw [hWaits] at hAcc
      rw [hYields, List.append_nil]
      exact Accounts.hide hSpaced hAcc ⟨_, hToken, .inl hSwallowed⟩
  | @replaces x token virt hWaits hYields hToken hReplaced hVirt =>
      rw [hWaits] at hAcc
      rw [hYields]
      have hItem : (⟨.ok (.Virtual virt), x.span⟩ :
          FilteredItem).raw = none := rfl
      refine Accounts.hide hSpaced (hAcc.virtual hItem) ?_
      refine ⟨token, hToken, .inr ⟨hReplaced, virt, hVirt, ?_⟩⟩
      exact List.mem_append_right _ List.mem_cons_self

theorem Iterates.accounts
    {useBlockRule : Bool}
    {v v' : View}
    (hSpaced : Spaced ins)
    (hMove : Iterates useBlockRule v fetched v')
    (hAcc : Accounts ins emitted (raws v.pending ++ unreached)) :
    Accounts ins (emitted ++ fetched.items)
      (raws v'.pending ++ unreached) := by
  have hFits : ∀ x ∈ raws v.pending, Fitting x := fun x hx =>
    hAcc.fitting x (List.mem_append_right _ (List.mem_append_left _ hx))
  rcases hMove.retires hFits with ⟨waiting, hCuts, hRetires⟩
  have hAhead := hAcc.recuts hSpaced (hCuts.both (.refl unreached))
  refine Retires.accounts hSpaced (hRetires ?_) hAhead
  exact fun x hx => hAhead.fitting x
    (List.mem_append_right _ (List.mem_append_left _ hx))

/- The account of a stage. -/
def Stage.Accounted
    (ins unreached : List RawItem)
    (g : Stage) :
    Prop :=
  Accounts ins (g.out.filterMap itemOf)
    (raws g.view.pending ++ unreached)

/- An account survives every step. -/
theorem Stage.Steps.accounts
    {g g' : Stage}
    (hSpaced : Spaced ins)
    (hStep : g.Steps g')
    (hAcc : g.Accounted ins unreached) :
    g'.Accounted ins unreached := by
  unfold Stage.Accounted at *
  cases hStep with
  | start hPhase hInit =>
      exact hAcc
  | @begin d rest hPhase hInit hPending =>
      rw [hPending, raws_cons] at hAcc
      have hSame : raws (g.view.begin d rest).pending =
          (rawOf d.tup).toList ++ raws rest := raws_cons _ _
      dsimp only
      rw [hSame]
      exact hAcc
  | beginEmpty hPhase hInit hPending =>
      exact hAcc
  | again hPhase hMove =>
      have hNext := hMove.accounts hSpaced hAcc
      rw [Fetched.items, List.append_nil] at hNext
      exact hNext
  | @emit useBlockRule tt v hPhase hMove hMore =>
      have hNext := hMove.accounts hSpaced hAcc
      rw [List.filterMap_append]
      have hOne : [tt].filterMap itemOf = (itemOf tt).toList := by
        rw [List.filterMap_cons]
        cases itemOf tt <;> rfl
      rw [hOne]
      exact hNext
  | @finish useBlockRule tt v hPhase hMove hEof =>
      have hNext := hMove.accounts hSpaced hAcc
      have hNone : (Fetched.Yield tt).items = [] := by
        rw [Fetched.items, itemOf, hEof]
        rfl
      rw [hNone, List.append_nil] at hNext
      exact hNext
  | exhausted hPhase hMove =>
      have hNext := hMove.accounts hSpaced hAcc
      rw [Fetched.items, List.append_nil] at hNext
      exact hNext

end Stages

variable {raw : List RawItem} {β : Type} {b : β}

namespace Core

/- The items behind a place the cursor cannot reach. -/
def unreachedFrom
    (s : Core)
    (raw : List RawItem) :
    List RawItem :=
  match raw with
  | [] => []
  | item :: rest =>
      match s.advanceAcross item.span with
      | .error _ => inputs (item :: rest)
      | .ok (_, _, s₁) => s₁.unreachedFrom rest

def unreached
    (s : Core) :
    List RawItem :=
  s.bare.unreachedFrom s.raw

/- The raw items not yet emitted. -/
def waiting
    (s : Core) :
    List RawItem :=
  raws s.delayed ++ inputs s.raw

variable {s s' : Core}

theorem rawOf_contentOf
    {item : RawItem}
    {content : TokenContent}
    {start stop : Pos}
    (hContent : contentOf item = some content) :
    rawOf ⟨content, item.span, start, stop⟩ = some item := by
  unfold contentOf at hContent
  rcases item with ⟨result, span⟩
  cases result with
  | ok token =>
      dsimp only at hContent
      split at hContent
      · cases hContent
      · cases hContent
        rfl
  | error e =>
      cases hContent
      rfl

/- The raw items of a stream are those the filter will pull. -/
theorem inputs_upcomingFrom
    (s : Core)
    (raw : List RawItem) :
    inputs raw =
      raws ((s.upcomingFrom raw).map fresh) ++ s.unreachedFrom raw := by
  induction raw generalizing s with
  | nil =>
      rw [upcomingFrom]
      split
      · rfl
      · split <;> rfl
  | cons item rest ih =>
      rw [upcomingFrom, unreachedFrom]
      cases hMove : s.advanceAcross item.span with
      | error e =>
          rfl
      | ok r =>
          rcases r with ⟨start, stop, s₁⟩
          dsimp only
          cases hContent : contentOf item with
          | none =>
              have hSkip : inputs (item :: rest) = inputs rest := by
                unfold inputs
                rw [List.filter_cons_of_neg]
                rw [hContent]
                intro hSome
                cases hSome
              rw [hSkip]
              exact ih s₁
          | some content =>
              have hFirst : inputs (item :: rest) =
                  item :: inputs rest := by
                unfold inputs
                rw [List.filter_cons_of_pos]
                rw [hContent]
                rfl
              have hTok : rawOf (fresh
                  ⟨content, item.span, start, stop⟩).tup = some item :=
                rawOf_contentOf hContent
              dsimp only
              rw [hFirst, ih s₁, List.map_cons, raws_cons, hTok]
              rfl

/- Pulling does not change what cannot be reached. -/
theorem pullRawFrom_unreached
    {reply : Option TokenTup}
    (hPull : s.pullRawFrom raw = .ok (reply, s')) :
    s'.unreached = s.bare.unreachedFrom raw := by
  induction raw generalizing s with
  | nil =>
      rw [pullRawFrom] at hPull
      split at hPull
      · cases hPull
        rfl
      · split at hPull
        · cases hPull
        · cases hPull
          rfl
  | cons item rest ih =>
      rw [pullRawFrom] at hPull
      split at hPull
      · cases hPull
      · next start stop s₁ hMove =>
          rw [unreachedFrom, advanceAcross_bare hMove]
          dsimp only
          split at hPull
          · exact ih hPull
          · cases hPull
            rfl

theorem unreached_coreOp
    {o : CoreOp β}
    (hExec : o.exec s = .ok (b, s')) :
    s'.unreached = s.unreached := by
  cases o with
  | pullRaw =>
      exact pullRawFrom_unreached hExec
  | peekNextTokenTup =>
      rcases peekNextTokenTup_cases hExec with
        ⟨_, _, _, _, rfl⟩ | ⟨_, _, hPull⟩ | ⟨_, u, _, _, hPull, rfl⟩
      · rfl
      · exact pullRawFrom_unreached hPull
      · have hPulled : u.unreached = s.unreached :=
          pullRawFrom_unreached hPull
        exact hPulled
  | popNextTokenTup =>
      rcases popNextTokenTup_cases hExec with
        ⟨_, _, _, _, rfl⟩ | ⟨_, hPull⟩
      · rfl
      · exact pullRawFrom_unreached hPull
  | popCtxt =>
      have hPop : s.popCtxt.2.unreached = s.unreached := by
        unfold Core.popCtxt
        split <;> rfl
      simp only [CoreOp.exec, Except.ok.injEq] at hExec
      rw [hExec] at hPop
      exact hPop
  | panic p =>
      cases hExec
  | _ =>
      simp only [CoreOp.exec, Except.ok.injEq, Prod.mk.injEq] at hExec
      rcases hExec with ⟨-, rfl⟩
      rfl

theorem unreached_pushContext
    {ctxt : Context}
    (hPush : s.pushContext ctxt = .ok s') :
    s'.unreached = s.unreached := by
  unfold Core.pushContext at hPush
  split at hPush
  · cases hPush
  · split at hPush
    · cases hPush
    · simp only [Except.ok.injEq] at hPush
      rw [← hPush]
      rfl

end Core

/- No operation changes what cannot be reached. -/
theorem unreached_op
    {o : Op β}
    {s s' : Filter}
    (hExec : Op.exec β o s = .ok (b, s')) :
    s'.unreached = s.unreached := by
  cases o with
  | core o =>
      simp only [Op.exec] at hExec
      split at hExec
      · next hCore =>
          simp only [Except.ok.injEq, Prod.mk.injEq] at hExec
          rw [← hExec.2]
          exact Core.unreached_coreOp hCore
      · cases hExec
  | version o =>
      cases o with
      | tryPushCtxt strictness ignoreIndent anchorIsEof trigger ctxt =>
          rcases Filter.tryPushCtxt_cases hExec with
            ⟨fault, -, hCases⟩
          have hReport : ((s.reportFault trigger fault).raiseShapeFlag
              strictness fault).unreached = s.unreached := by
            cases fault with
            | none =>
                unfold Filter.raiseShapeFlag
                split <;> rfl
            | some fault =>
                unfold Filter.raiseShapeFlag
                split <;> rfl
          rcases hCases with
            ⟨-, -, -, rfl⟩ | ⟨-, -, core, hPush, rfl⟩
          · exact hReport
          · exact (Core.unreached_pushContext hPush).trans hReport
      | checkInvalidDeclInTypeDefn keyword tok =>
          simp only [Op.exec, VersionOp.exec, Except.ok.injEq,
            Prod.mk.injEq] at hExec
          rw [← hExec.2]
          unfold Filter.checkInvalidDeclInTypeDefn
          split <;> rfl

------------------------------------------------------------
-- Conservation
------------------------------------------------------------

section Conservation

variable {source : List UInt8} {c : Config} {g : Stage} {t : Abs}

variable {trusted : Prop}

/- The waiting items of a stage are those of the configuration. -/
theorem Tracks.waiting
    (hTracks : Tracks trusted source c g t) :
    raws g.view.pending ++ c.filter.unreached = c.filter.waiting := by
  have hPending : g.view.pending =
      c.filter.delayed ++ c.filter.upcoming.map fresh := by
    rw [← hTracks.view]
    exact hTracks.sim.pending
  have hInputs : inputs c.filter.raw =
      raws (c.filter.upcoming.map fresh) ++ c.filter.unreached :=
    Core.inputs_upcomingFrom _ _
  rw [hPending, raws_append, List.append_assoc, Core.waiting, hInputs]

/- Nothing waits at the end of a run. -/
theorem Tracks.finished
    (hTracks : Tracks trusted source c g t)
    (hPhase : c.phase = .Finished) :
    c.filter.waiting = [] := by
  have hSim := hTracks.sim
  have hNone := (hTracks.valid.finished
    (hTracks.phase.symm.trans hPhase)).1
  rw [← hTracks.view] at hNone
  have hPending : c.filter.delayed ++ c.filter.upcoming.map fresh = [] :=
    hSim.pending.symm.trans hNone
  rcases List.append_eq_nil_iff.1 hPending with ⟨hDelayed, hUpcoming⟩
  -- the end of file was pulled, so the raw stream is empty
  have hPulled : c.filter.eofPulled = true := by
    by_contra hOpen
    have hEnds : EndsInEof (c.filter.upcoming.map fresh) := by
      refine upcomingFrom_endsInEof hSim.tracked ?_
      exact Bool.eq_false_iff.2 hOpen
    rw [hUpcoming] at hEnds
    exact hEnds
  rw [Core.waiting, hDelayed, hSim.eof hPulled]
  rfl

theorem Spaced.inputs
    (hSpaced : Spaced raw) :
    Spaced (LexFilter.inputs raw) :=
  ⟨hSpaced.ordered.sublist List.filter_sublist,
    fun x hx => hSpaced.fitting x (List.mem_of_mem_filter hx)⟩

/-
  In every state of a run the emitted and the waiting raw tokens are
  in order, come from the stream and lose nothing but the tokens
  hidden on purpose.  Nothing waits at the end, and nothing is delayed
  when `peek_initial` pulls from the stream.
-/
theorem raw_tokens_conserved
    (source : List UInt8)
    (lang : LanguageVersion)
    (raw : List RawItem)
    (c : Config)
    (hSpaced : Spaced raw)
    (hReach : filterMachine.Reaches (.initial source lang raw) c) :
    Accounts (inputs raw) c.emitted c.filter.waiting ∧
      (c.phase = .Finished → c.filter.waiting = []) ∧
      (c.filter.initialized = false → c.filter.delayed = []) := by
  have hUntrusted : False → linesStartChars source = true ∧
      fits source 0 raw = true := False.elim
  rcases reaches_tracks hUntrusted hReach with
    ⟨g, t, hStages, hTracks⟩
  have hUnreached : c.filter.unreached =
      (Filter.new source lang raw).unreached := by
    have hOps : ∀ β (o : Op β) (s : Filter) b (s' : Filter),
        s.unreached = (Filter.new source lang raw).unreached →
        Op.exec β o s = .ok (b, s') →
        s'.unreached = (Filter.new source lang raw).unreached :=
      fun _ _ _ _ _ hs hExec => (unreached_op hExec).trans hs
    have hPass : Passes (.initial source lang raw) c.filter :=
      .between hReach
    exact passes_invariant hOps hPass rfl
  have hInit : (Stage.initial source lang raw).Accounted (inputs raw)
      (Filter.new source lang raw).unreached := by
    have hAll : inputs raw = raws ((Filter.new source lang
        raw).upcoming.map fresh) ++
          (Filter.new source lang raw).unreached :=
      Core.inputs_upcomingFrom _ _
    have hStart := Accounts.initial hSpaced.inputs
    nth_rewrite 2 [hAll] at hStart
    exact hStart
  have hStage := (hStages.invariant Stage.initial_valid hInit
    fun h h' _ hAcc hStep => hStep.accounts hSpaced.inputs hAcc).2
  unfold Stage.Accounted at hStage
  rw [← hUnreached, hTracks.waiting, ← hTracks.emitted] at hStage
  refine ⟨hStage, hTracks.finished, ?_⟩
  intro hFresh
  have hPulled : t.pulled = 0 := by
    refine hTracks.ready.resolve_left ?_
    rw [hTracks.sim.initialized, hFresh]
    exact Bool.noConfusion
  rw [hTracks.sim.pulled] at hPulled
  exact List.length_eq_zero_iff.1 hPulled

end Conservation

/- The tokens of `(1..2)`. -/
def rangeStream : List RawItem :=
  [⟨.ok .LParen, ⟨0, 1⟩⟩, ⟨.ok (.IntDotDot "1..".toList), ⟨1, 4⟩⟩,
    ⟨.ok (.Int "2".toList), ⟨4, 5⟩⟩, ⟨.ok .RParen, ⟨5, 6⟩⟩]

theorem rangeStream_spaced : Spaced rangeStream := by
  refine ⟨by decide, ?_⟩
  intro x hMem
  simp only [rangeStream, List.mem_cons, List.not_mem_nil, or_false]
    at hMem
  rcases hMem with rfl | rfl | rfl | rfl
  · exact .of_uncut (by decide) rfl
  · refine ⟨by decide, ?_, ?_⟩
    · intro token n hToken hn
      cases hToken
      cases hn
      rfl
    · intro text hToken
      cases hToken
      decide
  · exact .of_uncut (by decide) rfl
  · exact .of_uncut (by decide) rfl

/- The run over `(1..2)` cuts the `1..` and hides the `)`. -/
theorem raw_tokens_conserved_range :
    ∃ c : Config,
      filterMachine.Reaches
        (.initial [40, 49, 46, 46, 50, 41] .V8_0 rangeStream) c ∧
        c.phase = .Finished ∧
        (shown c.emitted).map RawItem.span =
          [⟨0, 1⟩, ⟨1, 2⟩, ⟨2, 4⟩, ⟨4, 5⟩] ∧
        Accounts (inputs rangeStream) c.emitted c.filter.waiting := by
  cases hRun : filterMachine.runFor 40
      (.initial [40, 49, 46, 46, 50, 41] .V8_0 rangeStream) with
  | error e =>
      cases hRun
  | ok c =>
      have hReach := Machine.reaches_of_runFor hRun
      have hAcc := raw_tokens_conserved _ _ _ c rangeStream_spaced hReach
      refine ⟨c, hReach, ?_, ?_, hAcc.1⟩
      · cases hRun
        rfl
      · cases hRun
        rfl

/- Streams whose spans increase. -/
def Increasing
    (raw : List RawItem) :
    Prop :=
  raw.Pairwise (fun x y => x.span.stop ≤ y.span.start) ∧
    ∀ x ∈ raw, x.span.start < x.span.stop

/-
  The `)` of `()` is dropped, the halves of `@>|}` overlap, and a
  `..^` that does not span its text leaves an empty token.
-/
theorem raw_tokens_lost_and_overlapping :
    (¬ ∀ (source : List UInt8) (lang : LanguageVersion)
      (raw : List RawItem) (c : Config), Increasing raw →
        filterMachine.Reaches (.initial source lang raw) c →
        c.phase = .Finished →
        ∀ i ∈ inputs raw, ∀ b, HoldsByte i b →
          ∃ x ∈ shown c.emitted, HoldsByte x b) ∧
      (¬ ∀ (source : List UInt8) (lang : LanguageVersion)
        (raw : List RawItem) (c : Config), Increasing raw →
          (∀ x ∈ raw, Fitting x) →
          filterMachine.Reaches (.initial source lang raw) c →
          (shown c.emitted).Pairwise fun x y =>
            x.span.stop ≤ y.span.start) ∧
      ¬ ∀ (source : List UInt8) (lang : LanguageVersion)
        (raw : List RawItem) (c : Config), Increasing raw →
          filterMachine.Reaches (.initial source lang raw) c →
          ∀ x ∈ shown c.emitted, x.span.start < x.span.stop := by
  refine ⟨?_, ?_, ?_⟩
  · intro hComplete
    cases hRun : filterMachine.runFor 40
        (.initial [40, 41] .V8_0
          [⟨.ok .LParen, ⟨0, 1⟩⟩, ⟨.ok .RParen, ⟨1, 2⟩⟩]) with
    | error e =>
        cases hRun
    | ok c =>
        have hReach := Machine.reaches_of_runFor hRun
        have hPhase : c.phase = .Finished := by
          cases hRun
          rfl
        have hShown : shown c.emitted = [⟨.ok .LParen, ⟨0, 1⟩⟩] := by
          cases hRun
          rfl
        have hSome := hComplete _ _ _ c (by unfold Increasing; decide)
          hReach hPhase ⟨.ok .RParen, ⟨1, 2⟩⟩
          (List.mem_cons_of_mem _ List.mem_cons_self) 1
          ⟨by decide, by decide⟩
        rw [hShown] at hSome
        rcases hSome with ⟨x, hMem, hHolds⟩
        rw [List.mem_singleton.1 hMem] at hHolds
        exact absurd hHolds.2 (by decide)
  · intro hOrdered
    cases hRun : filterMachine.runFor 40
        (.initial [64, 62, 124, 125] .V8_0
          [⟨.ok .RQuoteBarRBrace, ⟨0, 4⟩⟩]) with
    | error e =>
        cases hRun
    | ok c =>
        have hShown : shown c.emitted = [⟨.ok .RQuote, ⟨0, 2⟩⟩,
            ⟨.ok .BarRBrace, ⟨1, 4⟩⟩] := by
          cases hRun
          rfl
        have hPairs := hOrdered _ _ _ c (by unfold Increasing; decide)
          ?_ (Machine.reaches_of_runFor hRun)
        · rw [hShown] at hPairs
          exact absurd (List.pairwise_pair.1 hPairs) (by decide)
        · intro x hMem
          rw [List.mem_singleton.1 hMem]
          refine ⟨by decide, ?_, nofun⟩
          intro token n hToken hn
          cases hToken
          cases hn
          rfl
  · intro hNonempty
    cases hRun : filterMachine.runFor 40
        (.initial [46] .V8_0 [⟨.ok .DotDotHat, ⟨0, 1⟩⟩]) with
    | error e =>
        cases hRun
    | ok c =>
        have hShown : shown c.emitted = [⟨.ok .DotDot, ⟨0, 0⟩⟩,
            ⟨.ok (.Op "^".toList), ⟨0, 1⟩⟩] := by
          cases hRun
          rfl
        have hEach := hNonempty _ _ _ c (by unfold Increasing; decide)
          (Machine.reaches_of_runFor hRun)
        rw [hShown] at hEach
        exact absurd (hEach _ List.mem_cons_self) (by decide)

end LexFilter

end Borzoi
