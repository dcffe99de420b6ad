import Borzoi.LexFilter.Moves
import Borzoi.LexFilter.SkipCache
import Borzoi.LexFilter.Upcoming

/-
  The abstract filter simulates the filter.
-/

namespace Borzoi

namespace LexFilter

open Lexer
open Program

/- Nothing has been pulled behind a `;;`. -/
def Fence : List Delayed → Prop
  | [] => True
  | d :: rest =>
      (d.tup.token = .Real .SemiSemi → rest = []) ∧ Fence rest

/- The failures of a stream that was not lexed from the source. -/
def Fault
    (trusted : Prop)
    (e : Panic) :
    Prop :=
  ¬ trusted ∧ (e = .SourceSlice ∨ e = .SubtractOverflow)

/- The abstract state of a filter. -/
structure Sim
    (trusted : Prop)
    (source : List UInt8)
    (s : Filter)
    (t : Abs) :
    Prop where
  text : s.source = source
  pending : t.pending = s.delayed ++ s.upcoming.map fresh
  pulled : t.pulled = s.delayed.length
  stack : t.stack = s.offsideStack
  parenDepth : t.parenDepth = s.parenDepth
  lastRealEnd : t.lastRealEnd = s.lastRealEnd
  lastRealWasAtomicEnd :
    t.lastRealWasAtomicEnd = s.lastRealWasAtomicEnd
  noProcessing : t.noProcessing = s.tokensThatNeedNoProcessing
  initialized : t.initialized = s.initialized
  known : t.known = s.toCore.Knows
  synced : Synced s.toCore
  tracked : Tracked s.toCore.bare
  tokens : ∀ d ∈ s.delayed, t.GoodTok trusted (Bounded source) d.tup
  contexts : ∀ c ∈ s.offsideStack,
    t.GoodPos trusted (Bounded source) c.startPos
  fence : Fence s.delayed
  eof : s.eofPulled = true → s.raw = []
  lexed : trusted → linesStartChars source = true ∧
    fits source s.lastByte s.raw = true

theorem Tracked.bare_iff
    {s : Core} :
    Tracked s.bare ↔ Tracked s := by
  constructor
  · intro h
    exact ⟨h.line, h.start, h.recorded, h.entries, h.ascending⟩
  · intro h
    exact ⟨h.line, h.start, h.recorded, h.entries, h.ascending⟩

section Soundness

variable {trusted : Prop} {source : List UInt8} {s : Filter} {t : Abs}

variable {anchorIsEof ignoreIndent : Bool} {ctxt : Context}
variable {Q : Option TokenTup → Abs → Prop} {e : Panic} {pos : Pos}
variable {strictness : PushStrictness} {trigger : Span} {β : Type}

theorem Abs.GoodPos.grow
    {bounded : Pos → Prop}
    {known : Nat → Prop}
    (hGood : t.GoodPos trusted bounded pos)
    (hKnown : ∀ l, t.known l → known l) :
    (t.grow known).GoodPos trusted bounded pos :=
  ⟨hKnown _ hGood.1, hGood.2⟩

/- A pull from the raw stream takes the first upcoming token. -/
theorem Sim.pull
    (hSim : Sim trusted source s t)
    (hEmpty : s.delayed = []) :
    match s.pullRaw with
    | .error e => Fault trusted e
    | .ok (none, c) =>
        t.pending = [] ∧ (∀ l, t.known l → c.Knows l) ∧
          Sim trusted source { s with toCore := c } (t.grow c.Knows)
    | .ok (some tt, c) =>
        ∃ rest, t.pending = fresh tt :: rest ∧
          (∀ l, t.known l → c.Knows l) ∧
          (t.grow c.Knows).GoodTok trusted (Bounded source) tt ∧
          Sim trusted source { s with toCore := c }
            (t.take rest c.Knows) := by
  have hTracked := Tracked.bare_iff.1 hSim.tracked
  cases hPull : s.pullRaw with
  | error e =>
      rcases Core.pullRawFrom_error hTracked hPull with ⟨rfl, hStuck⟩
      refine ⟨?_, .inl rfl⟩
      intro hTrusted
      rw [hSim.text] at hStuck
      exact hStuck (hSim.lexed hTrusted).2
  | ok r =>
      rcases r with ⟨reply, c⟩
      have hP := Core.pullRawFrom_pulled hTracked hSim.eof hPull
      have hSource : c.source = source := by
        rw [hP.moved]
        exact hSim.text
      have hDelayed : c.delayed = [] := by
        rw [hP.moved]
        exact hEmpty
      have hStack : c.offsideStack = s.offsideStack := by
        rw [hP.moved]
        rfl
      have hKnown : ∀ l, t.known l → c.Knows l := by
        intro l hl
        rw [hSim.known] at hl
        exact hl.of_grows hP.grows
      have hUpcoming : s.upcoming = reply.toList ++ c.upcoming :=
        hP.upcoming
      have hFits : trusted → fits source c.lastByte c.raw = true ∧
          ∀ tt, reply = some tt → Sound (Bounded source) tt := by
        intro hTrusted
        rcases hSim.lexed hTrusted with ⟨hLines, hFits⟩
        rw [← hSim.text] at hLines hFits ⊢
        exact Core.pullRawFrom_fits hTracked hLines hFits hPull
      -- what every reply has in common
      have hAfter : ∀ pending, pending = c.upcoming.map fresh →
          Sim trusted source { s with toCore := c }
            { t with pending := pending, pulled := 0,
                     known := c.Knows } := by
        intro pending hPending
        refine ⟨hSource, ?_, ?_, ?_, ?_, ?_, ?_, ?_, ?_, rfl, ?_, ?_, ?_,
          ?_, ?_, hP.eof, ?_⟩
        · dsimp only
          rw [hDelayed]
          exact hPending
        · dsimp only
          rw [hDelayed]
          rfl
        · exact hSim.stack.trans hStack.symm
        · dsimp only
          rw [hP.moved]
          exact hSim.parenDepth
        · dsimp only
          rw [hP.moved]
          exact hSim.lastRealEnd
        · dsimp only
          rw [hP.moved]
          exact hSim.lastRealWasAtomicEnd
        · dsimp only
          rw [hP.moved]
          exact hSim.noProcessing
        · dsimp only
          rw [hP.moved]
          exact hSim.initialized
        · exact hSim.synced.of_cursorMoved hP.moved
        · exact Tracked.bare_iff.2 hP.tracked
        · dsimp only
          rw [hDelayed]
          intro d hMem
          cases hMem
        · dsimp only
          rw [hStack]
          intro ctxt hMem
          exact (hSim.contexts ctxt hMem).grow hKnown
        · dsimp only
          rw [hDelayed]
          trivial
        · intro hTrusted
          exact ⟨(hSim.lexed hTrusted).1, (hFits hTrusted).1⟩
      have hPulledZero : t.pulled = 0 := by
        rw [hSim.pulled, hEmpty]
        rfl
      have hPending : t.pending = (reply.toList ++ c.upcoming).map
          fresh := by
        rw [hSim.pending, hEmpty, hUpcoming]
        rfl
      cases reply with
      | none =>
          have hNone : c.upcoming = [] := hP.last rfl
          have hNil : t.pending = [] := by
            rw [hPending, hNone]
            rfl
          refine ⟨hNil, hKnown, ?_⟩
          have hSim' := hAfter t.pending (by rw [hNil, hNone]; rfl)
          rw [← hPulledZero] at hSim'
          exact hSim'
      | some tt =>
          refine ⟨c.upcoming.map fresh, hPending, hKnown, ?_, ?_⟩
          · have hLines := hP.knows tt rfl
            exact ⟨hLines.1, hLines.2,
              fun hTrusted => (hFits hTrusted).2 tt rfl⟩
          · have hSim' := hAfter (c.upcoming.map fresh) rfl
            have hZero : t.pulled - 1 = 0 := by omega
            rw [← hZero] at hSim'
            exact hSim'

/- What an operation of the filter must answer. -/
def Answers
    (trusted : Prop)
    (source : List UInt8)
    {β : Type}
    (Q : β → Abs → Prop)
    (reply : Except Panic (β × Filter)) :
    Prop :=
  Prog.Answers (Sim trusted source) (Fault trusted) Q reply

/- Run an operation of the core on a filter. -/
def onCore
    {β : Type}
    (s : Filter)
    (reply : Except Panic (β × Core)) :
    Except Panic (β × Filter) :=
  match reply with
  | .ok (b, c) => .ok (b, { s with toCore := c })
  | .error e => .error e

section

variable (hSim : Sim trusted source s t)

include hSim

/- Pulling takes the next token when none is delayed. -/
theorem Sim.take_raw
    (hEmpty : s.delayed = [])
    (hTake : takeContract trusted (Bounded source) Q t) :
    Answers trusted source Q (onCore s s.pullRaw) := by
  have hPull := hSim.pull hEmpty
  unfold takeContract at hTake
  revert hPull
  rcases s.pullRaw with e | ⟨_ | tt, c⟩
  · exact id
  · rintro ⟨hNil, hKnown, hSim'⟩
    rw [hNil] at hTake
    exact ⟨_, hSim', hTake _ hKnown⟩
  · rintro ⟨rest, hPending, hKnown, hGood, hSim'⟩
    rw [hPending] at hTake
    refine ⟨_, hSim', hTake _ hKnown hGood ?_⟩
    intro _
    rw [hSim.pulled, hEmpty]
    rfl

theorem Sim.pop
    (hTake : takeContract trusted (Bounded source) Q t) :
    Answers trusted source Q (onCore s s.popNextTokenTup) := by
  unfold Core.popNextTokenTup
  split
  · next d rest hDelayed =>
      have hPending : t.pending =
          d :: (rest ++ s.upcoming.map fresh) := by
        rw [hSim.pending, hDelayed]
        rfl
      unfold takeContract at hTake
      rw [hPending] at hTake
      have hFence := hSim.fence
      rw [hDelayed] at hFence
      have hLength : t.pulled - 1 = rest.length := by
        rw [hSim.pulled, hDelayed]
        rfl
      have hMem : d ∈ s.delayed := by
        rw [hDelayed]
        exact List.mem_cons_self
      refine ⟨t.take (rest ++ s.upcoming.map fresh) t.known, ?_,
        hTake _ (fun _ => id) (hSim.tokens d hMem) ?_⟩
      · refine { hSim with
          pending := rfl
          pulled := hLength
          tokens := ?_
          fence := hFence.2 }
        intro d' hd'
        refine hSim.tokens d' ?_
        rw [hDelayed]
        exact List.mem_cons_of_mem _ hd'
      · intro hSemi
        rw [hLength, hFence.1 hSemi]
        rfl
  · next hDelayed =>
      exact hSim.take_raw hDelayed hTake

theorem Sim.delay
    {d : Delayed}
    (hGood : t.GoodTok trusted (Bounded source) d.tup)
    (hFenced : t.Fenced d.tup) :
    Sim trusted source { s with delayed := d :: s.delayed }
      (t.delay d) := by
  refine { hSim with
    pending := ?_
    pulled := ?_
    tokens := ?_
    fence := ⟨?_, hSim.fence⟩ }
  · exact congrArg (d :: ·) hSim.pending
  · exact congrArg (· + 1) hSim.pulled
  · intro d' hMem
    rcases List.mem_cons.1 hMem with rfl | hOld
    · exact hGood
    · exact hSim.tokens d' hOld
  · intro hSemi
    have hZero := hFenced hSemi
    rw [hSim.pulled] at hZero
    exact List.length_eq_zero_iff.1 hZero

theorem Sim.peek
    (hLook : lookContract trusted (Bounded source) Q t) :
    Answers trusted source Q (onCore s s.peekNextTokenTup) := by
  unfold Core.peekNextTokenTup
  split
  · next d rest hDelayed =>
      have hPending : t.pending =
          d :: (rest ++ s.upcoming.map fresh) := by
        rw [hSim.pending, hDelayed]
        rfl
      unfold lookContract at hLook
      rw [hPending] at hLook
      have hMem : d ∈ s.delayed := by
        rw [hDelayed]
        exact List.mem_cons_self
      refine ⟨t.look t.known, ?_,
        hLook _ (fun _ => id) (hSim.tokens d hMem)⟩
      refine { hSim with pulled := ?_ }
      have hPulled : t.pulled = rest.length + 1 := by
        rw [hSim.pulled, hDelayed]
        rfl
      unfold Abs.look
      dsimp only
      rw [hDelayed, List.length_cons, hPulled]
      omega
  · next hDelayed =>
      have hPull := hSim.pull hDelayed
      unfold lookContract at hLook
      revert hPull
      rcases s.pullRaw with e | ⟨_ | tt, c⟩
      · exact id
      · rintro ⟨hNil, hKnown, hSim'⟩
        rw [hNil] at hLook
        exact ⟨_, hSim', hLook _ hKnown⟩
      · rintro ⟨rest, hPending, hKnown, hGood, hSim'⟩
        rw [hPending] at hLook
        refine ⟨_, ?_, hLook _ hKnown hGood⟩
        have hZero : t.pulled = 0 := by
          rw [hSim.pulled, hDelayed]
          rfl
        -- the token taken is put back
        have hBack := hSim'.delay (d := fresh tt) hGood (by
          intro _
          exact Nat.sub_eq_zero_of_le (by omega))
        have hEq : (t.take rest c.Knows).delay (fresh tt) =
            t.look c.Knows := by
          unfold Abs.delay Abs.take Abs.look
          simp only [hZero, hPending]
          rfl
        rw [hEq] at hBack
        exact hBack

end

------------------------------------------------------------
-- Pushes
------------------------------------------------------------

/- A slice between two boundaries exists. -/
theorem sliceSource_ne_error
    {a n : Nat}
    (hStart : isCharBoundary source a = true)
    (hStop : isCharBoundary source (a + n) = true) :
    sliceSource source a (a + n) ≠ .error e := by
  intro hFail
  rw [sliceSource, if_pos ⟨Nat.le_add_right a n, hStart, hStop⟩]
    at hFail
  cases hFail

section

variable (hSim : Sim trusted source s t)

include hSim

/- The column of a good position can be counted. -/
theorem Sim.utf16Col
    (hGood : t.GoodPos trusted (Bounded source) pos)
    (hFail : s.utf16Col pos = .error e) :
    Fault trusted e := by
  have hTracked := Tracked.bare_iff.1 hSim.tracked
  have hKnows : s.toCore.Knows pos.line := by
    have hKnown := hGood.1
    rw [hSim.known] at hKnown
    exact hKnown
  have hLookup : ∃ b, LineStart s.source pos.line b ∧
      s.byteOffset ⟨pos.line, 0⟩ = .ok (b + 0) :=
    hTracked.byteOffset hKnows
  rcases hLookup with ⟨b, hStart, hOffset⟩
  unfold Core.utf16Col at hFail
  rw [hOffset] at hFail
  rw [hSim.text] at hStart
  dsimp only at hFail
  split at hFail
  · next hSlice =>
      cases hFail
      rw [hSim.text, Nat.add_zero] at hSlice
      refine ⟨?_, ?_⟩
      · intro hTrusted
        rcases hGood.2 hTrusted with ⟨b', hStart', hBoundary, -⟩
        have hSame := hStart.unique hStart'
        rw [← hSame] at hBoundary
        have hLines := (hSim.lexed hTrusted).1
        exact sliceSource_ne_error
          (isCharBoundary_of_lineStart hLines hStart) hBoundary hSlice
      · unfold sliceSource at hSlice
        split at hSlice
        · cases hSlice
        · cases hSlice
          exact .inl rfl
  · cases hFail

/- The indentation check fails on untrusted streams only. -/
theorem Sim.isCorrectIndent
    (hFail : s.isCorrectIndent ignoreIndent anchorIsEof ctxt =
      .error e) :
    Fault trusted e := by
  rcases undentationLimitReference_ok true ctxt s.offsideStack with
    ⟨limit, hLimit, hPlace⟩
  unfold Core.isCorrectIndent at hFail
  rw [hSim.synced, undentationLimit_eq_reference, hLimit] at hFail
  split at hFail
  · cases hFail
  · dsimp only at hFail
    by_cases hUndent : limit.col ≤
        (ctxt.startPos.col : Int) - (if anchorIsEof then 1 else 0)
    · rw [if_pos hUndent] at hFail
      cases hFail
    · rw [if_neg hUndent] at hFail
      split at hFail
      · next hCol =>
          cases hFail
          rcases hPlace with rfl | ⟨other, hMem, hPos⟩
          · -- without a limit every column is good
            exfalso
            apply hUndent
            unfold noLimit
            dsimp only
            split <;> omega
          · have hGood := hSim.contexts other hMem
            rw [← hPos] at hGood
            exact hSim.utf16Col hGood hCol
      · cases hFail

/- A good context can be pushed. -/
theorem Sim.push
    {ctxt : Context}
    (hGood : t.GoodPos trusted (Bounded source) ctxt.startPos) :
    ∃ c, s.pushContext ctxt = .ok c ∧
      Sim trusted source { s with toCore := c } (t.push ctxt) := by
  have hTracked := Tracked.bare_iff.1 hSim.tracked
  have hRecord : ∃ pushes, s.recordPush ctxt = .ok pushes := by
    unfold Core.recordPush
    split
    · exact ⟨none, rfl⟩
    · have hKnown := hGood.1
      rw [hSim.known] at hKnown
      have hLookup : ∃ b, LineStart s.source ctxt.startPos.line b ∧
          s.byteOffset ctxt.startPos =
            .ok (b + ctxt.startPos.col) := hTracked.byteOffset hKnown
      rcases hLookup with ⟨b, -, hOffset⟩
      simp only [hOffset]
      exact ⟨_, rfl⟩
  rcases hRecord with ⟨pushes, hRecord⟩
  rcases skipEntry_buildSkip ctxt s.offsideStack with
    ⟨entry, hEntry, hBuild⟩
  have hPush : s.pushContext ctxt = .ok { s.toCore with
      pushes := pushes
      offsideStack := ctxt :: s.offsideStack
      undentationSkip := entry :: s.undentationSkip } := by
    unfold Core.pushContext
    rw [hRecord]
    dsimp only
    rw [← hSim.synced] at hEntry
    rw [hEntry]
  refine ⟨_, hPush, ?_⟩
  refine { hSim with
    stack := congrArg (ctxt :: ·) hSim.stack
    synced := ?_
    contexts := ?_ }
  · unfold Synced
    dsimp only
    rw [hSim.synced]
    exact hBuild.symm
  · intro other hMem
    rcases List.mem_cons.1 hMem with rfl | hOld
    · exact hGood
    · exact hSim.contexts other hOld

/- Reporting an indentation fault changes nothing abstract. -/
theorem Sim.report
    {fault : Option OffsideMessage} :
    Sim trusted source
      ((s.reportFault trigger fault).raiseShapeFlag strictness fault)
      t := by
  have hReport : Sim trusted source (s.reportFault trigger fault) t := by
    cases fault with
    | none =>
        exact hSim
    | some message =>
        exact { hSim with }
  unfold Filter.raiseShapeFlag
  split
  · exact { hReport with }
  · exact hReport

theorem Sim.tryPush
    {Q : Bool → Abs → Prop}
    (hGood : t.GoodPos trusted (Bounded source) ctxt.startPos)
    (hPushed : Q true (t.push ctxt))
    (hRefused : strictness = .VersionGated → Q false t) :
    Answers trusted source Q
      (s.tryPushCtxt strictness ignoreIndent anchorIsEof trigger
        ctxt) := by
  unfold Filter.tryPushCtxt
  split
  · next hFail =>
      exact hSim.isCorrectIndent hFail
  · next fault _ =>
      have hReport : Sim trusted source
          ((s.reportFault trigger fault).raiseShapeFlag strictness fault)
          t := hSim.report
      dsimp only
      split
      · next hRefuses =>
          refine ⟨t, hReport, hRefused ?_⟩
          cases strictness with
          | AlwaysLenient =>
              simp [Filter.refusesOffside] at hRefuses
          | VersionGated =>
              rfl
      · rcases hReport.push hGood with ⟨c, hCore, hAfter⟩
        rw [hCore]
        exact ⟨_, hAfter, hPushed⟩

/- Popping a context. -/
theorem Sim.popContext :
    s.popCtxt.1 = t.stack.head? ∧
      Sim trusted source { s with toCore := s.popCtxt.2 }
        { t with stack := t.stack.tail } := by
  have hSync := hSim.synced.popCtxt
  rw [hSim.stack]
  unfold Core.popCtxt at *
  split
  · next hStack =>
      rw [hStack]
      refine ⟨rfl, { hSim with stack := ?_ }⟩
      exact hStack.symm
  · next ctxt rest hStack =>
      rw [hStack] at hSync ⊢
      refine ⟨rfl, { hSim with stack := rfl, synced := hSync, contexts := ?_ }⟩
      intro other hMem
      refine hSim.contexts other ?_
      rw [hStack]
      exact List.mem_cons_of_mem _ hMem

theorem Sim.coreOp
    {o : CoreOp β}
    {Q : β → Abs → Prop}
    (hContract : coreContract trusted (Bounded source) o Q t) :
    Answers trusted source Q (onCore s (o.exec s.toCore)) := by
  cases o with
  | offsideStack =>
      refine ⟨t, hSim, ?_⟩
      rw [← hSim.stack]
      refine hContract ?_
      rw [hSim.stack]
      exact hSim.contexts
  | parenDepth =>
      refine ⟨t, hSim, ?_⟩
      rw [← hSim.parenDepth]
      exact hContract
  | lastRealEnd =>
      refine ⟨t, hSim, ?_⟩
      rw [← hSim.lastRealEnd]
      exact hContract
  | lastRealWasAtomicEnd =>
      refine ⟨t, hSim, ?_⟩
      rw [← hSim.lastRealWasAtomicEnd]
      exact hContract
  | tokensThatNeedNoProcessing =>
      refine ⟨t, hSim, ?_⟩
      rw [← hSim.noProcessing]
      exact hContract
  | sourceByte i =>
      exact ⟨t, hSim, hContract _⟩
  | tokensLeft =>
      refine ⟨t, hSim, hContract _ ?_⟩
      have hLength := Core.upcoming_length s.toCore
      rw [hSim.pending, List.length_append, List.length_map]
      unfold Core.tokensLeft
      omega
  | pullRaw =>
      rcases hContract with ⟨hZero, hTake⟩
      rw [hSim.pulled] at hZero
      exact hSim.take_raw (List.length_eq_zero_iff.1 hZero) hTake
  | peekNextTokenTup =>
      exact hSim.peek hContract
  | popNextTokenTup =>
      exact hSim.pop hContract
  | delayToken tt =>
      rcases hContract with ⟨hGood, hFenced, hQ⟩
      exact ⟨_, hSim.delay (d := ⟨tt, false⟩) hGood hFenced, hQ⟩
  | delayTokenNoProcessing tt =>
      rcases hContract with ⟨hGood, hFenced, hQ⟩
      have hDelay := hSim.delay (d := ⟨tt, true⟩) hGood hFenced
      refine ⟨_, ?_, hQ⟩
      exact { hDelay with
        noProcessing := congrArg (· + 1) hSim.noProcessing }
  | popCtxt =>
      rcases hSim.popContext with ⟨hHead, hAfter⟩
      have hQ : Q s.popCtxt.1 { t with stack := t.stack.tail } := by
        rw [hHead]
        exact hContract
      exact ⟨_, hAfter, hQ⟩
  | setLastRealEnd n =>
      exact ⟨{ t with lastRealEnd := n },
        { hSim with lastRealEnd := rfl }, hContract⟩
  | setLastRealWasAtomicEnd b =>
      exact ⟨{ t with lastRealWasAtomicEnd := b },
        { hSim with lastRealWasAtomicEnd := rfl }, hContract⟩
  | setParenDepth n =>
      exact ⟨{ t with parenDepth := n },
        { hSim with parenDepth := rfl }, hContract⟩
  | setTokensThatNeedNoProcessing n =>
      exact ⟨{ t with noProcessing := n },
        { hSim with noProcessing := rfl }, hContract⟩
  | setInitialized b =>
      exact ⟨{ t with initialized := b },
        { hSim with initialized := rfl }, hContract⟩
  | panic p =>
      exact ⟨hContract.1, .inr hContract.2⟩

/- The contract of every operation is sound. -/
theorem Sim.op
    {o : Op β}
    {Q : β → Abs → Prop}
    (hContract : contract trusted (Bounded source) β o Q t) :
    Answers trusted source Q (Op.exec β o s) := by
  cases o with
  | core o =>
      have hCore := hSim.coreOp hContract
      unfold onCore at hCore
      exact hCore
  | version o =>
      cases o with
      | tryPushCtxt strictness ignoreIndent anchorIsEof trigger ctxt =>
          exact hSim.tryPush hContract.1 hContract.2.1 hContract.2.2
      | checkInvalidDeclInTypeDefn keyword tok =>
          refine ⟨t, ?_, hContract⟩
          unfold Filter.checkInvalidDeclInTypeDefn
          split
          · exact { hSim with }
          · exact hSim

/- A program answers with what its weakest precondition promises. -/
theorem Sim.run
    {α : Type}
    {p : FilterM α}
    {Q : α → Abs → Prop}
    (hWp : FilterM.wp trusted (Bounded source) p Q t) :
    Answers trusted source Q (runFilter p s) :=
  Prog.run_simulates
    (fun _ _ _ _ _ hSim hContract => hSim.op hContract) hSim hWp

end

/- The initial state. -/
theorem Sim.initial
    {lang : LanguageVersion}
    {raw : List RawItem}
    (hLexed : trusted → linesStartChars source = true ∧
      fits source 0 raw = true) :
    Sim trusted source (Filter.new source lang raw)
      { pending := (Filter.new source lang raw).upcoming.map fresh
        pulled := 0
        stack := []
        parenDepth := 0
        lastRealEnd := 0
        lastRealWasAtomicEnd := false
        noProcessing := 0
        initialized := false
        known := (Filter.new source lang raw).toCore.Knows } where
  text := rfl
  pending := rfl
  pulled := rfl
  stack := rfl
  parenDepth := rfl
  lastRealEnd := rfl
  lastRealWasAtomicEnd := rfl
  noProcessing := rfl
  initialized := rfl
  known := rfl
  synced := rfl
  tracked := Tracked.bare_iff.2 (Tracked.new source lang raw)
  tokens := by
    intro d hMem
    cases hMem
  contexts := by
    intro c hMem
    cases hMem
  fence := trivial
  eof := by
    intro hPulled
    cases hPulled
  lexed := hLexed

end Soundness

end LexFilter

end Borzoi
