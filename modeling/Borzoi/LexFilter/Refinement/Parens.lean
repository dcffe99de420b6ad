import Borzoi.LexFilter.Refinement.Pushes

/-
  The last rules of an iteration perform moves.
-/

namespace Borzoi

namespace LexFilter

open Lexer
open FilterM

section Parens

variable {trusted : Prop} {bounded : Pos → Prop} {useBlockRule : Bool}
variable {P R : TokenTup → View → Prop} {t : Abs} {tt : TokenTup} {Q : Prop}

/- The keywords that balance a context. -/
def balancingKeywords : List Token :=
  [.In, .Else, .Elif, .Done, .With, .Finally]

variable {rest : List Rule} {rule : Rule} {token : Token}

theorem mem_balancingKeywords
    {ctxt : Context}
    (hParen : ctxt.isParen = false)
    (hAugment : ∀ pos, ctxt ≠ .WithAsAugment pos)
    (hMem : token ∈ balancingTokens ctxt) :
    token ∈ balancingKeywords := by
  cases ctxt with
  | Paren pos opener =>
      cases hParen
  | WithAsAugment pos =>
      exact absurd rfl (hAugment pos)
  | _ =>
      revert token
      simp only [balancingTokens]
      decide

/- The closers of parens and fills. -/
def closers : List Token :=
  fillClosers ++ swallowedClosers ++ emittedClosers

/-
  The head a closer balances is a paren, unless it is the augmentation
  an `end` closes.
-/
theorem balancing_paren
    {stack : List Context}
    (hMem : token ∈ closers)
    (hAugment : ∀ pos, stack.head? = some (.WithAsAugment pos) →
      token ≠ .End)
    (hBalances : tokenBalancesHeadContext (.Real token) stack = true) :
    ∃ pos opener, stack.head? = some (.Paren pos opener) := by
  have hApart : ∀ token ∈ closers, token ∉ balancingKeywords ∧
      token ≠ .With ∧ token ≠ .SemiSemi ∧ token ≠ .In := by decide
  rcases hApart token hMem with ⟨hKeyword, hWith, hSemi, hIn⟩
  cases stack with
  | nil =>
      simp [tokenBalancesHeadContext, withInBraceBlock, topLevelBlock,
        detectJoinInCtxt] at hBalances
  | cons ctxt rest =>
      simp only [tokenBalancesHeadContext, TokenContent.Real.injEq,
        beq_iff_eq, hWith, hSemi, hIn, Bool.or_eq_true,
        Bool.and_eq_true, false_and, false_or, TokenContent.isAnyOf,
        List.contains_eq_mem, decide_eq_true_eq] at hBalances
      cases hParen : ctxt.isParen with
      | true =>
          cases ctxt with
          | Paren pos opener =>
              exact ⟨pos, opener, rfl⟩
          | _ =>
              cases hParen
      | false =>
          refine absurd (mem_balancingKeywords hParen ?_ hBalances)
            hKeyword
          rintro pos rfl
          simp only [balancingTokens, List.mem_singleton] at hBalances
          exact hAugment pos rfl hBalances

/- Popping a paren lowers the depth. -/
theorem wp_popParen
    {S : Unit → Abs → Prop} :
    wp trusted bounded popParen S t ↔
      S () { t with
        stack := t.stack.tail
        parenDepth := t.parenDepth - 1 } := by
  simp only [popParen, wp_bind, wp_popCtxt, wp_core, coreContract]

/- A closer is balanced by popping its paren, or not at all. -/
theorem wp_balanceCloser
    {S : Unit → Abs → Prop}
    (hGood : t.GoodTok trusted bounded tt)
    (hToken : tt.token = .Real token)
    (hMem : token ∈ closers)
    (hAugment : NoAugmentEnd tt t.view)
    (hNone : S () t)
    (hSome : ∀ pos opener prevEnd u,
      t.stack.head? = some (.Paren pos opener) →
      u.view = { t.view with
        pending := fresh (tt.withToken (.Dummy prevEnd token)) ::
          t.pending
        stack := t.stack.tail
        parenDepth := t.parenDepth - 1 } →
      S () u) :
    wp trusted bounded (balanceCloser tt) S t := by
  rw [balanceCloser, wp_bind, wp_offsideStack]
  intro _
  split
  · next hBalances =>
      rw [hToken] at hBalances
      have hNotEnd : ∀ pos,
          t.stack.head? = some (.WithAsAugment pos) →
          token ≠ .End := by
        intro pos hHead hEnd
        apply hAugment pos hHead
        rw [hToken, hEnd]
      rcases balancing_paren hMem hNotEnd hBalances with
        ⟨pos, opener, hHead⟩
      rw [wp_bind, wp_popParen, hToken]
      refine wp_delayDummy (hGood.mono fun _ => id) ?_
      intro prevEnd
      exact hSome pos opener prevEnd _ hHead rfl
  · exact hNone

theorem parenCloseRule_holds :
    Holds trusted bounded useBlockRule
      (fun tt v => Open tt v ∧ NoAugmentEnd tt v)
      parenCloseRule := by
  intro tt t hReady hFacts
  unfold parenCloseRule
  split
  · next hAny =>
      have hReal := TokenContent.isReal_of_isAnyOf hAny
      have hOut : Output useBlockRule tt (.Again useBlockRule) :=
        .swallow (TokenContent.isAnyOf_mono hAny (by decide))
      rcases (TokenContent.isAnyOf_iff _ _).1 hAny with
        ⟨token, hMem, hToken⟩
      have hCloser : ∀ token ∈ swallowedClosers,
          token ∈ closers ∧ token ∈ dummyTokens := by decide
      rw [wp_bind]
      refine wp_balanceCloser hReady.good hToken (hCloser token hMem).1
        hFacts.2 ?_ ?_
      · rw [wp_bind, wp_setLastRealEnd]
        exact .restart (.settleReal hReal hOut)
      · intro pos opener prevEnd u hHead hView
        rw [wp_bind, wp_setLastRealEnd]
        exact .restart (.shiftTo hReal
          (.closeParen hHead (hCloser token hMem).2) hOut hView)
  · split
    · next hAny =>
        have hReal := TokenContent.isReal_of_isAnyOf hAny
        rcases (TokenContent.isAnyOf_iff _ _).1 hAny with
          ⟨token, hMem, hToken⟩
        have hCloser : ∀ token ∈ emittedClosers,
            token ∈ closers ∧ token ∈ dummyTokens := by decide
        rw [wp_bind]
        refine wp_balanceCloser hReady.good hToken
          (hCloser token hMem).1 hFacts.2 ?_ ?_
        · exact hReady.emit rfl (.settleReal hReal .asIs)
        · intro pos opener prevEnd u hHead hView
          exact hReady.emit (congrArg View.initialized hView)
            (.shiftTo hReal (.closeParen hHead (hCloser token hMem).2)
              .asIs hView)
    · exact hReady.pass trivial

theorem parenOpenRule_holds :
    Holds trusted bounded useBlockRule Open parenOpenRule := by
  intro tt t hReady hOpen
  unfold parenOpenRule
  split
  · next opener addBlockEnd hOpener =>
      have hReal : tt.token.isReal = true := by
        cases hContent : tt.token with
        | Real token =>
            rfl
        | _ =>
            rw [hContent] at hOpener
            cases hOpener
      exact hReady.wp_paren hOpen.headless hReal hReady.good.startPos
  · exact hReady.pass trivial

theorem interpOpenRule_holds :
    Holds trusted bounded useBlockRule Open interpOpenRule := by
  intro tt t hReady hOpen
  unfold interpOpenRule
  split
  · next hOpens =>
      have hReal : tt.token.isReal = true := by
        cases hContent : tt.token with
        | Real token =>
            rfl
        | _ =>
            rw [hContent] at hOpens
            cases hOpens
      rw [wp_bind]
      refine wp_pushParen hReady.good hReady.good.stopPos ?_
      intro u first anchor _ hView
      rw [wp_bind, wp_setLastRealEnd]
      refine hReady.emit (congrArg View.initialized hView) ?_
      exact .shiftTo hReal (.paren hOpen.headless) .asIs hView
  · exact hReady.pass trivial

theorem interpCloseRule_holds :
    Holds trusted bounded useBlockRule Open interpCloseRule := by
  intro tt t hReady _
  unfold interpCloseRule
  split
  · next hAny =>
      have hReal := TokenContent.isReal_of_isAnyOf hAny
      rcases (TokenContent.isAnyOf_iff _ _).1 hAny with
        ⟨token, hMem, hToken⟩
      have hCloser : ∀ token ∈ fillClosers,
          token ∈ closers ∧ token ≠ .End := by decide
      rw [wp_bind, wp_offsideStack]
      intro _
      split
      · next hBalances =>
          rw [hToken] at hBalances
          rcases balancing_paren (hCloser token hMem).1
            (fun _ _ => (hCloser token hMem).2) hBalances with
            ⟨pos, opener, hHead⟩
          rw [wp_bind, wp_popParen]
          split
          · rw [wp_bind]
            refine wp_pushParen (hReady.good.mono fun _ => id)
              (hReady.good.stopPos.mono fun _ => id) ?_
            intro u first anchor _ hView
            rw [wp_bind, wp_setLastRealEnd]
            refine hReady.emit (congrArg View.initialized hView) ?_
            exact .shiftTo hReal (.reparen hHead) .asIs hView
          · rw [wp_bind, wp_setLastRealEnd]
            exact hReady.emit rfl
              (.shiftTo hReal (.closeFill hHead) .asIs rfl)
      · rw [wp_bind, wp_setLastRealEnd]
        exact hReady.emit rfl (.settleReal hReal .asIs)
  · exact hReady.pass trivial

/- No dummy gets past its rule. -/
def NoDummy
    (tt : TokenTup)
    (_ : View) :
    Prop :=
  tt.token.isDummy = false

theorem dummyRule_meets :
    Meets trusted bounded useBlockRule P NoDummy dummyRule := by
  intro tt t hReady _
  unfold dummyRule
  split
  · next prevEnd inner hToken =>
      refine .restart (.drop ?_)
      rw [hToken]
      rfl
  · next hOther =>
      refine hReady.pass ?_
      cases hContent : tt.token with
      | Dummy prevEnd inner =>
          exact absurd hContent (hOther prevEnd inner)
      | _ =>
          simp [NoDummy, hContent, TokenContent.isDummy]

theorem blockBeginRule_holds :
    Holds trusted bounded useBlockRule P blockBeginRule := by
  intro tt t hReady _
  unfold blockBeginRule
  split
  · next hToken =>
      refine hReady.emit rfl (.settle ?_ ?_ .asIs)
      · simp [hToken, TokenContent.isDummy]
      · simp [hToken]
  · exact hReady.pass trivial

------------------------------------------------------------
-- Type Applications and Plain Tokens
------------------------------------------------------------

/-
  The end of an iteration.  A failed scan may have cut tokens ahead
  before the move.
-/
inductive Settles
    (useBlockRule : Bool)
    (tt : TokenTup)
    (v : View) :
    Step → Abs → Prop
  | pass
      {ahead : View} {u : Abs}
      (hAhead : Ahead v ahead)
      (hAct : Act useBlockRule tt ahead (.Yield tt) u.view)
      (hInit : u.initialized = true) :
      Settles useBlockRule tt v (.Pass tt) u
  | restart
      {ahead : View} {u : Abs}
      (hAhead : Ahead v ahead)
      (hAct : Act useBlockRule tt ahead (.Again useBlockRule) u.view) :
      Settles useBlockRule tt v .Restart u
  | restartWithoutBlockRule
      {ahead : View} {u : Abs}
      (hAhead : Ahead v ahead)
      (hAct : Act useBlockRule tt ahead (.Again false) u.view) :
      Settles useBlockRule tt v .RestartWithoutBlockRule u
  | emit
      {ahead : View} {u : Abs} {out : TokenTup}
      (hAhead : Ahead v ahead)
      (hAct : Act useBlockRule tt ahead (.Yield out) u.view)
      (hInit : u.initialized = true ∨ u.pulled = 0) :
      Settles useBlockRule tt v (.Emit out) u

/- A rule that ends the iteration whatever it decides. -/
def Finishes
    (trusted : Prop)
    (bounded : Pos → Prop)
    (useBlockRule : Bool)
    (P : TokenTup → View → Prop)
    (rule : Rule) :
    Prop :=
  ∀ tt t, t.Ready trusted bounded tt → P tt t.view →
    wp trusted bounded (rule tt) (Settles useBlockRule tt t.view) t

theorem Ahead.refl
    (v : View) :
    Ahead v v :=
  ⟨.refl _, rfl, rfl, rfl, rfl⟩

theorem Finishes.imp
    (hFinishes : Finishes trusted bounded useBlockRule P rule)
    (hImp : ∀ tt v, R tt v → P tt v) :
    Finishes trusted bounded useBlockRule R rule :=
  fun tt t hReady hR => hFinishes tt t hReady (hImp _ _ hR)

/- A deciding rule in front of rules that end the iteration. -/
theorem Meets.firstOf_finishes
    (hRule : Meets trusted bounded useBlockRule P R rule)
    (hRest : Finishes trusted bounded useBlockRule
      (fun tt v => P tt v ∧ R tt v) (firstOf rest)) :
    Finishes trusted bounded useBlockRule P
      (firstOf (rule :: rest)) := by
  intro tt t hReady hP
  rw [firstOf, wp_bind]
  refine wp_mono (hRule tt t hReady hP) ?_
  intro step u hStep
  cases hStep with
  | pass hView hReady' hFact =>
      rw [← hView] at hP hFact
      have hTail := hRest tt u hReady' ⟨hP, hFact⟩
      rwa [hView] at hTail
  | restart hAct =>
      exact .restart (.refl _) hAct
  | restartWithoutBlockRule hAct =>
      exact .restartWithoutBlockRule (.refl _) hAct
  | emit hAct hInit =>
      exact .emit (.refl _) hAct hInit

/- A rule that adds no fact keeps the others. -/
theorem Holds.firstOf_finishes
    (hRule : Holds trusted bounded useBlockRule P rule)
    (hRest : Finishes trusted bounded useBlockRule P (firstOf rest)) :
    Finishes trusted bounded useBlockRule P
      (firstOf (rule :: rest)) :=
  Meets.firstOf_finishes hRule (hRest.imp fun _ _ h => h.1)

theorem Finishes.firstOf_single
    (hRule : Finishes trusted bounded useBlockRule P rule) :
    Finishes trusted bounded useBlockRule P (firstOf [rule]) := by
  intro tt t hReady hP
  rw [firstOf, wp_bind]
  refine wp_mono (hRule tt t hReady hP) ?_
  intro step u hStep
  cases hStep with
  | pass hAhead hAct hInit =>
      exact .pass hAhead hAct hInit
  | restart hAhead hAct =>
      exact .restart hAhead hAct
  | restartWithoutBlockRule hAhead hAct =>
      exact .restartWithoutBlockRule hAhead hAct
  | emit hAhead hAct hInit =>
      exact .emit hAhead hAct hInit

theorem Recut.unmarked
    {res : Bool}
    {pending pending' : List Delayed}
    (hRecut : Recut res pending pending')
    (hUnmarked : Unmarked pending) :
    Unmarked pending' := by
  have hFresh : ∀ (pieces : List TokenTup) (rest : List Delayed),
      Unmarked rest → Unmarked (pieces.map fresh ++ rest) := by
    intro pieces rest hRest d hMem
    rcases List.mem_append.1 hMem with hPiece | hTail
    · rcases List.mem_map.1 hPiece with ⟨tt, -, rfl⟩
      rfl
    · exact hRest d hTail
  induction hRecut with
  | refl =>
      exact hUnmarked
  | cut _ _ ih =>
      exact hFresh _ _ (ih hUnmarked.tail)
  | fuse _ _ ih =>
      exact hFresh _ _ (ih hUnmarked.tail.tail)
  | app _ _ =>
      intro d' hMem
      rcases List.mem_cons.1 hMem with rfl | hMem
      · rfl
      · exact hUnmarked d' hMem

theorem ne_semiSemi_of_trigger
    {content : TokenContent}
    (hTrigger : isTyparApplicationTrigger content = true) :
    content ≠ .Real .SemiSemi := by
  rintro rfl
  cases hTrigger

/- The first plain token of an element opens its context. -/
theorem vanillaRule_holds :
    Holds trusted bounded useBlockRule Open vanillaRule := by
  intro tt t hReady hOpen
  rw [vanillaRule, wp_bind, wp_head]
  intro _
  split
  · next hBoth =>
      rw [Bool.and_eq_true] at hBoth
      rw [wp_bind]
      refine wp_isLongIdentEquals hReady.unmarked ?_ ?_
      · exact hReady.wp_push hOpen.headless hBoth.1 rfl
          hReady.good.startPos .asIs
      · intro hToken b u hFrame hPending
        have hPeek := hReady.peeked hFrame hPending hToken
        have hOpen' : Open tt u.view := hPeek.view ▸ hOpen
        rw [← hPeek.view]
        exact hPeek.ready.wp_push hOpen'.headless hBoth.1 rfl
          hPeek.ready.good.startPos .asIs
  · exact hReady.pass trivial

/- What is left passes as it is. -/
theorem wp_vanillaRule
    {v : View}
    (hReady : t.Ready trusted bounded tt)
    (hOpen : Open tt t.view)
    (hDummy : NoDummy tt t.view)
    (hAhead : Ahead v t.view) :
    wp trusted bounded (firstOf [vanillaRule] tt)
      (Settles useBlockRule tt v) t := by
  have hRule : Holds trusted bounded useBlockRule Open vanillaRule :=
    vanillaRule_holds
  rw [firstOf, wp_bind]
  refine wp_mono (hRule tt t hReady hOpen) ?_
  intro step u hStep
  cases hStep with
  | pass hView hReady' _ =>
      refine .pass hAhead ?_ hReady'.initialized
      rw [hView]
      refine .settle ?_ hOpen.unforced .asIs
      intro hIsDummy
      rw [hDummy] at hIsDummy
      cases hIsDummy
  | restart hAct =>
      exact .restart hAhead hAct
  | restartWithoutBlockRule hAct =>
      exact .restartWithoutBlockRule hAhead hAct
  | emit hAct hInit =>
      exact .emit hAhead hAct hInit

theorem typeAppRule_finishes :
    Finishes trusted bounded useBlockRule
      (fun tt v => Open tt v ∧ NoDummy tt v)
      (firstOf [typeAppRule, vanillaRule]) := by
  intro tt t hReady hFacts
  rw [firstOf, wp_bind]
  unfold typeAppRule
  split
  · next hTrigger =>
      have hToken := ne_semiSemi_of_trigger hTrigger
      rw [wp_bind]
      refine wp_peekAdjacentTypars hReady.unmarked ?_
      intro res u hScan
      cases res with
      | true =>
          rcases hScan.less rfl with ⟨less, flag, rest, hHead, hLess⟩
          simp only [if_true, wp_bind]
          refine wp_take ?_ ?_
          · intro hEmpty
            rw [hHead] at hEmpty
            cases hEmpty
          · intro d rest' hPending w hFrame hRest hGood _
            rw [hHead] at hPending
            cases hPending
            simp only [wp_expect_some, wp_delayToken, wp_pure]
            refine ⟨.uncut hGood.startPos hGood.stopPos ?_,
              .of_ne (fun h => by cases h), hGood.asVirtual _,
              .of_ne (fun h => by cases h), ?_⟩
            · intro token hReal
              cases hReal
              rfl
            · have hRecut := hScan.recut
              rw [hHead] at hRecut
              have hFrames := hScan.frame.trans hFrame
              have hView := hFrames.view
              rw [hRest] at hView
              refine .emit (.refl _) ?_ (.inl ?_)
              · rw [Abs.delay_view, Abs.delay_view, hView]
                exact .typeApp hTrigger hRecut hLess
              · exact (congrArg View.initialized hView).trans
                  hReady.initialized
      | false =>
          have hView := hScan.frame.view
          have hReady' : u.Ready trusted bounded tt := by
            refine ⟨?_, ?_, hReady.good.mono hScan.frame.known,
              .of_ne hToken, hScan.recut.unmarked hReady.unmarked,
              hReady.dummy⟩
            · exact (congrArg View.noProcessing hView).trans
                hReady.idle
            · exact (congrArg View.initialized hView).trans
                hReady.initialized
          have hAhead : Ahead t.view u.view := by
            rw [hView]
            exact ⟨hScan.recut, rfl, rfl, rfl, rfl⟩
          have hOpen : Open tt u.view := by
            refine ⟨?_, ?_⟩
            · intro hEof
              rw [hAhead.stack]
              exact hFacts.1.unforced hEof
            · rw [hAhead.stack]
              exact hFacts.1.headless
          exact wp_vanillaRule hReady' hOpen hFacts.2 hAhead
  · exact wp_vanillaRule hReady hFacts.1 hFacts.2 (.refl _)

theorem interpAndParen_finishes :
    Finishes trusted bounded useBlockRule
      (fun tt v => Open tt v ∧ NoAugmentEnd tt v) interpAndParen := by
  refine Holds.firstOf_finishes
    (interpOpenRule_holds.imp fun _ _ h => h.1) ?_
  refine Holds.firstOf_finishes
    (interpCloseRule_holds.imp fun _ _ h => h.1) ?_
  refine Holds.firstOf_finishes
    (parenOpenRule_holds.imp fun _ _ h => h.1) ?_
  refine Holds.firstOf_finishes parenCloseRule_holds ?_
  refine dummyRule_meets.firstOf_finishes ?_
  refine Holds.firstOf_finishes blockBeginRule_holds ?_
  exact typeAppRule_finishes.imp fun _ _ h => ⟨h.1.1, h.2⟩

/- Every iteration ends in a move. -/
theorem dispatch_finishes :
    Finishes trusted bounded useBlockRule (fun _ _ => True)
      (dispatch useBlockRule) := by
  -- the rules behind the balanced `end`s
  have hPushes : Finishes trusted bounded useBlockRule
      (fun tt v => Open tt v ∧ NoAugmentEnd tt v)
      (firstOf [declOffsidePops, moduleTypePushes,
        bindingMemberPushes, equalsPushes, exprKeywordPushes,
        withDispatch, tryFinallyWhenPushes, structInterfacePushes,
        infixRhsPushes, interpAndParen]) := by
    refine Holds.firstOf_finishes declOffsidePops_holds ?_
    refine Holds.firstOf_finishes
      (moduleTypePushes_holds.imp fun _ _ h => h.1) ?_
    refine Holds.firstOf_finishes
      (bindingMemberPushes_holds.imp fun _ _ h => h.1) ?_
    refine Holds.firstOf_finishes
      (equalsPushes_holds.imp fun _ _ h => h.1) ?_
    refine Holds.firstOf_finishes
      (exprKeywordPushes_holds.imp fun _ _ h => h.1) ?_
    refine Holds.firstOf_finishes
      (withDispatch_holds.imp fun _ _ h => h.1) ?_
    refine Holds.firstOf_finishes
      (tryFinallyWhenPushes_holds.imp fun _ _ h => h.1) ?_
    refine Holds.firstOf_finishes
      (structInterfacePushes_holds.imp fun _ _ h => h.1) ?_
    exact Holds.firstOf_finishes
      (infixRhsPushes_holds.imp fun _ _ h => h.1)
      interpAndParen_finishes.firstOf_single
  -- the rules behind the head transitions
  have hOpened : Finishes trusted bounded useBlockRule Open
      (firstOf [blockOffside useBlockRule, inDoneBalances,
        keywordOffsidePops, clauseOffsidePops, endBalancesAugment,
        declOffsidePops, moduleTypePushes, bindingMemberPushes,
        equalsPushes, exprKeywordPushes, withDispatch,
        tryFinallyWhenPushes, structInterfacePushes, infixRhsPushes,
        interpAndParen]) := by
    refine Holds.firstOf_finishes blockOffside_holds ?_
    refine Holds.firstOf_finishes inDoneBalances_holds ?_
    refine Holds.firstOf_finishes keywordOffsidePops_holds ?_
    refine clauseOffsidePops_meets.firstOf_finishes ?_
    refine (endBalancesAugment_meets.imp
      fun _ _ h => h.2).firstOf_finishes ?_
    exact hPushes.imp fun _ _ h => ⟨h.1.1, h.2⟩
  refine predispatch_meets.firstOf_finishes ?_
  refine Holds.firstOf_finishes joinInRewrite_holds ?_
  refine (headTransitions_meets.imp fun _ _ h => h.2).firstOf_finishes
    ?_
  exact hOpened.imp fun _ _ h => ⟨h.1.2, h.2⟩

/- Where an iteration may start. -/
structure Abs.Settled
    (t : Abs) :
    Prop where
  initialized : t.initialized = true
  unmarked : t.noProcessing = 0 → Unmarked t.pending
  dummies : ∀ d ∈ t.pending, ∀ prevEnd inner,
    d.tup.token = .Dummy prevEnd inner → inner ∈ dummyTokens

/- A token of the pass-through prefix is emitted at once. -/
theorem wp_dispatch_passThrough
    {S : Step → Abs → Prop}
    (hCount : 0 < t.noProcessing)
    (hPost : ∀ u,
      u.view = { t.view with noProcessing := t.noProcessing - 1 } →
      S (.Emit tt) u) :
    wp trusted bounded (dispatch useBlockRule tt) S t := by
  simp only [dispatch, predispatch, firstOf, passThroughRule, wp_bind,
    wp_core, coreContract, if_pos hCount]
  cases tt.token with
  | Real token =>
      exact hPost _ rfl
  | _ =>
      exact hPost _ rfl

/- One iteration of the fetch loop is a move. -/
theorem wp_fetchIteration
    (hSettled : t.Settled) :
    wp trusted bounded (fetchIteration useBlockRule)
      (fun fetched u => Iterates useBlockRule t.view fetched u.view ∧
        (u.initialized = true ∨ u.pulled = 0)) t := by
  rw [fetchIteration, wp_bind]
  refine wp_take ?_ ?_
  · intro hEmpty u hFrame hPending
    have hView := hFrame.view_eq (hPending.trans hEmpty.symm)
    refine ⟨?_, .inl ?_⟩
    · rw [hView]
      exact .exhausted hEmpty
    · exact (congrArg View.initialized hView).trans
        hSettled.initialized
  · intro d rest hPending u hFrame hRest hGood hFenced
    have hView := hFrame.view
    rw [hRest] at hView
    have hInit : u.initialized = true :=
      (congrArg View.initialized hView).trans hSettled.initialized
    have hCount : u.noProcessing = t.noProcessing :=
      congrArg View.noProcessing hView
    dsimp only
    rw [wp_bind]
    by_cases hIdle : t.noProcessing = 0
    · have hReady : u.Ready trusted bounded d.tup := by
        refine ⟨hCount.trans hIdle, hInit, hGood, hFenced, ?_, ?_⟩
        · have hUnmarked := hSettled.unmarked hIdle
          rw [hPending] at hUnmarked
          rw [hRest]
          exact hUnmarked.tail
        · refine hSettled.dummies d ?_
          rw [hPending]
          exact List.mem_cons_self
      -- a move after the token was taken is an iteration
      have hMoved : ∀ {ahead : View} {fetched : Fetched} {w : Abs},
          Ahead u.view ahead →
          Act useBlockRule d.tup ahead fetched w.view →
          Iterates useBlockRule t.view fetched w.view := by
        intro ahead fetched w hAhead hAct
        rw [hView] at hAhead
        exact .moved hPending (.act hIdle hAhead hAct)
      -- and restarting leaves the filter initialized
      have hAgain : ∀ {ahead : View} {b : Bool} {w : Abs},
          Ahead u.view ahead →
          Act useBlockRule d.tup ahead (.Again b) w.view →
          w.initialized = true := by
        intro ahead b w hAhead hAct
        rcases hAct.initialized with hSame | hYield
        · exact hSame.trans (hAhead.initialized.trans hInit)
        · cases hYield
      have hDispatch : Finishes trusted bounded useBlockRule
          (fun _ _ => True) (dispatch useBlockRule) :=
        dispatch_finishes
      refine wp_mono (hDispatch d.tup u hReady trivial) ?_
      intro step w hStep
      cases hStep with
      | pass hAhead hAct hInit' =>
          exact ⟨hMoved hAhead hAct, .inl hInit'⟩
      | restart hAhead hAct =>
          exact ⟨hMoved hAhead hAct, .inl (hAgain hAhead hAct)⟩
      | restartWithoutBlockRule hAhead hAct =>
          exact ⟨hMoved hAhead hAct, .inl (hAgain hAhead hAct)⟩
      | emit hAhead hAct hInit' =>
          exact ⟨hMoved hAhead hAct, hInit'⟩
    · have hPositive : 0 < u.noProcessing := by omega
      refine wp_dispatch_passThrough hPositive ?_
      intro w hTarget
      refine ⟨?_, .inl ?_⟩
      · rw [hTarget, hCount, hView]
        exact .moved hPending
          (.passThrough (Nat.pos_of_ne_zero hIdle))
      · exact (congrArg View.initialized hTarget).trans hInit

end Parens

end LexFilter

end Borzoi
