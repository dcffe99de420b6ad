import Borzoi.LexFilter.Refinement.Lookahead
import Borzoi.LexFilter.Refinement.OffsidePops

/-
  The pushes perform moves.
-/

namespace Borzoi

namespace LexFilter

open Lexer
open FilterM

/- What the rules behind the head transitions rely on. -/
structure Open
    (tt : TokenTup)
    (v : View) :
    Prop where
  unforced : Unforced tt v
  headless : topIsHead v.stack = false

section Pushes

variable {trusted : Prop} {bounded : Pos → Prop} {useBlockRule : Bool} {t : Abs}
variable {tt out : TokenTup} {Q : Prop}

variable {u : Abs} {addBlockEnd : AddBlockEnd} {isInterfaceHead : Bool}
variable {ctxt : Context} {stack : List Context} {opener : Opener}
variable {limPos pos : Pos} {span : Span} {R : Unit → Abs → Prop} {v : View}

/- Push a plain context and emit. -/
theorem Abs.Ready.wp_push
    (hReady : t.Ready trusted bounded tt)
    (hTop : topIsHead t.stack = false)
    (hReal : tt.token.isReal = true)
    (hPlain : ctxt.isPlain = true)
    (hPos : t.GoodPos trusted bounded ctxt.startPos)
    (hOut : Output useBlockRule tt (.Yield out)) :
    wp trusted bounded (do pushCtxt span ctxt; return .Emit out)
      (Decides trusted bounded useBlockRule Q tt t.view) t := by
  simp only [wp_bind, wp_pushCtxt, wp_pure]
  exact ⟨hPos, hReady.emit rfl
    (.shiftTo hReal (.push hTop hPlain) hOut rfl)⟩

/- Push a block and emit. -/
theorem wp_pushBlockAndEmit
    (hGood : u.GoodTok trusted bounded tt)
    (hInit : u.initialized = true)
    (hAct : ∀ first anchor, Act useBlockRule tt v (.Yield out)
      (u.view.openBlock first anchor addBlockEnd)) :
    wp trusted bounded (pushBlockAndEmit addBlockEnd tt out)
      (Decides trusted bounded useBlockRule Q tt v) u := by
  rw [pushBlockAndEmit, wp_bind]
  refine wp_pushCtxtSeqBlock hGood ?_
  intro w first anchor _ _ hView
  refine .emit (hView ▸ hAct first anchor) (.inl ?_)
  exact (congrArg View.initialized hView).trans hInit

/- A block on top of the stack. -/
theorem Abs.Ready.wp_block
    (hReady : t.Ready trusted bounded tt)
    (hTop : topIsHead t.stack = false)
    (hReal : tt.token.isReal = true)
    (hOut : Output useBlockRule tt (.Yield out)) :
    wp trusted bounded (pushBlockAndEmit addBlockEnd tt out)
      (Decides trusted bounded useBlockRule Q tt t.view) t := by
  refine wp_pushBlockAndEmit hReady.good hReady.initialized ?_
  intro first anchor
  exact .shiftTo hReal (.block hTop) hOut rfl

/- A context and its block. -/
theorem Abs.Ready.wp_pushBlock
    (hReady : t.Ready trusted bounded tt)
    (hTop : topIsHead t.stack = false)
    (hReal : tt.token.isReal = true)
    (hPlain : ctxt.isPlain = true)
    (hPos : t.GoodPos trusted bounded ctxt.startPos)
    (hOut : Output useBlockRule tt (.Yield out)) :
    wp trusted bounded
      (do pushCtxt span ctxt; pushBlockAndEmit addBlockEnd tt out)
      (Decides trusted bounded useBlockRule Q tt t.view) t := by
  rw [wp_bind, wp_pushCtxt]
  refine ⟨hPos, wp_pushBlockAndEmit (hReady.good.mono fun _ => id)
    hReady.initialized ?_⟩
  intro first anchor
  exact .shiftTo hReal (.pushBlock hTop hPlain) hOut rfl

/- A context and, unless it is refused, its block. -/
theorem Abs.Ready.wp_tryPushBlock
    (hReady : t.Ready trusted bounded tt)
    (hTop : topIsHead t.stack = false)
    (hReal : tt.token.isReal = true)
    (hPlain : ctxt.isPlain = true)
    (hPos : t.GoodPos trusted bounded ctxt.startPos)
    (hOut : Output useBlockRule tt (.Yield out)) :
    wp trusted bounded (do
        pushCtxt span ctxt
        tryPushCtxtSeqBlock tt addBlockEnd
        return .Emit out)
      (Decides trusted bounded useBlockRule Q tt t.view) t := by
  rw [wp_bind, wp_pushCtxt]
  refine ⟨hPos, ?_⟩
  rw [tryPushCtxtSeqBlock, wp_bind]
  refine wp_pushCtxtSeqBlockAt (fun h => by cases h) ?_ ?_
  · intro u first anchor _ _ hView
    refine hReady.emit (congrArg View.initialized hView) ?_
    exact .shiftTo hReal (.pushBlock hTop hPlain) hOut hView
  · intro _ _ u _ hView
    refine hReady.emit (congrArg View.initialized hView) ?_
    exact .shiftTo hReal (.push hTop hPlain) hOut hView

theorem namespaceRule_holds :
    Holds trusted bounded useBlockRule Open namespaceRule := by
  intro tt t hReady hOpen
  unfold namespaceRule
  split
  · next hToken =>
      simp only [wp_bind, wp_pushCtxt, wp_pure]
      exact ⟨hReady.good.startPos, hReady.emit rfl
        (.shiftTo (TokenContent.isReal_of_eq hToken)
          (.pushHead hOpen.headless rfl) .asIs rfl)⟩
  · exact hReady.pass trivial

theorem moduleRule_holds :
    Holds trusted bounded useBlockRule Open moduleRule := by
  intro tt t hReady hOpen
  unfold moduleRule
  split
  · next hToken =>
      simp only [wp_bind, wp_checkInvalidDeclInTypeDefn,
        wp_offsideStack, wp_pushCtxt, wp_setLastRealEnd, wp_pure]
      intro _
      exact ⟨hReady.good.startPos, .restart
        (.shiftTo (TokenContent.isReal_of_eq hToken)
          (.pushHead hOpen.headless rfl)
          (.swallow (TokenContent.isAnyOf_of_eq hToken (by decide)))
          rfl)⟩
  · exact hReady.pass trivial

theorem typeRule_holds :
    Holds trusted bounded useBlockRule Open typeRule := by
  intro tt t hReady hOpen
  unfold typeRule
  split
  · next hToken =>
      simp only [wp_bind, wp_checkInvalidDeclInTypeDefn, wp_pushCtxt,
        wp_setLastRealEnd, wp_pure]
      exact ⟨hReady.good.startPos, .restart
        (.shiftTo (TokenContent.isReal_of_eq hToken)
          (.push hOpen.headless rfl)
          (.swallow (TokenContent.isAnyOf_of_eq hToken (by decide)))
          rfl)⟩
  · exact hReady.pass trivial

theorem moduleTypePushes_holds :
    Holds trusted bounded useBlockRule Open moduleTypePushes := by
  refine Meets.firstOf_all ?_
  simp only [List.forall_mem_cons, List.not_mem_nil]
  exact ⟨namespaceRule_holds, moduleRule_holds, typeRule_holds,
    fun _ h => by cases h⟩

theorem memberLetRule_holds :
    Holds trusted bounded useBlockRule Open memberLetRule := by
  intro tt t hReady _
  rw [memberLetRule, wp_bind, wp_head]
  intro hStack
  split
  · next headPos hHead =>
      have hPos : t.GoodPos trusted bounded headPos :=
        hStack (.MemberHead headPos) (List.mem_of_mem_head? hHead)
      split
      · next hLet =>
          simp only [wp_bind, wp_replaceCtxt, wp_pure]
          exact ⟨hPos, hReady.emit rfl
            (.shiftTo (TokenContent.isReal_of_isAnyOf hLet)
              (.replace hHead rfl rfl)
              (.virtual (TokenContent.isAnyOf_mono hLet (by decide))
                (by decide)) rfl)⟩
      · exact hReady.pass trivial
  · exact hReady.pass trivial

theorem letRule_holds :
    Holds trusted bounded useBlockRule Open letRule := by
  intro tt t hReady hOpen
  unfold letRule
  split
  · next hLet =>
      have hReal := TokenContent.isReal_of_isAnyOf hLet
      simp only [wp_bind, wp_head, wp_pushCtxt]
      intro _
      refine ⟨hReady.good.startPos, ?_⟩
      split
      · exact hReady.emit rfl (.shiftTo hReal
          (.push hOpen.headless rfl)
          (.virtual (TokenContent.isAnyOf_mono hLet (by decide))
            (by decide)) rfl)
      · exact hReady.emit rfl (.shiftTo hReal
          (.push hOpen.headless rfl) .asIs rfl)
  · exact hReady.pass trivial

theorem letBangRule_holds :
    Holds trusted bounded useBlockRule Open letBangRule := by
  intro tt t hReady hOpen
  unfold letBangRule
  split
  · next hLet =>
      have hReal := TokenContent.isReal_of_isAnyOf hLet
      simp only [wp_bind, wp_head, wp_pushCtxt]
      intro _
      refine ⟨hReady.good.startPos, ?_⟩
      split
      · refine hReady.emit rfl (.shiftTo hReal
          (.push hOpen.headless rfl)
          (.virtual (TokenContent.isAnyOf_mono hLet (by decide)) ?_)
          rfl)
        split <;> decide
      · exact hReady.emit rfl (.shiftTo hReal
          (.push hOpen.headless rfl) .asIs rfl)
  · exact hReady.pass trivial

/- A stack with a member body has a topmost one. -/
theorem exists_topmost_memberBody
    (hAny : stack.any Context.isMemberBody = true) :
    ∃ above pos below, stack = above ++ .MemberBody pos :: below ∧
      ∀ c ∈ above, c.isMemberBody = false := by
  induction stack with
  | nil =>
      cases hAny
  | cons ctxt rest ih =>
      cases hBody : ctxt.isMemberBody with
      | true =>
          cases ctxt with
          | MemberBody pos =>
              exact ⟨[], pos, rest, rfl, fun _ h => by cases h⟩
          | _ =>
              cases hBody
      | false =>
          rw [List.any_cons, hBody, Bool.false_or] at hAny
          rcases ih hAny with ⟨above, pos, below, rfl, hAbove⟩
          refine ⟨ctxt :: above, pos, below, rfl, ?_⟩
          intro c hMem
          rcases List.mem_cons.1 hMem with rfl | hMem
          · exact hBody
          · exact hAbove c hMem

theorem cascadeVirtuals_cons
    (tt : TokenTup)
    (ctxt : Context)
    (above : List Context) :
    cascadeVirtuals tt (ctxt :: above) =
      cascadeVirtuals tt above ++
        (endTokenForACtxt ctxt).toList.map fun virt =>
          ⟨tt.asVirtual virt, true⟩ := by
  unfold cascadeVirtuals
  cases hEnd : endTokenForACtxt ctxt with
  | none =>
      simp [hEnd]
  | some virt =>
      simp [hEnd]

/- The cascade unwinds the stack below the topmost member body. -/
theorem wp_memberCascade
    {above below : List Context}
    (hGood : t.GoodTok trusted bounded tt)
    (hAbove : ∀ c ∈ above, c.isMemberBody = false)
    (hStack : t.stack = above ++ .MemberBody pos :: below)
    (hPost : ∀ u,
      u.view = { t.view with
        pending := cascadeVirtuals tt above ++ t.pending
        stack := below
        noProcessing := (cascadeVirtuals tt above).length +
          t.noProcessing } →
      R () u) :
    wp trusted bounded
      (memberCascade tt (above ++ .MemberBody pos :: below)) R t := by
  induction above generalizing t with
  | nil =>
      simp only [List.nil_append, memberCascade, Context.isMemberBody,
        if_true, wp_bind, wp_popCtxt, wp_pure]
      refine hPost _ ?_
      simp only [Abs.view, hStack, cascadeVirtuals]
      simp
  | cons ctxt above ih =>
      have hCtxt := hAbove ctxt List.mem_cons_self
      have hRest : ∀ c ∈ above, c.isMemberBody = false :=
        fun c hMem => hAbove c (List.mem_cons_of_mem _ hMem)
      simp only [List.cons_append, memberCascade, hCtxt,
        Bool.false_eq_true, if_false, wp_bind, wp_popCtxt]
      cases hEnd : endTokenForACtxt ctxt with
      | none =>
          refine ih (hGood.mono fun _ => id) hRest ?_ ?_
          · simp [hStack]
          · intro u hView
            refine hPost u ?_
            rw [hView, cascadeVirtuals_cons, hEnd]
            simp [Abs.view]
      | some virt =>
          refine ⟨hGood.asVirtual virt, .of_ne (fun h => by cases h), ?_⟩
          refine ih (hGood.mono fun _ => id) hRest ?_ ?_
          · simp [hStack, Abs.delay]
          · intro u hView
            refine hPost u ?_
            rw [hView, cascadeVirtuals_cons, hEnd]
            simp [Abs.view, Abs.delay, Nat.add_assoc, Nat.add_comm]

theorem memberCascadeRule_holds :
    Holds trusted bounded useBlockRule Open memberCascadeRule := by
  intro tt t hReady _
  rw [memberCascadeRule, wp_bind, wp_offsideStack]
  intro _
  split
  · next hBoth =>
      rw [Bool.and_eq_true] at hBoth
      have hAny : t.stack.any Context.isMemberBody = true := by
        have hPops := hBoth.2
        simp only [thereIsACtxtMemberBodyOnTheStackAndWeShouldPop,
          Bool.and_eq_true] at hPops
        exact hPops.1.1
      rcases exists_topmost_memberBody hAny with
        ⟨above, pos, below, hStack, hAbove⟩
      simp only [wp_bind, wp_delayTokenNoProcessing]
      refine ⟨hReady.good, hReady.fenced, ?_⟩
      rw [hStack]
      refine wp_memberCascade (hReady.good.mono fun _ => id) hAbove
        hStack ?_
      intro u hView
      refine .restart ?_
      have hTarget : u.view = { t.view with
          pending := cascadeVirtuals tt above ++
            ⟨tt, true⟩ :: t.view.pending
          stack := below
          noProcessing := (cascadeVirtuals tt above).length + 1 } := by
        rw [hView]
        simp [Abs.view, Abs.delay, hReady.idle]
      rw [hTarget]
      exact .cascade hBoth.1 hBoth.2 hStack hAbove
  · exact hReady.pass trivial

theorem memberRule_holds :
    Holds trusted bounded useBlockRule Open memberRule := by
  intro tt t hReady hOpen
  unfold memberRule
  simp only [wp_bind, wp_head]
  intro _
  split
  · next hMember =>
      rw [Bool.and_eq_true] at hMember
      exact hReady.wp_push hOpen.headless
        (TokenContent.isReal_of_isAnyOf hMember.1) rfl
        hReady.good.startPos .asIs
  · exact hReady.pass trivial

theorem wp_nextTokenIs
    {R : Bool → Abs → Prop}
    {token : Token}
    (hReady : t.Ready trusted bounded tt)
    (hToken : tt.token ≠ .Real .SemiSemi)
    (hPost : ∀ b u, t.Peeked trusted bounded tt u → R b u) :
    wp trusted bounded (nextTokenIs token) R t := by
  rw [nextTokenIs, wp_bind]
  refine hReady.wp_peek hToken ?_
  intro u hPeek _
  split
  · exact hPost _ u hPeek
  · exact hPost _ u hPeek

theorem accessNewRule_holds :
    Holds trusted bounded useBlockRule Open accessNewRule := by
  intro tt t hReady hOpen
  unfold accessNewRule
  split
  · next hAccess =>
      have hToken := TokenContent.ne_semiSemi_of_isAnyOf hAccess
        (by decide)
      rw [wp_bind]
      refine wp_nextTokenIs hReady hToken ?_
      intro b u hPeek
      have hOpen' : Open tt u.view := hPeek.view ▸ hOpen
      rw [← hPeek.view]
      split
      · exact hPeek.ready.wp_push hOpen'.headless
          (TokenContent.isReal_of_isAnyOf hAccess) rfl
          hPeek.ready.good.startPos .asIs
      · exact hPeek.ready.pass trivial
  · exact hReady.pass trivial

theorem newRule_holds :
    Holds trusted bounded useBlockRule Open newRule := by
  intro tt t hReady hOpen
  unfold newRule
  split
  · next hNew =>
      rw [wp_bind]
      refine wp_nextTokenIs hReady (by simp [hNew]) ?_
      intro b u hPeek
      have hOpen' : Open tt u.view := hPeek.view ▸ hOpen
      rw [← hPeek.view, wp_bind, wp_head]
      intro _
      split
      · exact hPeek.ready.wp_push hOpen'.headless
          (TokenContent.isReal_of_eq hNew) rfl
          hPeek.ready.good.startPos .asIs
      · exact hPeek.ready.pass trivial
  · exact hReady.pass trivial

theorem bindingMemberPushes_holds :
    Holds trusted bounded useBlockRule Open bindingMemberPushes := by
  refine Meets.firstOf_all ?_
  simp only [List.forall_mem_cons, List.not_mem_nil]
  exact ⟨memberLetRule_holds, letRule_holds, letBangRule_holds,
    memberCascadeRule_holds, memberRule_holds, accessNewRule_holds,
    newRule_holds, fun _ h => by cases h⟩

------------------------------------------------------------
-- Right-Hand Sides
------------------------------------------------------------

/- The test for control flow looks at most one token ahead. -/
theorem wp_isControlFlowOrNotSameLine
    {R : Bool → Abs → Prop}
    (hReady : t.Ready trusted bounded tt)
    (hToken : tt.token ≠ .Real .SemiSemi)
    (hPost : ∀ b u, t.Peeked trusted bounded tt u → R b u) :
    wp trusted bounded (isControlFlowOrNotSameLine tt) R t := by
  unfold isControlFlowOrNotSameLine
  split
  · exact hPost _ t (.refl hReady)
  · rw [wp_bind]
    refine hReady.wp_peek hToken ?_
    intro u hPeek _
    split
    · exact hPost _ u hPeek
    · exact hPost _ u hPeek

theorem wp_pushBlockIfNeeded
    (hReady : t.Ready trusted bounded tt)
    (hOpen : Open tt t.view)
    (hReal : tt.token.isReal = true)
    (hToken : tt.token ≠ .Real .SemiSemi) :
    wp trusted bounded (pushBlockIfNeeded tt)
      (Decides trusted bounded useBlockRule Q tt t.view) t := by
  rw [pushBlockIfNeeded, wp_bind]
  refine wp_isControlFlowOrNotSameLine hReady hToken ?_
  intro b u hPeek
  have hOpen' : Open tt u.view := hPeek.view ▸ hOpen
  rw [← hPeek.view]
  split
  · exact hPeek.ready.wp_block hOpen'.headless hReal .asIs
  · exact hPeek.ready.wp_block hOpen'.headless hReal .asIs

/- A block on top of a context that replaces the head. -/
theorem Abs.Ready.wp_replaceBlock
    {old ctxt : Context}
    (hReady : t.Ready trusted bounded tt)
    (hReal : tt.token.isReal = true)
    (hHead : t.stack.head? = some old)
    (hOld : old.isPlain = true)
    (hPlain : ctxt.isPlain = true)
    (hKnown : t.KnownIn u)
    (hView : u.view = { t.view with stack := ctxt :: t.stack.tail }) :
    wp trusted bounded (pushBlockAndEmit addBlockEnd tt tt)
      (Decides trusted bounded useBlockRule Q tt t.view) u := by
  refine wp_pushBlockAndEmit (hReady.good.mono hKnown) ?_ ?_
  · exact (congrArg View.initialized hView).trans hReady.initialized
  · intro first anchor
    rw [hView]
    exact .shiftTo hReal (.replaceBlock hHead (.inl hOld) hPlain)
      .asIs rfl

theorem equalsPushes_holds :
    Holds trusted bounded useBlockRule Open equalsPushes := by
  intro tt t hReady hOpen
  unfold equalsPushes
  split
  · next hEquals =>
      have hReal := TokenContent.isReal_of_eq hEquals
      have hToken : tt.token ≠ .Real .SemiSemi := by
        simp [hEquals]
      rw [equalsStep, wp_bind, wp_offsideStack]
      intro hStack
      split
      · exact hReady.wp_block hOpen.headless hReal .asIs
      · next pos equalsEnd hHead =>
          have hPos : t.GoodPos trusted bounded pos :=
            hStack (.TypeDefns pos equalsEnd)
              (List.mem_of_mem_head? hHead)
          simp only [wp_bind, wp_popCtxt, wp_tryPushCtxt]
          refine ⟨hPos, ?_, fun h => by cases h⟩
          exact hReady.wp_replaceBlock hReal hHead rfl rfl
            (fun _ => id) rfl
      · exact wp_pushBlockIfNeeded hReady hOpen hReal hToken
      · next pos hHead =>
          have hPos : t.GoodPos trusted bounded pos :=
            hStack (.MemberHead pos) (List.mem_of_mem_head? hHead)
          rw [wp_bind, wp_replaceCtxt]
          refine ⟨hPos, ?_⟩
          exact hReady.wp_replaceBlock hReal hHead rfl rfl
            (fun _ => id) rfl
      · split
        · exact wp_pushBlockIfNeeded hReady hOpen hReal hToken
        · exact hReady.pass trivial
  · exact hReady.pass trivial

theorem lazyAssertRule_holds :
    Holds trusted bounded useBlockRule Open lazyAssertRule := by
  intro tt t hReady hOpen
  unfold lazyAssertRule
  split
  · next hLazy =>
      rw [wp_bind]
      refine wp_isControlFlowOrNotSameLine hReady
        (TokenContent.ne_semiSemi_of_isAnyOf hLazy (by decide)) ?_
      intro b u hPeek
      have hOpen' : Open tt u.view := hPeek.view ▸ hOpen
      rw [← hPeek.view]
      split
      · refine hPeek.ready.wp_block hOpen'.headless
          (TokenContent.isReal_of_isAnyOf hLazy) (.virtual
            (TokenContent.isAnyOf_mono hLazy (by decide)) ?_)
        split <;> decide
      · exact hPeek.ready.pass trivial
  · exact hReady.pass trivial

theorem larrowRule_holds :
    Holds trusted bounded useBlockRule Open larrowRule := by
  intro tt t hReady hOpen
  unfold larrowRule
  split
  · next hArrow =>
      rw [wp_bind]
      refine wp_isControlFlowOrNotSameLine hReady (by simp [hArrow]) ?_
      intro b u hPeek
      have hOpen' : Open tt u.view := hPeek.view ▸ hOpen
      rw [← hPeek.view]
      split
      · exact hPeek.ready.wp_block hOpen'.headless
          (TokenContent.isReal_of_eq hArrow) .asIs
      · exact hPeek.ready.pass trivial
  · exact hReady.pass trivial

theorem forRule_holds :
    Holds trusted bounded useBlockRule Open forRule := by
  intro tt t hReady hOpen
  unfold forRule
  split
  · next hToken =>
      rw [wp_bind, wp_core, coreContract]
      exact hReady.wp_push hOpen.headless
        (TokenContent.isReal_of_eq hToken) rfl hReady.good.startPos
        .asIs
  · exact hReady.pass trivial

theorem whileRule_holds :
    Holds trusted bounded useBlockRule Open whileRule := by
  intro tt t hReady hOpen
  unfold whileRule
  split
  · next hToken =>
      rw [wp_bind, wp_core, coreContract]
      exact hReady.wp_push hOpen.headless
        (TokenContent.isReal_of_eq hToken) rfl hReady.good.startPos
        .asIs
  · exact hReady.pass trivial

theorem funRule_holds :
    Holds trusted bounded useBlockRule Open funRule := by
  intro tt t hReady hOpen
  unfold funRule
  split
  · next hToken =>
      rw [wp_bind, wp_core, coreContract]
      exact hReady.wp_push hOpen.headless
        (TokenContent.isReal_of_eq hToken) rfl hReady.good.startPos
        (.virtual (TokenContent.isAnyOf_of_eq hToken (by decide))
          (by decide))
  · exact hReady.pass trivial

/- The clauses are pushed, or nothing is. -/
theorem wp_pushMatchClauses
    {strictness : PushStrictness}
    (hPushed : ∀ u leadingBar pos, t.KnownIn u →
      u.view = { t.view with
        stack := .MatchClauses leadingBar pos :: t.stack } → R () u)
    (hRefused : ∀ u, t.KnownIn u → u.view = t.view → R () u) :
    wp trusted bounded (pushMatchClauses strictness) R t := by
  rw [pushMatchClauses, wp_bind]
  refine wp_look ?_
  intro u hFrame hPending hGood
  have hView := hFrame.view_eq hPending
  cases hNext : t.next with
  | none =>
      exact hRefused u hFrame.known hView
  | some la =>
      simp only [wp_bind, wp_tryPushCtxt, wp_pure]
      refine ⟨(hGood la hNext).startPos, ?_, ?_⟩
      · refine hPushed _ (la.token == .Real .Bar) la.start
          hFrame.known ?_
        exact congrArg (fun v : View => { v with
          stack := Context.MatchClauses
            (la.token == TokenContent.Real .Bar) la.start :: v.stack })
          hView
      · exact fun _ => hRefused u hFrame.known hView

theorem functionRule_holds :
    Holds trusted bounded useBlockRule Open functionRule := by
  intro tt t hReady hOpen
  unfold functionRule
  split
  · next hToken =>
      have hReal := TokenContent.isReal_of_eq hToken
      have hOut : Output useBlockRule tt
          (.Yield (tt.asVirtual .Function)) :=
        .virtual (TokenContent.isAnyOf_of_eq hToken (by decide))
          (by decide)
      rw [wp_bind, wp_pushCtxt]
      refine ⟨hReady.good.startPos, ?_⟩
      rw [wp_bind]
      refine wp_pushMatchClauses ?_ ?_
      · intro u leadingBar pos _ hView
        refine hReady.emit (congrArg View.initialized hView) ?_
        exact .shiftTo hReal (.pushTwo hOpen.headless rfl rfl) hOut
          hView
      · intro u _ hView
        refine hReady.emit (congrArg View.initialized hView) ?_
        exact .shiftTo hReal (.push hOpen.headless rfl) hOut hView
  · exact hReady.pass trivial

theorem exceptionRule_holds :
    Holds trusted bounded useBlockRule Open exceptionRule := by
  intro tt t hReady hOpen
  unfold exceptionRule
  split
  · next hToken =>
      rw [wp_bind, wp_checkInvalidDeclInTypeDefn]
      exact hReady.wp_push hOpen.headless
        (TokenContent.isReal_of_eq hToken) rfl hReady.good.startPos
        .asIs
  · exact hReady.pass trivial

theorem rarrowRule_holds :
    Holds trusted bounded useBlockRule Open rarrowRule := by
  intro tt t hReady hOpen
  unfold rarrowRule
  split
  · next hToken =>
      simp only [wp_bind, wp_core, coreContract, wp_offsideStack]
      intro _
      split
      · exact hReady.wp_block hOpen.headless
          (TokenContent.isReal_of_eq hToken) .asIs
      · exact hReady.pass trivial
  · exact hReady.pass trivial

theorem doRule_holds :
    Holds trusted bounded useBlockRule Open doRule := by
  intro tt t hReady hOpen
  unfold doRule
  split
  · next hDo =>
      refine hReady.wp_tryPushBlock hOpen.headless
        (TokenContent.isReal_of_isAnyOf hDo) rfl hReady.good.startPos
        (.virtual (TokenContent.isAnyOf_mono hDo (by decide)) ?_)
      split <;> decide
  · exact hReady.pass trivial

theorem thenRule_holds :
    Holds trusted bounded useBlockRule Open thenRule := by
  intro tt t hReady hOpen
  unfold thenRule
  split
  · next hToken =>
      exact hReady.wp_pushBlock hOpen.headless
        (TokenContent.isReal_of_eq hToken) rfl hReady.good.startPos
        (.virtual (TokenContent.isAnyOf_of_eq hToken (by decide))
          (by decide))
  · exact hReady.pass trivial

/- `else` alone pushes its block. -/
theorem elseRule_holds :
    Holds trusted bounded useBlockRule Open elseRule := by
  intro tt t hReady hOpen
  unfold elseRule
  split
  · next hElse =>
      have hReal := TokenContent.isReal_of_eq hElse
      rw [wp_bind]
      refine hReady.wp_peek (by simp [hElse]) ?_
      intro u hPeek _
      have hOpen' : Open tt u.view := hPeek.view ▸ hOpen
      rw [← Abs.next_of_view hPeek.view, ← hPeek.view]
      split
      · next next hFused =>
          rcases Option.filter_eq_some_iff.1 hFused with ⟨hNext, hIf⟩
          simp only [Bool.and_eq_true, beq_iff_eq] at hIf
          unfold Abs.next at hNext
          rw [wp_bind]
          refine wp_take ?_ ?_
          · intro hEmpty
            rw [hEmpty] at hNext
            cases hNext
          · intro d rest hPending w hFrame hRest _ _
            rw [hPending] at hNext
            cases hNext
            rw [wp_bind, wp_pushCtxt]
            refine ⟨hPeek.ready.good.startPos.mono hFrame.known, ?_⟩
            have hView : (w.push (.If tt.start)).view =
                { u.view with
                  pending := rest
                  stack := .If tt.start :: u.view.stack } := by
              have hSame := hFrame.view
              rw [hRest] at hSame
              exact congrArg (fun v : View => { v with
                stack := .If tt.start :: v.stack }) hSame
            refine hPeek.ready.emit
              (congrArg View.initialized hView) ?_
            rw [hView]
            exact .elif hElse hOpen'.headless hPending hIf.1
      · exact hPeek.ready.wp_pushBlock hOpen'.headless hReal rfl
          hPeek.ready.good.startPos
          (.virtual (TokenContent.isAnyOf_of_eq hElse (by decide))
            (by decide))
  · exact hReady.pass trivial

theorem ifRule_holds :
    Holds trusted bounded useBlockRule Open ifRule := by
  intro tt t hReady hOpen
  unfold ifRule
  split
  · next hIf =>
      exact hReady.wp_push hOpen.headless
        (TokenContent.isReal_of_isAnyOf hIf) rfl hReady.good.startPos
        .asIs
  · exact hReady.pass trivial

theorem matchRule_holds :
    Holds trusted bounded useBlockRule Open matchRule := by
  intro tt t hReady hOpen
  unfold matchRule
  split
  · next hMatch =>
      exact hReady.wp_push hOpen.headless
        (TokenContent.isReal_of_isAnyOf hMatch) rfl
        hReady.good.startPos .asIs
  · exact hReady.pass trivial

theorem exprKeywordPushes_holds :
    Holds trusted bounded useBlockRule Open exprKeywordPushes := by
  refine Meets.firstOf_all ?_
  simp only [List.forall_mem_cons, List.not_mem_nil]
  exact ⟨lazyAssertRule_holds, larrowRule_holds, forRule_holds,
    whileRule_holds, funRule_holds, functionRule_holds,
    exceptionRule_holds, rarrowRule_holds, doRule_holds,
    thenRule_holds, elseRule_holds, ifRule_holds, matchRule_holds,
    fun _ h => by cases h⟩

------------------------------------------------------------
-- `with`
------------------------------------------------------------

/- A raw token that is emitted as it is, or replaced. -/
theorem Act.settleReal
    {fetched : Fetched}
    (hReal : tt.token.isReal = true)
    (hOut : Output useBlockRule tt fetched) :
    Act useBlockRule tt v fetched v := by
  refine .settle ?_ ?_ hOut
  · intro hDummy
    rw [TokenContent.isDummy_of_isReal hReal] at hDummy
    cases hDummy
  · exact fun hEof => absurd hEof (TokenContent.ne_eof_of_isReal hReal)

theorem withVirtual_output
    (hWith : tt.token = .Real .With) :
    Output useBlockRule tt (.Yield (tt.asVirtual .With)) :=
  .virtual (TokenContent.isAnyOf_of_eq hWith (by decide)) (by decide)

theorem wp_withClausesStep
    (hReady : t.Ready trusted bounded tt)
    (hOpen : Open tt t.view)
    (hWith : tt.token = .Real .With) :
    wp trusted bounded (withClausesStep tt)
      (Decides trusted bounded useBlockRule Q tt t.view) t := by
  have hReal := TokenContent.isReal_of_eq hWith
  rw [withClausesStep, wp_bind]
  refine wp_pushMatchClauses ?_ ?_
  · intro u leadingBar pos _ hView
    rw [wp_bind, wp_setLastRealEnd]
    refine hReady.emit (congrArg View.initialized hView) ?_
    exact .shiftTo hReal (.push hOpen.headless rfl)
      (withVirtual_output hWith) hView
  · intro u _ hView
    rw [wp_bind, wp_setLastRealEnd]
    refine hReady.emit (congrArg View.initialized hView) ?_
    have hSame : ({ u with lastRealEnd := tt.span.stop } : Abs).view =
        t.view := hView
    rw [hSame]
    exact .settleReal hReal (withVirtual_output hWith)

/- The candidate goes back in front of what was read. -/
theorem wp_isFollowedByLongIdentEquals
    {R : Bool → Abs → Prop}
    (hUnmarked : Unmarked t.pending)
    (hPost : ∀ b u, t.Frames u → u.pending = t.pending → R b u) :
    wp trusted bounded isFollowedByLongIdentEquals R t := by
  rw [isFollowedByLongIdentEquals, wp_bind]
  refine wp_take ?_ ?_
  · intro hEmpty u hFrame hPending
    exact hPost _ u hFrame (hPending.trans hEmpty.symm)
  · intro d rest hPending u hFrame hRest hGood hFenced
    rw [hPending] at hUnmarked hPost
    -- whatever was read behind it, the candidate goes back
    have hBack : ∀ b w, u.Frames w → w.pending = rest →
        w.Fenced d.tup →
        wp trusted bounded (do delayToken d.tup; return b) R w := by
      intro b w hFrame' hPending' hFenced'
      rw [wp_bind, wp_delayToken]
      refine ⟨hGood.mono hFrame'.known, hFenced', hPost b _
        ((hFrame.trans hFrame').trans (.delay w _)) ?_⟩
      rw [Abs.delay, hPending', hUnmarked.head]
      rfl
    dsimp only
    rw [wp_bind]
    refine wp_isLongIdentEquals ?_ ?_ ?_
    · rw [hRest]
      exact hUnmarked.tail
    · exact hBack false u (.refl u) hRest hFenced
    · intro hToken b w hFrame' hPending'
      exact hBack b w hFrame' (hPending'.trans hRest) (.of_ne hToken)

theorem wp_withBindingStep
    {la : TokenTup}
    (hReady : t.Ready trusted bounded tt)
    (hOpen : Open tt t.view)
    (hWith : tt.token = .Real .With)
    (hLim : t.GoodPos trusted bounded limPos) :
    wp trusted bounded (withBindingStep limPos la tt)
      (Decides trusted bounded useBlockRule Q tt t.view) t := by
  have hReal := TokenContent.isReal_of_eq hWith
  unfold withBindingStep
  dsimp only
  rw [wp_bind, wp_pushCtxt]
  refine ⟨?_, ?_⟩
  · simp only [Context.startPos]
    split
    · exact hReady.good.startPos
    · exact hLim
  · rw [wp_bind]
    refine wp_isFollowedByLongIdentEquals hReady.unmarked ?_
    intro b u hFrame hPending
    have hView := hFrame.view_eq hPending
    cases b with
    | true =>
        rw [if_pos rfl, wp_bind]
        refine wp_pushCtxtSeqBlock (hReady.good.mono hFrame.known) ?_
        intro w first anchor _ _ hBlock
        rw [hView] at hBlock
        rw [wp_bind, wp_setLastRealEnd]
        refine hReady.emit (congrArg View.initialized hBlock) ?_
        exact .shiftTo hReal (.pushBlock hOpen.headless rfl)
          (withVirtual_output hWith) hBlock
    | false =>
        rw [if_neg (by simp), wp_bind, wp_setLastRealEnd]
        refine hReady.emit (congrArg View.initialized hView) ?_
        exact .shiftTo hReal (.push hOpen.headless rfl)
          (withVirtual_output hWith) hView

theorem wp_withAttributeStep
    (hReady : t.Ready trusted bounded tt)
    (hOpen : Open tt t.view)
    (hWith : tt.token = .Real .With) :
    wp trusted bounded (withAttributeStep tt)
      (Decides trusted bounded useBlockRule Q tt t.view) t := by
  simp only [withAttributeStep, wp_bind, wp_pushCtxt,
    wp_setLastRealEnd, wp_pure]
  exact ⟨hReady.good.startPos, hReady.emit rfl
    (.shiftTo (TokenContent.isReal_of_eq hWith)
      (.push hOpen.headless rfl) (withVirtual_output hWith) rfl)⟩

theorem wp_withDeclStep
    (hReady : t.Ready trusted bounded tt)
    (hOpen : Open tt t.view)
    (hWith : tt.token = .Real .With)
    (hLim : t.GoodPos trusted bounded limPos) :
    wp trusted bounded (withDeclStep limPos isInterfaceHead tt)
      (Decides trusted bounded useBlockRule Q tt t.view) t := by
  have hReal := TokenContent.isReal_of_eq hWith
  rw [withDeclStep, wp_bind]
  refine hReady.wp_peek (by simp [hWith]) ?_
  intro u hPeek _
  have hOpen' : Open tt u.view := hPeek.view ▸ hOpen
  have hLim' := hLim.mono hPeek.known
  have hAugment : wp trusted bounded (withAugmentStep limPos tt)
      (Decides trusted bounded useBlockRule Q tt u.view) u :=
    hPeek.ready.wp_pushBlock hOpen'.headless hReal rfl hLim' .asIs
  rw [← hPeek.view]
  split
  · exact hAugment
  · split
    · exact wp_withBindingStep hPeek.ready hOpen' hWith hLim'
    · split
      · exact wp_withAttributeStep hPeek.ready hOpen' hWith
      · split
        · exact hPeek.ready.emit rfl (.settleReal hReal .asIs)
        · exact hAugment

/- The limit of a `with` is the start of a context. -/
theorem withLimit_mem
    (hLimit : withLimit stack = some (limPos, isInterfaceHead)) :
    ∃ ctxt ∈ stack, ctxt.startPos = limPos := by
  unfold withLimit at hLimit
  split at hLimit
  case h_8 =>
    cases hLimit
  all_goals
    cases hLimit
    exact ⟨_, List.mem_cons_self, rfl⟩

theorem withDispatch_holds :
    Holds trusted bounded useBlockRule Open withDispatch := by
  intro tt t hReady hOpen
  unfold withDispatch
  split
  · next hWith =>
      rw [withStep, wp_bind, wp_offsideStack]
      intro hStack
      split
      · exact wp_withClausesStep hReady hOpen hWith
      · exact wp_withClausesStep hReady hOpen hWith
      · split
        · next limPos isInterfaceHead hLimit =>
            rcases withLimit_mem hLimit with ⟨ctxt, hMem, rfl⟩
            exact wp_withDeclStep hReady hOpen hWith (hStack ctxt hMem)
        · exact hReady.wp_tryPushBlock hOpen.headless
            (TokenContent.isReal_of_eq hWith) rfl
            hReady.good.startPos .asIs
  · exact hReady.pass trivial

theorem finallyRule_holds :
    Holds trusted bounded useBlockRule Open finallyRule := by
  intro tt t hReady hOpen
  rw [finallyRule, wp_bind, wp_head]
  intro _
  split
  · split
    · next hFinally =>
        exact hReady.wp_block hOpen.headless
          (TokenContent.isReal_of_eq hFinally) .asIs
    · exact hReady.pass trivial
  · exact hReady.pass trivial

theorem whenRule_holds :
    Holds trusted bounded useBlockRule Open whenRule := by
  intro tt t hReady hOpen
  rw [whenRule, wp_bind, wp_head]
  intro _
  split
  · next hWhen =>
      exact hReady.wp_push hOpen.headless
        (TokenContent.isReal_of_eq hWhen.1) rfl hReady.good.startPos
        .asIs
  · exact hReady.pass trivial

theorem tryRule_holds :
    Holds trusted bounded useBlockRule Open tryRule := by
  intro tt t hReady hOpen
  unfold tryRule
  split
  · next hTry =>
      exact hReady.wp_pushBlock hOpen.headless
        (TokenContent.isReal_of_eq hTry) rfl hReady.good.startPos .asIs
  · exact hReady.pass trivial

theorem tryFinallyWhenPushes_holds :
    Holds trusted bounded useBlockRule Open tryFinallyWhenPushes := by
  refine Meets.firstOf_all ?_
  simp only [List.forall_mem_cons, List.not_mem_nil]
  exact ⟨finallyRule_holds, whenRule_holds, tryRule_holds,
    fun _ h => by cases h⟩

/- A paren context, its block and the depth. -/
theorem wp_pushParen
    (hGood : t.GoodTok trusted bounded tt)
    (hPos : t.GoodPos trusted bounded pos)
    (hPost : ∀ u first anchor, t.KnownIn u →
      u.view = { t.view with
        pending := (blockBegins addBlockEnd anchor).map fresh ++
          t.pending
        stack := .SeqBlock first anchor.start addBlockEnd ::
          .Paren pos opener :: t.stack
        parenDepth := t.parenDepth + 1 } →
      R () u) :
    wp trusted bounded (pushParen pos opener addBlockEnd tt) R t := by
  rw [pushParen, wp_bind, wp_pushCtxt]
  refine ⟨hPos, ?_⟩
  rw [wp_bind]
  refine wp_pushCtxtSeqBlock (hGood.mono fun _ => id) ?_
  intro u first anchor hKnown _ hView
  simp only [wp_bind, wp_core, coreContract]
  refine hPost _ first anchor hKnown ?_
  have hDepth : u.parenDepth = t.parenDepth :=
    congrArg View.parenDepth hView
  rw [hDepth]
  exact congrArg (fun v : View =>
    { v with parenDepth := t.parenDepth + 1 }) hView

/- A paren context under an emitted opener. -/
theorem Abs.Ready.wp_paren
    (hReady : t.Ready trusted bounded tt)
    (hTop : topIsHead t.stack = false)
    (hReal : tt.token.isReal = true)
    (hPos : t.GoodPos trusted bounded pos) :
    wp trusted bounded
      (do pushParen pos opener addBlockEnd tt; return .Emit tt)
      (Decides trusted bounded useBlockRule Q tt t.view) t := by
  rw [wp_bind]
  refine wp_pushParen hReady.good hPos ?_
  intro u first anchor _ hView
  refine hReady.emit (congrArg View.initialized hView) ?_
  exact .shiftTo hReal (.paren hTop) .asIs hView

theorem structRule_holds :
    Holds trusted bounded useBlockRule Open structRule := by
  intro tt t hReady hOpen
  rw [structRule, wp_bind, wp_offsideStack]
  intro _
  split
  · next hStruct =>
      exact hReady.wp_paren hOpen.headless
        (TokenContent.isReal_of_eq hStruct.1) hReady.good.startPos
  · exact hReady.pass trivial

theorem interfaceBlockRule_holds :
    Holds trusted bounded useBlockRule Open interfaceBlockRule := by
  intro tt t hReady hOpen
  unfold interfaceBlockRule
  split
  · next hInterface =>
      rw [wp_bind, wp_offsideStack]
      intro _
      split
      · exact hReady.pass trivial
      · rw [wp_bind]
        refine hReady.wp_peek (by simp [hInterface]) ?_
        intro u hPeek _
        have hOpen' : Open tt u.view := hPeek.view ▸ hOpen
        rw [← hPeek.view]
        split
        · exact hPeek.ready.pass trivial
        · split
          · exact hPeek.ready.wp_paren hOpen'.headless
              (TokenContent.isReal_of_eq hInterface)
              hPeek.ready.good.startPos
          · exact hPeek.ready.pass trivial
  · exact hReady.pass trivial

theorem interfaceHeadRule_holds :
    Holds trusted bounded useBlockRule Open interfaceHeadRule := by
  intro tt t hReady hOpen
  unfold interfaceHeadRule
  split
  · next hInterface =>
      simp only [wp_bind, wp_pushCtxt, wp_setLastRealEnd, wp_pure]
      exact ⟨hReady.good.startPos, hReady.emit rfl
        (.shiftTo (TokenContent.isReal_of_eq hInterface)
          (.push hOpen.headless rfl)
          (.virtual (TokenContent.isAnyOf_of_eq hInterface (by decide))
            (by decide)) rfl)⟩
  · exact hReady.pass trivial

theorem structInterfacePushes_holds :
    Holds trusted bounded useBlockRule Open structInterfacePushes := by
  refine Meets.firstOf_all ?_
  simp only [List.forall_mem_cons, List.not_mem_nil]
  exact ⟨structRule_holds, interfaceBlockRule_holds,
    interfaceHeadRule_holds, fun _ h => by cases h⟩

/- No dummy stands for an infix token. -/
theorem isReal_of_tokenIsInfix
    {content : TokenContent}
    (hDummy : ∀ prevEnd inner, content = .Dummy prevEnd inner →
      inner ∈ dummyTokens)
    (hInfix : tokenIsInfix content = true) :
    content.isReal = true := by
  cases content with
  | Real token =>
      rfl
  | Dummy prevEnd inner =>
      have hMem := hDummy prevEnd inner rfl
      revert hInfix
      revert inner
      simp only [dummyTokens, List.mem_cons, List.not_mem_nil,
        or_false]
      rintro inner - (rfl | rfl | rfl | rfl | rfl | rfl | rfl | rfl |
        rfl | rfl) hInfix <;> cases hInfix
  | _ =>
      cases hInfix

theorem infixRhsPushes_holds :
    Holds trusted bounded useBlockRule Open infixRhsPushes := by
  intro tt t hReady hOpen
  rw [infixRhsPushes, wp_bind, wp_head]
  intro _
  split
  · next hInfix =>
      rw [Bool.and_eq_true] at hInfix
      have hReal := isReal_of_tokenIsInfix hReady.dummy hInfix.1
      have hToken : tt.token ≠ .Real .SemiSemi := by
        intro hSemi
        rw [hSemi] at hInfix
        cases hInfix.1
      rw [infixRhsOnNextLine, wp_bind, wp_bind]
      refine hReady.wp_peek hToken ?_
      intro u hPeek _
      have hOpen' : Open tt u.view := hPeek.view ▸ hOpen
      have hEither : ∀ b : Bool, wp trusted bounded
          (if b = true then pushBlockAndEmit .No tt tt
            else return .Pass tt)
          (Decides trusted bounded useBlockRule True tt t.view) u := by
        intro b
        rw [← hPeek.view]
        cases b with
        | true =>
            exact hPeek.ready.wp_block hOpen'.headless hReal .asIs
        | false =>
            exact hPeek.ready.pass trivial
      split
      · exact hEither _
      · exact hEither _
  · exact hReady.pass trivial

end Pushes

end LexFilter

end Borzoi
