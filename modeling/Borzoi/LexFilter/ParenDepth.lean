import Borzoi.LexFilter.Runs

/-
  The paren depth mirrors the parens on the stack, unless a paren is
  closed without its closer.

  A token that forces the contexts above its partner shut pops parens
  and leaves the depth alone.  So does the cascade of a member
  keyword.

  Main declarations:
    * `parens`
    * `dropsParen`
    * `Act.parenDepth`
    * `parenDepth_mirrors_parens`
-/

namespace Borzoi

namespace LexFilter

open Lexer
open Program

/- The parens on a stack. -/
def parens
    (stack : List Context) :
    Nat :=
  stack.countP Context.isParen

/-
  The token closes a paren that is not its own: it forces the paren on
  top of the stack shut, or it is a member keyword whose cascade has a
  paren above the nearest member body.
-/
def dropsParen
    (token : TokenContent)
    (stack : List Context) :
    Bool :=
  (stack.head?.any Context.isParen &&
      tokenForcesHeadContextClosure token stack) ||
    (token.isAnyOf memberKeywords &&
      thereIsACtxtMemberBodyOnTheStackAndWeShouldPop stack &&
      (stack.takeWhile fun ctxt => !ctxt.isMemberBody).any
        Context.isParen)

/- The token the next iteration takes. -/
def Config.nextToken
    (c : Config) :
    Option TokenTup :=
  match c.filter.popNextTokenTup with
  | .ok (tt, _) => tt
  | .error _ => none

/- The next iteration processes a token that drops a paren. -/
def Config.dropsParen
    (c : Config) :
    Bool :=
  match c.phase with
  | .Fetching _ =>
      c.filter.tokensThatNeedNoProcessing == 0 &&
        c.nextToken.any fun tt =>
          LexFilter.dropsParen tt.token c.filter.offsideStack
  | .Next | .Finished => false

section Moves

variable {useBlockRule : Bool} {tt : TokenTup} {v v' : View} {fetched : Fetched}

@[simp] theorem parens_cons
    (ctxt : Context)
    (stack : List Context) :
    parens (ctxt :: stack) =
      parens stack + if ctxt.isParen = true then 1 else 0 :=
  List.countP_cons

variable {ctxt : Context} {stack : List Context}

theorem isParen_of_isPlain
    (hPlain : ctxt.isPlain = true) :
    ctxt.isParen = false := by
  cases ctxt <;> first | rfl | cases hPlain

theorem isParen_of_isHead
    (hHead : ctxt.isHead = true) :
    ctxt.isParen = false := by
  cases ctxt <;> first | rfl | cases hHead

theorem OffsideClosing.isParen
    {closing : Option Virtual}
    (hClosing : OffsideClosing ctxt closing) :
    ctxt.isParen = false := by
  cases hClosing with
  | block =>
      rfl
  | silent hPlain =>
      exact isParen_of_isPlain hPlain
  | declEnd hPlain =>
      exact isParen_of_isPlain hPlain
  | close hPlain =>
      exact isParen_of_isPlain hPlain

/- Only a paren on top counts among the parens lost with it. -/
theorem parens_tail
    (hHead : stack.head? = some ctxt) :
    parens stack = parens stack.tail +
      if ctxt.isParen = true then 1 else 0 := by
  cases stack with
  | nil =>
      cases hHead
  | cons top rest =>
      cases hHead
      exact parens_cons _ rest

theorem parens_tail_of_not
    (hHead : stack.head? = some ctxt)
    (hNot : ctxt.isParen = false) :
    parens stack.tail = parens stack := by
  rw [parens_tail hHead, hNot]
  rfl

theorem parens_cons_of_not
    (hNot : ctxt.isParen = false) :
    parens (ctxt :: stack) = parens stack := by
  rw [parens_cons, hNot]
  rfl

/- A change of the stack changes the depth with it. -/
theorem Shape.parenDepth
    {stack stack' : List Context}
    {queued : List TokenTup}
    {depth' : Nat}
    (hShape : Shape tt stack (parens stack) stack' queued depth') :
    depth' = parens stack' := by
  have hBlock : ∀ first pos addBlockEnd,
      (Context.SeqBlock first pos addBlockEnd).isParen = false :=
    fun _ _ _ => rfl
  have hParen : ∀ pos opener, (Context.Paren pos opener).isParen =
      true := fun _ _ => rfl
  cases hShape with
  | push hTop hPlain =>
      rw [parens_cons_of_not (isParen_of_isPlain hPlain)]
  | pushTwo hTop hPlain hBelow =>
      rw [parens_cons_of_not (isParen_of_isPlain hPlain),
        parens_cons_of_not (isParen_of_isPlain hBelow)]
  | pushHead hTop hHead =>
      rw [parens_cons_of_not (isParen_of_isHead hHead)]
  | replace hOld hOldPlain hPlain =>
      rw [parens_cons_of_not (isParen_of_isPlain hPlain),
        parens_tail_of_not hOld (isParen_of_isPlain hOldPlain)]
  | replaceHead hOld hOldHead hHead =>
      rw [parens_cons_of_not (isParen_of_isHead hHead),
        parens_tail_of_not hOld (isParen_of_isHead hOldHead)]
  | block hTop =>
      rw [parens_cons_of_not (hBlock _ _ _)]
  | pushBlock hTop hPlain =>
      rw [parens_cons_of_not (hBlock _ _ _),
        parens_cons_of_not (isParen_of_isPlain hPlain)]
  | @replaceBlock old ctxt first addBlockEnd anchor hOld hOldKind
      hPlain =>
      have hOldNot : old.isParen = false := by
        rcases hOldKind with hKind | hKind
        · exact isParen_of_isPlain hKind
        · exact isParen_of_isHead hKind
      rw [parens_cons_of_not (hBlock _ _ _),
        parens_cons_of_not (isParen_of_isPlain hPlain),
        parens_tail_of_not hOld hOldNot]
  | paren hTop =>
      rw [parens_cons_of_not (hBlock _ _ _), parens_cons, hParen]
      rfl
  | reparen hOld =>
      rw [parens_cons_of_not (hBlock _ _ _), parens_cons, hParen,
        parens_tail hOld, hParen]
      simp
  | closeFill hOld =>
      rw [parens_tail hOld, hParen]
      simp
  | closeParen hOld hInner =>
      rw [parens_tail hOld, hParen]
      simp
  | balance hOld hOldPlain hInner =>
      rw [parens_tail_of_not hOld (isParen_of_isPlain hOldPlain)]
  | done hOld =>
      rw [parens_tail_of_not hOld rfl]

/- The contexts a cascade unwinds. -/
theorem takeWhile_above
    {above below : List Context}
    {pos : Pos}
    (hAbove : ∀ c ∈ above, c.isMemberBody = false) :
    ((above ++ .MemberBody pos :: below).takeWhile
      fun ctxt => !ctxt.isMemberBody) = above := by
  rw [List.takeWhile_append_of_pos]
  · simp [Context.isMemberBody]
  · intro c hMem
    simp [hAbove c hMem]

/- Every move keeps the mirror, unless its token drops a paren. -/
theorem Act.parenDepth
    (hMirror : v.parenDepth = parens v.stack)
    (hKeeps : dropsParen tt.token v.stack = false)
    (hAct : Act useBlockRule tt v fetched v') :
    v'.parenDepth = parens v'.stack := by
  unfold dropsParen at hKeeps
  rw [Bool.or_eq_false_iff] at hKeeps
  cases hAct with
  | @force ctxt hHead hForce =>
      have hNot : ctxt.isParen = false := by
        have hTop := hKeeps.1
        rw [hForce, Bool.and_true, hHead] at hTop
        exact hTop
      dsimp only
      rw [parens_tail_of_not hHead hNot]
      exact hMirror
  | pop hHead hClosing hOffside =>
      dsimp only
      rw [parens_tail_of_not hHead hClosing.isParen]
      exact hMirror
  | endHead hHead hKind hOut =>
      dsimp only
      rw [parens_tail_of_not hHead (isParen_of_isHead hKind)]
      exact hMirror
  | flip hRule hHead =>
      dsimp only
      rw [parens_cons_of_not rfl, parens_tail_of_not hHead rfl]
      exact hMirror
  | sep hRule hHead hOut =>
      dsimp only
      rw [parens_cons_of_not rfl, parens_tail_of_not hHead rfl]
      exact hMirror
  | openBody hHead hKind hBody =>
      dsimp only
      rw [parens_cons_of_not rfl,
        parens_cons_of_not (isParen_of_isPlain hBody),
        parens_tail_of_not hHead (isParen_of_isHead hKind)]
      exact hMirror
  | shift hReal hShape hOut =>
      rw [hMirror] at hShape
      exact hShape.parenDepth
  | elif hElse hTop hNext hIf =>
      dsimp only
      rw [parens_cons_of_not rfl]
      exact hMirror
  | @cascade above below pos hToken hPops hStack hAbove =>
      have hNone := hKeeps.2
      rw [hToken, hPops, Bool.true_and, Bool.true_and, hStack,
        takeWhile_above hAbove, List.any_eq_false] at hNone
      have hZero : parens above = 0 := by
        rw [parens, List.countP_eq_zero]
        exact hNone
      dsimp only
      rw [hMirror, hStack, parens, List.countP_append]
      have hBelow : parens (.MemberBody pos :: below) = parens below :=
        parens_cons_of_not rfl
      unfold parens at hZero hBelow ⊢
      rw [hZero, hBelow, Nat.zero_add]
  | _ =>
      exact hMirror

theorem Iterates.parenDepth
    (hMirror : v.parenDepth = parens v.stack)
    (hKeeps : ∀ d rest, v.pending = d :: rest → v.noProcessing = 0 →
      dropsParen d.tup.token v.stack = false)
    (hMove : Iterates useBlockRule v fetched v') :
    v'.parenDepth = parens v'.stack := by
  cases hMove with
  | exhausted hPending =>
      exact hMirror
  | @moved d rest fetched v' hPending hMove =>
      cases hMove with
      | passThrough hCount =>
          exact hMirror
      | @act ahead v' fetched hIdle hAhead hAct =>
          have hSame : ahead.parenDepth = parens ahead.stack := by
            rw [hAhead.parenDepth, hAhead.stack]
            exact hMirror
          refine hAct.parenDepth hSame ?_
          rw [hAhead.stack]
          exact hKeeps d rest hPending hIdle

end Moves

section Runs

variable {trusted : Prop} {source : List UInt8} {c c' : Config} {g g' : Stage}
variable {t : Abs}

variable {useBlockRule : Bool}

/- An iteration that cannot take its token fails. -/
theorem fetchIteration_error
    {s : Filter}
    {e : Panic}
    (hPop : s.popNextTokenTup = .error e) :
    runFilter (fetchIteration useBlockRule) s = .error e := by
  unfold runFilter fetchIteration FilterM.popNextTokenTup
    FilterM.core Prog.perform
  simp only [bind, Prog.bind, Prog.run, Op.exec, CoreOp.exec, hPop]

/- The next token of a configuration is the first pending one. -/
theorem Tracks.nextToken
    {d : Delayed}
    {rest : List Delayed}
    (hTracks : Tracks trusted source c g t)
    (hPhase : c.phase = .Fetching useBlockRule)
    (hPending : g.view.pending = d :: rest)
    (hStep : c.step = .ok c') :
    c.nextToken = some d.tup := by
  have hSim := hTracks.sim
  have hQueue : d :: rest =
      c.filter.delayed ++ c.filter.upcoming.map fresh := by
    rw [← hPending, ← hTracks.view]
    exact hSim.pending
  unfold Config.nextToken
  cases hPop : c.filter.popNextTokenTup with
  | error e =>
      unfold Config.step at hStep
      rw [hPhase] at hStep
      dsimp only at hStep
      rw [fetchIteration_error hPop] at hStep
      cases hStep
  | ok r =>
      rcases r with ⟨reply, s⟩
      rcases Core.popNextTokenTup_cases hPop with
        ⟨d', rest', hDelayed, rfl, -⟩ | ⟨hDelayed, hPull⟩
      · rw [hDelayed] at hQueue
        cases hQueue
        rfl
      · have hPulled := Core.pullRawFrom_pulled
          (Tracked.bare_iff.1 hSim.tracked) hSim.eof hPull
        have hUpcoming : c.filter.upcoming =
            reply.toList ++ s.upcoming := hPulled.upcoming
        rw [hDelayed, hUpcoming, List.nil_append] at hQueue
        cases reply with
        | none =>
            rw [hPulled.last rfl] at hQueue
            cases hQueue
        | some tt =>
            cases hQueue
            rfl

/- A step that drops no paren keeps the mirror. -/
theorem Tracks.parenDepth
    (hTracks : Tracks trusted source c g t)
    (hKeeps : c.dropsParen = false)
    (hStep : c.step = .ok c')
    (hSteps : g.Steps g')
    (hMirror : g.view.parenDepth = parens g.view.stack) :
    g'.view.parenDepth = parens g'.view.stack := by
  have hMove : ∀ {useBlockRule : Bool} {fetched : Fetched} {v : View},
      g.phase = .Fetching useBlockRule →
      Iterates useBlockRule g.view fetched v →
      v.parenDepth = parens v.stack := by
    intro useBlockRule fetched v hPhase hMove
    have hPhase' : c.phase = .Fetching useBlockRule :=
      hTracks.phase.trans hPhase
    refine hMove.parenDepth hMirror ?_
    intro d rest hPending hIdle
    have hNext := hTracks.nextToken hPhase' hPending hStep
    have hCount : c.filter.tokensThatNeedNoProcessing = 0 := by
      rw [← hTracks.sim.noProcessing]
      exact (congrArg View.noProcessing hTracks.view).trans hIdle
    have hStack : c.filter.offsideStack = g.view.stack := by
      rw [← hTracks.sim.stack]
      exact congrArg View.stack hTracks.view
    unfold Config.dropsParen at hKeeps
    rw [hPhase'] at hKeeps
    simp only [hCount, beq_self_eq_true, Bool.true_and, hNext,
      Option.any_some, hStack] at hKeeps
    exact hKeeps
  cases hSteps with
  | start hPhase hInit =>
      exact hMirror
  | @begin d rest hPhase hInit hPending =>
      have hSame : parens (g.view.begin d rest).stack =
          parens g.view.stack := parens_cons_of_not rfl
      rw [hSame]
      exact hMirror
  | beginEmpty hPhase hInit hPending =>
      exact hMirror
  | again hPhase hIterates =>
      exact hMove hPhase hIterates
  | emit hPhase hIterates hMore =>
      exact hMove hPhase hIterates
  | finish hPhase hIterates hEof =>
      exact hMove hPhase hIterates
  | exhausted hPhase hIterates =>
      exact hMove hPhase hIterates

end Runs

end LexFilter

end Borzoi
