import Borzoi.LexFilter.Runs
import Mathlib.Algebra.Ring.Int.Defs

/-
  Every block that begins ends.

  A pending or yielded `BlockBegin` counts one, a `BlockEnd` counts
  minus one, and a block on the stack that owes its end counts one
  against them.  No move changes the sum.

  Main declarations:
    * `weight`
    * `debt`
    * `surplus`
    * `Iterates.surplus`
    * `blocks_balance`
-/

namespace Borzoi

namespace LexFilter

open Lexer
open Program

def Virtual.weight
    (virt : Virtual) :
    Int :=
  match virt with
  | .BlockBegin => 1
  | .BlockEnd => -1
  | _ => 0

def TokenContent.weight
    (content : TokenContent) :
    Int :=
  match content with
  | .Virtual virt => virt.weight
  | _ => 0

/- The weight of queued tokens. -/
def weight
    (pending : List Delayed) :
    Int :=
  (pending.map fun d => d.tup.token.weight).sum

/- A block that owes its end. -/
def Context.owesEnd
    (ctxt : Context) :
    Bool :=
  match ctxt with
  | .SeqBlock _ _ .Yes => true
  | _ => false

def Context.debt
    (ctxt : Context) :
    Int :=
  if ctxt.owesEnd then 1 else 0

/- The debt of a stack. -/
def debt
    (stack : List Context) :
    Int :=
  (stack.map Context.debt).sum

/- What the pending tokens have over the debt. -/
def View.surplus
    (v : View) :
    Int :=
  weight v.pending - debt v.stack

/- The weight of what an iteration yields. -/
def Fetched.gain
    (fetched : Fetched) :
    Int :=
  match fetched with
  | .Yield tt => tt.token.weight
  | .Again _ | .Exhausted => 0

variable {ctxt : Context} {pending : List Delayed}

section Weights

variable {content : TokenContent}

@[simp] theorem weight_nil :
    weight [] = 0 :=
  rfl

@[simp] theorem weight_cons
    (d : Delayed)
    (pending : List Delayed) :
    weight (d :: pending) = d.tup.token.weight + weight pending := by
  rw [weight, List.map_cons, List.sum_cons]
  rfl

@[simp] theorem weight_append
    (left right : List Delayed) :
    weight (left ++ right) = weight left + weight right := by
  rw [weight, List.map_append, List.sum_append]
  rfl

@[simp] theorem debt_cons
    (ctxt : Context)
    (stack : List Context) :
    debt (ctxt :: stack) = ctxt.debt + debt stack := by
  rw [debt, List.map_cons, List.sum_cons]
  rfl

@[simp] theorem debt_append
    (left right : List Context) :
    debt (left ++ right) = debt left + debt right := by
  rw [debt, List.map_append, List.sum_append]
  rfl

@[simp] theorem weight_asVirtual
    (tt : TokenTup)
    (virt : Virtual) :
    (fresh (tt.asVirtual virt)).tup.token.weight = virt.weight :=
  rfl

theorem weight_of_isReal
    (hReal : content.isReal = true) :
    content.weight = 0 := by
  cases content with
  | Real token =>
      rfl
  | _ =>
      cases hReal

/- Only the start of a block has a positive weight. -/
theorem weight_nonpos
    (hNot : content ≠ .Virtual .BlockBegin) :
    content.weight ≤ 0 := by
  cases content with
  | Virtual virt =>
      cases virt with
      | BlockBegin =>
          exact absurd rfl hNot
      | _ =>
          simp [TokenContent.weight, Virtual.weight]
  | _ =>
      simp [TokenContent.weight]

theorem weight_of_isDummy
    (hDummy : content.isDummy = true) :
    content.weight = 0 := by
  cases content with
  | Dummy prevEnd inner =>
      rfl
  | _ =>
      cases hDummy

theorem debt_of_isPlain
    (hPlain : ctxt.isPlain = true) :
    ctxt.debt = 0 := by
  cases ctxt <;> first | rfl | cases hPlain

theorem debt_of_isHead
    (hHead : ctxt.isHead = true) :
    ctxt.debt = 0 := by
  cases ctxt <;> first | rfl | cases hHead

/- The debt of a stack is that of its top and of the rest. -/
theorem debt_tail
    {stack : List Context}
    (hHead : stack.head? = some ctxt) :
    debt stack = ctxt.debt + debt stack.tail := by
  cases stack with
  | nil =>
      cases hHead
  | cons top rest =>
      cases hHead
      exact debt_cons _ rest

theorem weight_quiet
    (hQuiet : ∀ d ∈ pending, Quiet d) :
    weight pending = 0 := by
  induction pending with
  | nil =>
      rfl
  | cons d rest ih =>
      have hHere := hQuiet d List.mem_cons_self
      have hRest := ih fun e hMem => hQuiet e (List.mem_cons_of_mem _ hMem)
      rw [weight_cons, hRest, Int.add_zero]
      cases hToken : d.tup.token with
      | Virtual virt =>
          cases virt with
          | BlockBegin =>
              exact absurd hToken hHere.notBegin
          | BlockEnd =>
              exact absurd hToken hHere.notEnd
          | _ =>
              rfl
      | _ =>
          rfl

end Weights

section Moves

variable {useBlockRule : Bool} {tt : TokenTup} {v v' : View} {fetched : Fetched}

theorem OffsideClosing.gain
    {closing : Option Virtual}
    (hClosing : OffsideClosing ctxt closing) :
    (closed useBlockRule closing tt).gain = -ctxt.debt := by
  cases hClosing with
  | @block first pos addBlockEnd =>
      cases addBlockEnd <;> rfl
  | silent hPlain =>
      rw [debt_of_isPlain hPlain]
      rfl
  | declEnd hPlain =>
      rw [debt_of_isPlain hPlain]
      rfl
  | close hPlain =>
      rw [debt_of_isPlain hPlain]
      rfl

theorem Output.gain
    (hOut : Output useBlockRule tt fetched) :
    fetched.gain = tt.token.weight := by
  have hKeywords : ∀ virt ∈ keywordVirtuals, virt.weight = 0 := by
    decide
  cases hOut with
  | asIs =>
      rfl
  | virtual hToken hVirt =>
      rw [weight_of_isReal (TokenContent.isReal_of_isAnyOf hToken)]
      exact hKeywords _ hVirt
  | swallow hToken =>
      rw [weight_of_isReal (TokenContent.isReal_of_isAnyOf hToken)]
      rfl

/- A block queues what it owes. -/
theorem weight_blockBegins
    (addBlockEnd : AddBlockEnd)
    (anchor : TokenTup)
    (first : Bool)
    (pos : Pos) :
    weight ((blockBegins addBlockEnd anchor).map fresh) =
      (Context.SeqBlock first pos addBlockEnd).debt := by
  cases addBlockEnd <;> rfl

/- A change of the stack queues what it owes. -/
theorem Shape.balances
    {stack stack' : List Context}
    {queued : List TokenTup}
    {depth depth' : Nat}
    (hShape : Shape tt stack depth stack' queued depth') :
    weight (queued.map fresh) = debt stack' - debt stack := by
  have hParen : ∀ pos opener, (Context.Paren pos opener).debt = 0 :=
    fun _ _ => rfl
  cases hShape with
  | push hTop hPlain =>
      rw [debt_cons, debt_of_isPlain hPlain]
      simp
  | pushTwo hTop hPlain hBelow =>
      rw [debt_cons, debt_cons, debt_of_isPlain hPlain,
        debt_of_isPlain hBelow]
      simp
  | pushHead hTop hHead =>
      rw [debt_cons, debt_of_isHead hHead]
      simp
  | replace hOld hOldPlain hPlain =>
      rw [debt_tail hOld, debt_cons, debt_of_isPlain hPlain,
        debt_of_isPlain hOldPlain]
      simp
  | replaceHead hOld hOldHead hHead =>
      rw [debt_tail hOld, debt_cons, debt_of_isHead hHead,
        debt_of_isHead hOldHead]
      simp
  | @block first addBlockEnd anchor hTop =>
      rw [debt_cons, weight_blockBegins addBlockEnd anchor first
        anchor.start]
      omega
  | @pushBlock ctxt first addBlockEnd anchor hTop hPlain =>
      rw [debt_cons, debt_cons, debt_of_isPlain hPlain,
        weight_blockBegins addBlockEnd anchor first anchor.start]
      omega
  | @replaceBlock old ctxt first addBlockEnd anchor hOld hOldKind
      hPlain =>
      have hOldDebt : old.debt = 0 := by
        rcases hOldKind with hKind | hKind
        · exact debt_of_isPlain hKind
        · exact debt_of_isHead hKind
      rw [debt_tail hOld, debt_cons, debt_cons, debt_of_isPlain hPlain,
        hOldDebt, weight_blockBegins addBlockEnd anchor first
          anchor.start]
      omega
  | @paren parenPos opener first addBlockEnd anchor hTop =>
      rw [debt_cons, debt_cons, hParen, weight_blockBegins addBlockEnd
        anchor first anchor.start]
      omega
  | @reparen oldPos parenPos oldOpener opener first addBlockEnd anchor
      hOld =>
      rw [debt_tail hOld, debt_cons, debt_cons, hParen, hParen,
        weight_blockBegins addBlockEnd anchor first anchor.start]
      omega
  | closeFill hOld =>
      rw [debt_tail hOld, hParen]
      simp
  | closeParen hOld hInner =>
      rw [debt_tail hOld, hParen]
      simp [TokenContent.weight, TokenTup.withToken, fresh]
  | balance hOld hOldPlain hInner =>
      rw [debt_tail hOld, debt_of_isPlain hOldPlain]
      simp [TokenContent.weight, TokenTup.withToken, fresh]
  | done hOld =>
      rw [debt_tail hOld]
      simp [Virtual.weight, Context.debt, Context.owesEnd]

/- A scan keeps the weight. -/
theorem Recut.weight
    {res : Bool}
    {pending pending' : List Delayed}
    (hRecut : Recut res pending pending')
    (hQuiet : ∀ d ∈ pending, Quiet d) :
    weight pending' = 0 :=
  weight_quiet (hRecut.quiet hQuiet)

/- A context pays its debt with its closing virtual. -/
theorem debt_endTokenForACtxt
    (ctxt : Context) :
    ((endTokenForACtxt ctxt).map Virtual.weight).getD 0 =
      -ctxt.debt := by
  cases ctxt with
  | SeqBlock first pos addBlockEnd =>
      cases addBlockEnd <;> rfl
  | LetDecl block pos =>
      cases block <;> rfl
  | ModuleHead pos prev attributes nested =>
      cases nested <;> rfl
  | _ =>
      rfl

/- The closing virtual pays the debt of a context. -/
theorem gain_closed_endToken
    (ctxt : Context) :
    (closed useBlockRule (endTokenForACtxt ctxt) tt).gain =
      -ctxt.debt := by
  rw [← debt_endTokenForACtxt]
  cases endTokenForACtxt ctxt <;> rfl

/- The virtuals of a cascade pay the debts above the body. -/
theorem weight_cascadeVirtuals
    (tt : TokenTup)
    (above : List Context) :
    weight (cascadeVirtuals tt above) = -debt above := by
  unfold cascadeVirtuals
  induction above with
  | nil =>
      rfl
  | cons ctxt above ih =>
      have hPays := debt_endTokenForACtxt ctxt
      rw [debt_cons, List.filterMap_cons]
      cases hClosing : endTokenForACtxt ctxt with
      | none =>
          rw [hClosing] at hPays
          have hZero : ctxt.debt = 0 := by
            simpa using hPays.symm
          dsimp only
          rw [ih, hZero, Int.zero_add]
      | some virt =>
          rw [hClosing] at hPays
          have hVirt : virt.weight = -ctxt.debt := hPays
          dsimp only
          rw [List.map_cons, List.reverse_cons, weight_append, ih,
            weight_cons, weight_nil]
          have hToken : (tt.asVirtual virt).token.weight =
              virt.weight := rfl
          dsimp only
          rw [hToken, hVirt]
          omega

/- Every move keeps the sum. -/
theorem Act.surplus
    (hHolding : Holding tt v)
    (hAct : Act useBlockRule tt v fetched v') :
    v'.surplus + fetched.gain = tt.token.weight + v.surplus := by
  have hQuiet := weight_quiet hHolding.upfront.quiet
  unfold View.surplus
  cases hAct with
  | cut hGlued =>
      rcases hGlued.real with ⟨hReal, hFirst, hSecond⟩
      simp only [weight_cons, fresh, Fetched.gain,
        weight_of_isReal hReal, weight_of_isReal hFirst,
        weight_of_isReal hSecond]
      omega
  | @app next rest virt hIdent hNext hOpen hVirt =>
      have hKinds : ∀ w ∈ [Virtual.HighPrecedenceBrackApp,
          .HighPrecedenceParenApp], w.weight = 0 := by decide
      rw [weight_cons, weight_cons, weight_asVirtual,
        hKinds virt hVirt]
      simp only [fresh, Fetched.gain]
      omega
  | force hHead hForce =>
      rw [gain_closed_endToken, debt_tail hHead, weight_cons]
      simp only [fresh]
      omega
  | pop hHead hClosing hOffside =>
      rw [hClosing.gain, debt_tail hHead, weight_cons]
      simp only [fresh]
      omega
  | endHead hHead hKind hOut =>
      rw [debt_tail hHead, debt_of_isHead hKind, weight_cons]
      simp only [fresh, Fetched.gain, hOut, TokenContent.weight,
        Virtual.weight]
      omega
  | reset hSemi hEmpty =>
      simp only [Fetched.gain]
      omega
  | @flip pos addBlockEnd hRule hHead =>
      rw [debt_tail hHead, debt_cons, weight_cons]
      have hSame : (Context.SeqBlock false pos addBlockEnd).debt =
          (Context.SeqBlock true pos addBlockEnd).debt := by
        cases addBlockEnd <;> rfl
      rw [hSame]
      simp only [fresh, Fetched.gain]
      omega
  | @sep pos addBlockEnd out hRule hHead hOut =>
      rw [debt_tail hHead, debt_cons, weight_cons]
      have hSame : (Context.SeqBlock true pos addBlockEnd).debt =
          (Context.SeqBlock false pos addBlockEnd).debt := by
        cases addBlockEnd <;> rfl
      rw [hSame]
      simp only [fresh, Fetched.gain, hOut, TokenContent.weight,
        Virtual.weight]
      omega
  | @openBody head body first hHead hKind hBody =>
      rw [debt_tail hHead, debt_of_isHead hKind, debt_cons, debt_cons,
        debt_of_isPlain hBody, weight_cons, weight_cons,
        weight_asVirtual]
      have hBlock : (Context.SeqBlock first tt.start .Yes).debt = 1 :=
        rfl
      rw [hBlock]
      simp only [fresh, Fetched.gain, Virtual.weight]
      omega
  | settle hDummy hEof hOut =>
      rw [hOut.gain]
      omega
  | drop hDummy =>
      rw [weight_of_isDummy hDummy]
      simp only [Fetched.gain]
      omega
  | shift hReal hShape hOut =>
      rw [hOut.gain, weight_append, hShape.balances]
      dsimp only
      omega
  | elif hElse hTop hNext hIf =>
      have hBranch : (Context.If tt.start).debt = 0 := rfl
      rw [hNext, weight_cons, hIf, debt_cons, hElse, hBranch]
      simp only [Fetched.gain, fusedElif, TokenContent.weight]
      omega
  | @cascade above below pos hToken hPops hStack hAbove =>
      have hBody : (Context.MemberBody pos).debt = 0 := rfl
      rw [weight_append, weight_cons, weight_cascadeVirtuals, hStack,
        debt_append, debt_cons, hBody]
      simp only [Fetched.gain]
      omega
  | @typeApp less flag rest hTrigger hRecut hLess =>
      have hAfter := hRecut.weight hHolding.upfront.quiet
      rw [weight_cons, hLess] at hAfter
      rw [weight_cons, weight_cons, weight_asVirtual, hQuiet]
      simp only [fresh, TokenTup.withToken, Fetched.gain,
        TokenContent.weight, Virtual.weight] at hAfter ⊢
      omega

/- Every iteration keeps the sum. -/
theorem Iterates.surplus
    (hTidy : Tidy v)
    (hInit : v.initialized = true)
    (hMove : Iterates useBlockRule v fetched v') :
    v'.surplus + fetched.gain = v.surplus := by
  cases hMove with
  | exhausted hPending =>
      simp [Fetched.gain]
  | moved hPending hMove =>
      unfold View.surplus
      rw [hPending, weight_cons]
      cases hMove with
      | passThrough hCount =>
          simp only [Fetched.gain]
          omega
      | act hIdle hAhead hAct =>
          have hHolding := hTidy.holding hInit hIdle hPending
          have hAfter := hAct.surplus (hHolding.ahead hAhead)
          have hBefore := weight_quiet hHolding.upfront.quiet
          have hLater := hAhead.pending.weight hHolding.upfront.quiet
          have hStack := hAhead.stack
          unfold View.surplus at hAfter
          rw [hLater, hStack] at hAfter
          dsimp only at hAfter hBefore
          rw [hBefore]
          omega

theorem debt_nonneg
    (stack : List Context) :
    0 ≤ debt stack := by
  induction stack with
  | nil =>
      exact Int.le_refl 0
  | cons ctxt stack ih =>
      rw [debt_cons]
      unfold Context.debt
      split <;> omega

theorem weight_passing
    (hPassing : ∀ d ∈ pending, Passing d) :
    weight pending ≤ 0 := by
  induction pending with
  | nil =>
      exact Int.le_refl 0
  | cons d rest ih =>
      have hRest := ih fun e hMem =>
        hPassing e (List.mem_cons_of_mem _ hMem)
      have hHere := weight_nonpos
        (hPassing d List.mem_cons_self).notBegin
      rw [weight_cons]
      omega

/- The pending tokens never exceed the debt. -/
theorem Tidy.surplus_nonpos
    (hTidy : Tidy v) :
    v.surplus ≤ 0 := by
  have hDebt := debt_nonneg v.stack
  unfold View.surplus
  rcases hTidy.layout with ⟨-, tt, rest, hFront, hUp⟩ |
    ⟨marked, rest, hSplit, -, hMarked, hQuiet, -⟩
  · rw [hFront, weight_cons, weight_quiet hUp.quiet]
    by_cases hBegin : tt.token = .Virtual .BlockBegin
    · -- the pending block start stands on the block it opens
      rcases hUp.opens hBegin with ⟨first, below, hStack⟩
      have hBelow := debt_nonneg below
      have hBlock : (Context.SeqBlock first tt.start .Yes).debt = 1 :=
        rfl
      rw [hStack, debt_cons, hBlock]
      simp only [fresh, hBegin, TokenContent.weight, Virtual.weight]
      omega
    · have hLight := weight_nonpos hBegin
      simp only [fresh]
      omega
  · have hLight := weight_passing hMarked
    rw [hSplit, weight_append, weight_quiet hQuiet]
    omega

end Moves

------------------------------------------------------------
-- Runs
------------------------------------------------------------

/- The weight of yielded tokens. -/
def outWeight
    (out : List TokenTup) :
    Int :=
  (out.map fun tt => tt.token.weight).sum

/- The blocks of a stage balance, and did so all along. -/
structure Stage.Balanced
    (g : Stage) :
    Prop where
  sum : outWeight g.out + g.view.surplus = 0
  prefixes : ∀ pre, pre <+: g.out → 0 ≤ outWeight pre

section Runs

variable {g g' : Stage}

theorem outWeight_concat
    (out : List TokenTup)
    (tt : TokenTup) :
    outWeight (out ++ [tt]) = outWeight out + tt.token.weight := by
  simp [outWeight]

/- A step that yields nothing keeps the balance. -/
theorem Stage.Balanced.silent
    {phase : Phase}
    {v : View}
    (hBalanced : g.Balanced)
    (hSame : v.surplus = g.view.surplus) :
    Stage.Balanced ⟨phase, v, g.out⟩ := by
  refine ⟨?_, hBalanced.prefixes⟩
  dsimp only
  rw [hSame]
  exact hBalanced.sum

/- Every step keeps the balance. -/
theorem Stage.Steps.balanced
    (hValid : g.Valid)
    (hBalanced : g.Balanced)
    (hStep : g.Steps g') :
    g'.Balanced := by
  have hValid' := hStep.valid hValid
  have hOpen : ∀ {useBlockRule : Bool},
      g.phase = .Fetching useBlockRule → Tidy g.view := by
    intro useBlockRule hPhase
    refine hValid.tidy ?_
    rw [hPhase]
    exact Phase.noConfusion
  cases hStep with
  | start hPhase hInit =>
      exact hBalanced.silent rfl
  | begin hPhase hInit hPending =>
      refine hBalanced.silent ?_
      simp only [View.surplus, View.begin, weight_cons, debt_cons,
        hPending, fresh]
      exact congrArg _ (Int.zero_add _)
  | beginEmpty hPhase hInit hPending =>
      exact hBalanced.silent rfl
  | again hPhase hMove =>
      refine hBalanced.silent ?_
      have hSum := hMove.surplus (hOpen hPhase)
        (hValid.fetching _ hPhase)
      simp only [Fetched.gain] at hSum
      omega
  | @emit useBlockRule tt v hPhase hMove hMore =>
      have hSum := hMove.surplus (hOpen hPhase)
        (hValid.fetching _ hPhase)
      have hOld := hBalanced.sum
      simp only [Fetched.gain] at hSum
      have hNew : outWeight (g.out ++ [tt]) + v.surplus = 0 := by
        rw [outWeight_concat]
        omega
      refine ⟨hNew, ?_⟩
      intro pre hPrefix
      rcases List.prefix_concat_iff.1 hPrefix with rfl | hEarlier
      · have hLow := (hValid'.tidy Phase.noConfusion).surplus_nonpos
        dsimp only at hLow
        omega
      · exact hBalanced.prefixes pre hEarlier
  | finish hPhase hMove hEof =>
      refine hBalanced.silent ?_
      have hSum := hMove.surplus (hOpen hPhase)
        (hValid.fetching _ hPhase)
      simp only [Fetched.gain, hEof, TokenContent.weight] at hSum
      omega
  | exhausted hPhase hMove =>
      refine hBalanced.silent ?_
      have hSum := hMove.surplus (hOpen hPhase)
        (hValid.fetching _ hPhase)
      simp only [Fetched.gain] at hSum
      omega

end Runs

/- Whether an item of the output is the virtual. -/
def FilteredItem.isVirtual
    (virt : Virtual)
    (item : FilteredItem) :
    Bool :=
  match item.result with
  | .ok (.Virtual other) => other == virt
  | _ => false

def Delayed.isVirtual
    (virt : Virtual)
    (d : Delayed) :
    Bool :=
  d.tup.token == .Virtual virt

section Counts

/- The weight is the number of starts less the number of ends. -/
theorem weight_eq_counts
    (pending : List Delayed) :
    weight pending =
      (pending.countP (Delayed.isVirtual .BlockBegin) : Int) -
        (pending.countP (Delayed.isVirtual .BlockEnd) : Int) := by
  induction pending with
  | nil =>
      rfl
  | cons d rest ih =>
      have hHere : d.tup.token.weight =
          (if d.isVirtual .BlockBegin = true then 1 else 0) -
            (if d.isVirtual .BlockEnd = true then 1 else 0) := by
        unfold Delayed.isVirtual
        cases d.tup.token with
        | Virtual virt =>
            cases virt <;> rfl
        | _ =>
            rfl
      rw [weight_cons, List.countP_cons, List.countP_cons, ih, hHere]
      split <;> split <;> push_cast <;> omega

theorem debt_eq_count
    (stack : List Context) :
    debt stack = (stack.countP Context.owesEnd : Int) := by
  induction stack with
  | nil =>
      rfl
  | cons ctxt stack ih =>
      rw [debt_cons, List.countP_cons, ih]
      unfold Context.debt
      split <;> push_cast <;> omega

/- The output counts as the tokens it was made from. -/
theorem outWeight_eq_counts
    (out : List TokenTup) :
    outWeight out =
      ((out.filterMap itemOf).countP
          (FilteredItem.isVirtual .BlockBegin) : Int) -
        ((out.filterMap itemOf).countP
          (FilteredItem.isVirtual .BlockEnd) : Int) := by
  induction out with
  | nil =>
      rfl
  | cons tt out ih =>
      have hSum : outWeight (tt :: out) =
          tt.token.weight + outWeight out := by
        simp [outWeight]
      rw [hSum, List.filterMap_cons, ih]
      unfold itemOf
      cases tt.token with
      | Virtual virt =>
          dsimp only
          rw [List.countP_cons, List.countP_cons]
          cases virt <;>
            simp [FilteredItem.isVirtual, TokenContent.weight,
              Virtual.weight] <;>
            omega
      | Real token =>
          dsimp only
          rw [List.countP_cons, List.countP_cons]
          simp [FilteredItem.isVirtual, TokenContent.weight]
      | Err e =>
          dsimp only
          rw [List.countP_cons, List.countP_cons]
          simp [FilteredItem.isVirtual, TokenContent.weight]
      | Eof =>
          exact Int.zero_add _
      | Dummy prevEnd inner =>
          exact Int.zero_add _

end Counts

/- The initial stage is balanced. -/
theorem Stage.initial_balanced
    {source : List UInt8}
    {lang : LanguageVersion}
    {raw : List RawItem} :
    (Stage.initial source lang raw).Balanced := by
  refine ⟨?_, ?_⟩
  · have hZero : weight (Stage.initial source lang raw).view.pending =
        0 := by
      refine weight_quiet ?_
      intro d hMem
      rcases List.mem_map.1 hMem with ⟨tt, hIn, rfl⟩
      exact upcomingFrom_quiet tt hIn
    unfold View.surplus
    rw [hZero]
    rfl
  · intro pre hPrefix
    rw [List.prefix_nil.1 hPrefix]
    exact Int.le_refl 0

/-
  In every reachable state the block starts emitted or delayed exceed
  the block ends by the blocks that owe their end.  A completed run
  emits as many ends as starts, and no part of the output runs ahead
  with its ends.
-/
theorem blocks_balance
    (source : List UInt8)
    (lang : LanguageVersion)
    (raw : List RawItem)
    (c : Config)
    (hReach : filterMachine.Reaches (.initial source lang raw) c) :
    (((c.emitted.countP (FilteredItem.isVirtual .BlockBegin) +
            c.filter.delayed.countP (Delayed.isVirtual .BlockBegin) :
              Nat) : Int) -
          (c.emitted.countP (FilteredItem.isVirtual .BlockEnd) +
            c.filter.delayed.countP (Delayed.isVirtual .BlockEnd) :
              Nat) =
        (c.filter.offsideStack.countP Context.owesEnd : Nat)) ∧
      (c.phase = .Finished →
        c.emitted.countP (FilteredItem.isVirtual .BlockBegin) =
          c.emitted.countP (FilteredItem.isVirtual .BlockEnd)) ∧
      ∀ pre, pre <+: c.emitted →
        pre.countP (FilteredItem.isVirtual .BlockEnd) ≤
          pre.countP (FilteredItem.isVirtual .BlockBegin) := by
  have hUntrusted : False → linesStartChars source = true ∧
      fits source 0 raw = true := False.elim
  rcases reaches_tracks hUntrusted hReach with
    ⟨g, t, hStages, hTracks⟩
  rcases hStages.invariant Stage.initial_valid Stage.initial_balanced
    (fun _ _ hValid hInv hStep => hStep.balanced hValid hInv) with
    ⟨hValid, hBalanced⟩
  have hSum := hBalanced.sum
  have hOut := outWeight_eq_counts g.out
  rw [← hTracks.emitted] at hOut
  -- the raw stream holds no block virtuals
  have hUpcoming : weight (c.filter.upcoming.map fresh) = 0 := by
    refine weight_quiet ?_
    intro d hMem
    rcases List.mem_map.1 hMem with ⟨tt, hIn, rfl⟩
    exact upcomingFrom_quiet tt hIn
  have hSurplus : g.view.surplus =
      weight c.filter.delayed - debt c.filter.offsideStack := by
    rw [← hTracks.view]
    unfold View.surplus Abs.view
    dsimp only
    rw [hTracks.sim.pending, hTracks.sim.stack, weight_append,
      hUpcoming, Int.add_zero]
  refine ⟨?_, ?_, ?_⟩
  · rw [hSurplus, weight_eq_counts, debt_eq_count] at hSum
    push_cast
    omega
  · intro hPhase
    rcases hValid.finished (hTracks.phase.symm.trans hPhase) with
      ⟨hPending, hStack, -⟩
    have hZero : g.view.surplus = 0 := by
      unfold View.surplus
      rw [hPending, hStack]
      rfl
    omega
  · intro pre hPrefix
    rcases hPrefix with ⟨post, hSplit⟩
    rw [hTracks.emitted] at hSplit
    rcases List.filterMap_eq_append_iff.1 hSplit.symm with
      ⟨left, right, hLeft, hPre, -⟩
    have hPositive := hBalanced.prefixes left ⟨right, hLeft.symm⟩
    rw [outWeight_eq_counts, hPre] at hPositive
    omega

/- The complete run over `let x=1`. -/
theorem blocks_balance_let :
    ∃ c : Config,
      filterMachine.Reaches
        (.initial [108, 101, 116, 32, 120, 61, 49] .V8_0
          [⟨.ok .Let, ⟨0, 3⟩⟩, ⟨.ok (.Ident ['x']), ⟨4, 5⟩⟩,
            ⟨.ok .Equals, ⟨5, 6⟩⟩, ⟨.ok (.Int ['1']), ⟨6, 7⟩⟩]) c ∧
        c.phase = .Finished ∧
        c.emitted.countP (FilteredItem.isVirtual .BlockBegin) = 1 ∧
        c.emitted.countP (FilteredItem.isVirtual .BlockBegin) =
          c.emitted.countP (FilteredItem.isVirtual .BlockEnd) := by
  cases hRun : filterMachine.runFor 20
      (.initial [108, 101, 116, 32, 120, 61, 49] .V8_0
        [⟨.ok .Let, ⟨0, 3⟩⟩, ⟨.ok (.Ident ['x']), ⟨4, 5⟩⟩,
          ⟨.ok .Equals, ⟨5, 6⟩⟩, ⟨.ok (.Int ['1']), ⟨6, 7⟩⟩]) with
  | error e =>
      cases hRun
  | ok c =>
      have hReach := Machine.reaches_of_runFor hRun
      have hPhase : c.phase = .Finished := by
        cases hRun
        rfl
      have hBalance := blocks_balance _ _ _ c hReach
      refine ⟨c, hReach, hPhase, ?_, hBalance.2.1 hPhase⟩
      cases hRun
      rfl

end LexFilter

end Borzoi
