import Borzoi.LexFilter.Runs

/-
  The filter terminates.

  Every move spends some of the cost of the pending tokens and the
  offside stack, but for two: a block's first token clears the flag
  of the block, and a separator sets it again.  Both need the block
  rule, which the first one disables.

  Main declarations:
    * `queueCost`
    * `View.measure`
    * `Act.measure`
    * `Stage.Steps.measure`
    * `filter_terminates`
-/

namespace Borzoi

namespace LexFilter

open Lexer
open Program

/- A token costs more than the pieces it may be cut into. -/
def tokenCost
    (token : Token) :
    Nat :=
  match token with
  | .Op text => 20 * text.length + 20
  | .LQuote | .GreaterRBrack | .RQuoteDot | .RQuoteRawDot
  | .RQuoteBarRBrace | .RQuoteRawBarRBrace | .DotDotHat
  | .IntDotDot _ => 60
  | _ => 10

def TokenContent.cost
    (content : TokenContent) :
    Nat :=
  match content with
  | .Real token => tokenCost token
  | _ => 1

def TokenContent.isOpener
    (content : TokenContent) :
    Bool :=
  content.isAnyOf [.LParen, .LBrack]

/- An application virtual may still go behind the token. -/
def appBonus
    (content : TokenContent)
    (rest : List Delayed) :
    Nat :=
  if content.isIdent && rest.head?.any fun d => d.tup.token.isOpener then
    2
  else
    0

/- The cost of the pending tokens. -/
def queueCost : List Delayed → Nat
  | [] => 0
  | d :: rest =>
      d.tup.token.cost + appBonus d.tup.token rest + queueCost rest

def Context.cost
    (ctxt : Context) :
    Nat :=
  if ctxt.isHead then 4 else 1

/- The cost of a stack. -/
def stackCost
    (stack : List Context) :
    Nat :=
  (stack.map Context.cost).sum

def View.cost
    (v : View) :
    Nat :=
  queueCost v.pending + stackCost v.stack +
    if v.initialized then 0 else 2

/- How often the flag of the block on top can still change. -/
def flips
    (useBlockRule : Bool)
    (stack : List Context) :
    Nat :=
  match stack with
  | .SeqBlock first _ _ :: _ =>
      if useBlockRule then (if first then 1 else 2) else 0
  | _ => 0

def View.measure
    (useBlockRule : Bool)
    (v : View) :
    Nat :=
  3 * v.cost + flips useBlockRule v.stack

section Costs

variable {content : TokenContent} {rest : List Delayed} {stack : List Context}
variable {ctxt : Context}

theorem flips_le
    (useBlockRule : Bool)
    (stack : List Context) :
    flips useBlockRule stack ≤ 2 := by
  unfold flips
  split
  · split
    · split <;> omega
    · omega
  · omega

theorem TokenContent.one_le_cost
    (content : TokenContent) :
    1 ≤ content.cost := by
  unfold TokenContent.cost
  split
  · unfold tokenCost
    split <;> omega
  · exact Nat.le_refl 1

theorem TokenContent.ten_le_cost
    (hReal : content.isReal = true) :
    10 ≤ content.cost := by
  cases content with
  | Real token =>
      simp only [TokenContent.cost, tokenCost]
      split <;> omega
  | _ =>
      cases hReal

theorem cost_cons
    (d : Delayed)
    (rest : List Delayed) :
    queueCost (d :: rest) =
      d.tup.token.cost + appBonus d.tup.token rest + queueCost rest :=
  rfl

theorem appBonus_of_not
    (hIdent : content.isIdent = false) :
    appBonus content rest = 0 := by
  rw [appBonus, hIdent]
  rfl

theorem appBonus_le
    (content : TokenContent)
    (rest : List Delayed) :
    appBonus content rest ≤ 2 := by
  unfold appBonus
  split <;> omega

/- Only an opener next to an identifier takes an application. -/
theorem appBonus_cons_of_not
    {d : Delayed}
    (hOpener : d.tup.token.isOpener = false) :
    appBonus content (d :: rest) = 0 := by
  unfold appBonus
  rw [List.head?_cons, Option.any_some, hOpener, Bool.and_false]
  rfl

@[simp] theorem stackCost_cons
    (ctxt : Context)
    (stack : List Context) :
    stackCost (ctxt :: stack) = ctxt.cost + stackCost stack := by
  rw [stackCost, List.map_cons, List.sum_cons]
  rfl

theorem stackCost_append
    (left right : List Context) :
    stackCost (left ++ right) = stackCost left + stackCost right := by
  rw [stackCost, List.map_append, List.sum_append]
  rfl

theorem stackCost_tail
    (hHead : stack.head? = some ctxt) :
    stackCost stack = ctxt.cost + stackCost stack.tail := by
  cases stack with
  | nil =>
      cases hHead
  | cons top rest =>
      cases hHead
      exact stackCost_cons _ rest

theorem Context.cost_of_not
    (hHead : ctxt.isHead = false) :
    ctxt.cost = 1 := by
  rw [Context.cost, hHead]
  rfl

theorem Context.cost_of_isHead
    (hHead : ctxt.isHead = true) :
    ctxt.cost = 4 := by
  rw [Context.cost, hHead]
  rfl

theorem Context.one_le_cost
    (ctxt : Context) :
    1 ≤ ctxt.cost := by
  unfold Context.cost
  split <;> omega

theorem Context.cost_le
    (ctxt : Context) :
    ctxt.cost ≤ 4 := by
  unfold Context.cost
  split <;> omega

end Costs

/- The cost of the pieces of a cut. -/
def piecesCost
    (pieces : List TokenTup) :
    Nat :=
  (pieces.map fun tt => tt.token.cost).sum

/- A piece of a cut: neither an identifier nor an opener. -/
def Inert
    (tt : TokenTup) :
    Prop :=
  tt.token.isIdent = false ∧ tt.token.isOpener = false

section Cuts

variable {res : Bool} {tt : TokenTup} {pieces : List TokenTup}
variable {rest pending pending' : List Delayed}

/- Inert tokens cost what they cost alone. -/
theorem cost_inert
    (hInert : ∀ piece ∈ pieces, Inert piece) :
    queueCost (pieces.map fresh ++ rest) =
      piecesCost pieces + queueCost rest := by
  induction pieces with
  | nil =>
      exact (Nat.zero_add _).symm
  | cons piece pieces ih =>
      have hHere : (fresh piece).tup.token.isIdent = false :=
        (hInert piece List.mem_cons_self).1
      have hRest := ih fun p hMem => hInert p (List.mem_cons_of_mem _ hMem)
      rw [List.map_cons, List.cons_append, cost_cons, hRest,
        appBonus_of_not hHere]
      simp only [piecesCost, fresh, List.map_cons, List.sum_cons]
      omega

theorem appBonus_inert
    {content : TokenContent}
    (hInert : ∀ piece ∈ pieces, Inert piece) :
    appBonus content (pieces.map fresh ++ rest) ≤
      if pieces = [] then 2 else 0 := by
  cases pieces with
  | nil =>
      exact appBonus_le _ _
  | cons piece pieces =>
      rw [List.map_cons, List.cons_append, appBonus_cons_of_not
        (hInert piece List.mem_cons_self).2]
      exact Nat.zero_le _

/- The tail of a closing operator costs no more than its text. -/
theorem typarsCloseTail_cost
    {after : List Char}
    {tail : Token}
    (hTail : typarsCloseTail after = some (some tail)) :
    tokenCost tail ≤ 20 * after.length + 20 ∧
      (TokenContent.Real tail).isIdent = false ∧
      (TokenContent.Real tail).isOpener = false := by
  unfold typarsCloseTail at hTail
  split at hTail
  case h_15 =>
    split at hTail
    · cases hTail
      simp [tokenCost, TokenContent.isIdent, TokenContent.isOpener,
        TokenContent.isAnyOf]
    · cases hTail
  all_goals
    cases hTail <;>
      simp [tokenCost, TokenContent.isIdent, TokenContent.isOpener,
        TokenContent.isAnyOf]

/- The `>`s and the tail of a closing operator. -/
theorem typarsCloseOpSplit_cost
    {text : List Char}
    {count : Nat}
    {tail : Option Token}
    (hSplit : typarsCloseOpSplit text = some ⟨count, tail⟩) :
    count ≤ text.length ∧
      ∀ token, tail = some token →
        tokenCost token ≤ 20 * (text.length - count) + 20 ∧
          (TokenContent.Real token).isIdent = false ∧
          (TokenContent.Real token).isOpener = false := by
  rcases typarsCloseOpSplit_tail hSplit with ⟨-, hCount, hTail⟩
  refine ⟨hCount, ?_⟩
  rintro token rfl
  have hCost := typarsCloseTail_cost hTail
  rwa [List.length_drop] at hCost

theorem piecesCost_append
    (left right : List TokenTup) :
    piecesCost (left ++ right) = piecesCost left + piecesCost right := by
  rw [piecesCost, List.map_append, List.sum_append]
  rfl

theorem piecesCost_greaters
    (count : Nat) :
    piecesCost (greaters tt res count) = 10 * count := by
  unfold piecesCost greaters
  rw [List.map_map]
  have hTen : ((fun tt : TokenTup => tt.token.cost) ∘
      FilterM.greaterTup tt res) = fun _ => 10 := by
    funext i
    rfl
  rw [hTen, List.map_const', List.length_range]
  simp [Nat.mul_comm]

theorem inert_greaters
    {count : Nat} :
    ∀ piece ∈ greaters tt res count, Inert piece := by
  intro piece hMem
  rcases List.mem_map.1 hMem with ⟨i, -, rfl⟩
  exact ⟨rfl, rfl⟩

theorem PairCut.spends
    {token head tail : Token}
    (hPair : PairCut res token head tail) :
    tokenCost head + tokenCost tail ≤ tokenCost token := by
  cases hPair <;> cases res <;> decide

/- The pieces of a cut cost no more than the token. -/
theorem Cut.spends
    (hCut : Cut res tt pieces) :
    pieces = [tt] ∨ (∀ piece ∈ pieces, Inert piece) ∧
      piecesCost pieces + (if pieces = [] then 2 else 0) ≤
        tt.token.cost := by
  cases hCut with
  | keep =>
      exact .inl rfl
  | @pair token head tail hToken hPair hCol =>
      refine .inr ⟨?_, ?_⟩
      · intro piece hMem
        simp only [List.mem_cons, List.not_mem_nil, or_false] at hMem
        rcases hMem with rfl | rfl <;> cases hPair <;> exact ⟨rfl, rfl⟩
      · have hCost := hPair.spends
        have hPieces : piecesCost [pairHead tt head, pairTail tt tail] =
            tokenCost head + tokenCost tail := by
          simp [piecesCost, pairHead, pairTail, TokenContent.cost]
        rw [hToken, hPieces, if_neg (List.cons_ne_nil _ _)]
        exact hCost
  | greater hToken =>
      refine .inr ⟨?_, ?_⟩
      · intro piece hMem
        rw [List.mem_singleton.1 hMem]
        exact ⟨rfl, rfl⟩
      · rw [hToken]
        exact Nat.le_refl 10
  | @close text count hToken hSplit =>
      refine .inr ⟨inert_greaters, ?_⟩
      have hCount := (typarsCloseOpSplit_cost hSplit).1
      rw [hToken, piecesCost_greaters]
      simp only [TokenContent.cost, tokenCost]
      split <;> omega
  | @closeTail text count tail hToken hSplit =>
      rcases typarsCloseOpSplit_cost hSplit with ⟨hCount, hTail⟩
      rcases hTail tail rfl with ⟨hCost, hIdent, hOpener⟩
      refine .inr ⟨?_, ?_⟩
      · intro piece hMem
        rcases List.mem_append.1 hMem with hMem | hMem
        · exact inert_greaters piece hMem
        · rw [List.mem_singleton.1 hMem]
          exact ⟨hIdent, hOpener⟩
      · rw [hToken, piecesCost_append, piecesCost_greaters]
        have hLast : piecesCost [closePlain tt count tail] =
            tokenCost tail := by
          simp [piecesCost, closePlain, TokenContent.cost]
        have hOp : (TokenContent.Real (.Op text)).cost =
            20 * text.length + 20 := rfl
        rw [hLast, hOp, if_neg (by simp)]
        omega

/- A scan costs no more than the virtual it may insert. -/
theorem Recut.spends
    (hRecut : Recut res pending pending')
    (content : TokenContent) :
    appBonus content pending' + queueCost pending' ≤
      appBonus content pending + queueCost pending +
        (if res = true then 1 else 0) := by
  have hEofBonus : ∀ ds, appBonus .Eof ds = 0 :=
    fun ds => appBonus_of_not rfl
  induction hRecut generalizing content with
  | refl pending =>
      omega
  | @cut tt mark pieces pending pending' hCut hRest ih =>
      rcases hCut.spends with rfl | ⟨hInert, hSmaller⟩
      · have hHere := ih tt.token
        have hSame : appBonus content ([tt].map fresh ++ pending') =
            appBonus content (⟨tt, mark⟩ :: pending) := rfl
        rw [hSame, List.map_singleton, List.singleton_append,
          cost_cons, cost_cons]
        simp only [fresh]
        omega
      · have hBonus : appBonus content (pieces.map fresh ++ pending') ≤
            if pieces = [] then 2 else 0 := appBonus_inert hInert
        have hTail := ih .Eof
        rw [hEofBonus, hEofBonus] at hTail
        rw [cost_inert hInert, cost_cons]
        dsimp only
        omega
  | @fuse tt next mark mark' text count pending pending' hFused hRest
      ih =>
      have hInert : ∀ piece ∈ greaters tt res count ++
          [closeFused tt next count], Inert piece := by
        intro piece hMem
        rcases List.mem_append.1 hMem with hMem | hMem
        · exact inert_greaters piece hMem
        · rw [List.mem_singleton.1 hMem]
          unfold closeFused fusedCloser
          split <;> exact ⟨rfl, rfl⟩
      have hBonus : appBonus content ((greaters tt res count ++
          [closeFused tt next count]).map fresh ++ pending') ≤
            if greaters tt res count ++ [closeFused tt next count] =
              [] then 2 else 0 := appBonus_inert hInert
      rw [if_neg (by simp)] at hBonus
      have hTail := ih .Eof
      rw [hEofBonus, hEofBonus] at hTail
      have hCount := (typarsCloseOpSplit_cost hFused.split).1
      have hLast : piecesCost [closeFused tt next count] = 10 := by
        unfold closeFused fusedCloser piecesCost
        split <;> rfl
      have hNext := next.token.one_le_cost
      rw [cost_inert hInert, piecesCost_append, piecesCost_greaters,
        hLast, cost_cons, cost_cons]
      simp only [hFused.token, TokenContent.cost, tokenCost]
      omega
  | @app d pending hRes hParen =>
      have hVirtual : appBonus content
          (fresh (d.tup.asVirtual .HighPrecedenceParenApp) ::
            d :: pending) = 0 := appBonus_cons_of_not rfl
      have hNone : appBonus (fresh (d.tup.asVirtual
          .HighPrecedenceParenApp)).tup.token (d :: pending) = 0 :=
        appBonus_of_not rfl
      rw [hVirtual, cost_cons, hNone, if_pos hRes]
      have hOne : (fresh (d.tup.asVirtual
          .HighPrecedenceParenApp)).tup.token.cost = 1 := rfl
      rw [hOne]
      omega

end Cuts

------------------------------------------------------------
-- Moves
------------------------------------------------------------

/- The block rule after an iteration. -/
def Fetched.rule
    (fetched : Fetched) :
    Bool :=
  match fetched with
  | .Again useBlockRule => useBlockRule
  | .Yield _ | .Exhausted => true

section Moves

variable {useBlockRule : Bool} {tt : TokenTup} {v v' : View} {fetched : Fetched}

/- The virtual of a block costs one at most. -/
theorem cost_blockBegins
    {anchor : TokenTup}
    {addBlockEnd : AddBlockEnd}
    {rest : List Delayed} :
    queueCost ((blockBegins addBlockEnd anchor).map fresh ++ rest) ≤
      1 + queueCost rest := by
  cases addBlockEnd with
  | Yes =>
      have hNone : appBonus (fresh (anchor.asVirtual
          .BlockBegin)).tup.token rest = 0 := appBonus_of_not rfl
      have hCost : queueCost (fresh (anchor.asVirtual .BlockBegin) ::
          rest) = 1 + queueCost rest := by
        rw [cost_cons, hNone]
        rfl
      exact Nat.le_of_eq hCost
  | No =>
      exact Nat.le_add_left _ _
  | OneSided =>
      exact Nat.le_add_left _ _

/- A change of the stack costs less than a real token. -/
theorem Shape.spends
    {stack stack' : List Context}
    {queued : List TokenTup}
    {depth depth' : Nat}
    {rest : List Delayed}
    (hShape : Shape tt stack depth stack' queued depth') :
    queueCost (queued.map fresh ++ rest) + stackCost stack' ≤
      queueCost rest + stackCost stack + 4 := by
  have hBlock : ∀ first pos addBlockEnd,
      (Context.SeqBlock first pos addBlockEnd).cost = 1 :=
    fun _ _ _ => rfl
  have hParen : ∀ pos opener, (Context.Paren pos opener).cost = 1 :=
    fun _ _ => rfl
  -- a virtual or dummy costs one
  have hOne : ∀ q : TokenTup, q.token.isReal = false →
      queueCost ([q].map fresh ++ rest) = 1 + queueCost rest := by
    intro q hReal
    have hNone : appBonus (fresh q).tup.token rest = 0 := by
      refine appBonus_of_not ?_
      cases hToken : q.token with
      | Real token =>
          rw [hToken] at hReal
          cases hReal
      | _ =>
          simp [fresh, hToken, TokenContent.isIdent]
    have hUnit : (fresh q).tup.token.cost = 1 := by
      cases hToken : q.token with
      | Real token =>
          rw [hToken] at hReal
          cases hReal
      | _ =>
          simp [fresh, hToken, TokenContent.cost]
    rw [List.map_singleton, List.singleton_append, cost_cons, hNone,
      hUnit]
  cases hShape with
  | @push ctxt hTop hPlain =>
      have := ctxt.cost_le
      rw [stackCost_cons, List.map_nil, List.nil_append]
      omega
  | pushTwo hTop hPlain hBelow =>
      rw [stackCost_cons, stackCost_cons, List.map_nil, List.nil_append,
        Context.cost_of_not (isHead_of_isPlain hPlain),
        Context.cost_of_not (isHead_of_isPlain hBelow)]
      omega
  | @pushHead ctxt hTop hHead =>
      have := ctxt.cost_le
      rw [stackCost_cons, List.map_nil, List.nil_append]
      omega
  | @replace old ctxt hOld hOldPlain hPlain =>
      have := ctxt.cost_le
      rw [stackCost_tail hOld, stackCost_cons, List.map_nil,
        List.nil_append]
      omega
  | @replaceHead old ctxt hOld hOldHead hHead =>
      have := ctxt.cost_le
      rw [stackCost_tail hOld, stackCost_cons, List.map_nil,
        List.nil_append]
      omega
  | @block first addBlockEnd anchor hTop =>
      have hBegins : queueCost ((blockBegins addBlockEnd anchor).map
          fresh ++ rest) ≤ 1 + queueCost rest := cost_blockBegins
      rw [stackCost_cons, hBlock]
      omega
  | @pushBlock ctxt first addBlockEnd anchor hTop hPlain =>
      have hBegins : queueCost ((blockBegins addBlockEnd anchor).map
          fresh ++ rest) ≤ 1 + queueCost rest := cost_blockBegins
      rw [stackCost_cons, stackCost_cons, hBlock,
        Context.cost_of_not (isHead_of_isPlain hPlain)]
      omega
  | @replaceBlock old ctxt first addBlockEnd anchor hOld hOldKind
      hPlain =>
      have hBegins : queueCost ((blockBegins addBlockEnd anchor).map
          fresh ++ rest) ≤ 1 + queueCost rest := cost_blockBegins
      rw [stackCost_tail hOld, stackCost_cons, stackCost_cons, hBlock,
        Context.cost_of_not (isHead_of_isPlain hPlain)]
      omega
  | @paren parenPos opener first addBlockEnd anchor hTop =>
      have hBegins : queueCost ((blockBegins addBlockEnd anchor).map
          fresh ++ rest) ≤ 1 + queueCost rest := cost_blockBegins
      rw [stackCost_cons, stackCost_cons, hBlock, hParen]
      omega
  | @reparen oldPos parenPos oldOpener opener first addBlockEnd anchor
      hOld =>
      have hBegins : queueCost ((blockBegins addBlockEnd anchor).map
          fresh ++ rest) ≤ 1 + queueCost rest := cost_blockBegins
      rw [stackCost_tail hOld, stackCost_cons, stackCost_cons, hBlock,
        hParen]
      omega
  | closeFill hOld =>
      rw [stackCost_tail hOld, List.map_nil, List.nil_append]
      omega
  | closeParen hOld hInner =>
      rw [stackCost_tail hOld, hOne _ rfl]
      omega
  | balance hOld hOldPlain hInner =>
      rw [stackCost_tail hOld, hOne _ rfl]
      omega
  | done hOld =>
      rw [stackCost_tail hOld, hOne _ rfl]
      omega

/- The pieces of a glued token cost less than the token. -/
theorem Glued.spends
    {first second : TokenTup}
    (hGlued : Glued tt first second) :
    (Inert first ∧ Inert second) ∧
      first.token.cost + second.token.cost < tt.token.cost := by
  have hPlain : (10 + 10 : Nat) < 60 := by decide
  have hHat : (10 + (20 * 1 + 20) : Nat) < 60 := by decide
  cases hGlued with
  | quoteDot hToken hKind hByte hCol =>
      rw [hToken]
      rcases hKind with ⟨rfl, rfl⟩ | ⟨rfl, rfl⟩ <;>
        exact ⟨⟨⟨rfl, rfl⟩, rfl, rfl⟩, hPlain⟩
  | quoteBar hToken hKind hByte hCol =>
      rw [hToken]
      rcases hKind with ⟨rfl, rfl⟩ | ⟨rfl, rfl⟩ <;>
        exact ⟨⟨⟨rfl, rfl⟩, rfl, rfl⟩, hPlain⟩
  | intDotDot hToken hByte hCol =>
      rw [hToken]
      exact ⟨⟨⟨rfl, rfl⟩, rfl, rfl⟩, hPlain⟩
  | dotDotHat hToken hByte hCol =>
      rw [hToken]
      exact ⟨⟨⟨rfl, rfl⟩, rfl, rfl⟩, hHat⟩

/- Virtuals in front cost one each. -/
theorem cost_virtuals
    {front rest : List Delayed}
    (hFront : ∀ d ∈ front, ∃ virt, d.tup.token = .Virtual virt) :
    queueCost (front ++ rest) = front.length + queueCost rest := by
  induction front with
  | nil =>
      exact (Nat.zero_add _).symm
  | cons d front ih =>
      rcases hFront d List.mem_cons_self with ⟨virt, hToken⟩
      have hRest := ih fun e hMem =>
        hFront e (List.mem_cons_of_mem _ hMem)
      have hNone : appBonus d.tup.token (front ++ rest) = 0 := by
        refine appBonus_of_not ?_
        rw [hToken]
        rfl
      rw [List.cons_append, cost_cons, hNone, hRest, hToken,
        List.length_cons]
      simp only [TokenContent.cost]
      omega

theorem length_le_stackCost
    (stack : List Context) :
    stack.length ≤ stackCost stack := by
  induction stack with
  | nil =>
      exact Nat.le_refl 0
  | cons ctxt stack ih =>
      have hOne := ctxt.one_le_cost
      rw [stackCost_cons, List.length_cons]
      omega

/- A cascade queues no more virtuals than it pops contexts. -/
theorem cost_cascade
    {above : List Context}
    {rest : List Delayed} :
    queueCost (cascadeVirtuals tt above ++ rest) ≤
      stackCost above + queueCost rest := by
  have hFront : ∀ d ∈ cascadeVirtuals tt above,
      ∃ virt, d.tup.token = .Virtual virt := by
    intro d hMem
    rw [cascadeVirtuals, List.mem_reverse] at hMem
    rcases List.mem_map.1 hMem with ⟨virt, -, rfl⟩
    exact ⟨virt, rfl⟩
  have hLength : (cascadeVirtuals tt above).length ≤ above.length := by
    rw [cascadeVirtuals, List.length_reverse, List.length_map]
    exact List.length_filterMap_le _ _
  have hStack := length_le_stackCost above
  rw [cost_virtuals hFront]
  omega

/- The cost of a view with the token `tt` in front. -/
def View.costWith
    (tt : TokenTup)
    (v : View) :
    Nat :=
  tt.token.cost + appBonus tt.token v.pending + v.cost

/- A move that spends something decreases the measure. -/
theorem measure_of_spends
    (hSpends : v'.cost < v.costWith tt) :
    v'.measure fetched.rule <
      3 * v.costWith tt + flips useBlockRule v.stack := by
  have hFlips := flips_le fetched.rule v'.stack
  unfold View.measure
  omega

/- Putting the token back costs what it cost before. -/
theorem cost_requeue
    (tt : TokenTup)
    (mark : Bool)
    (rest : List Delayed) :
    queueCost (⟨tt, mark⟩ :: rest) =
      tt.token.cost + appBonus tt.token rest + queueCost rest :=
  rfl

theorem cost_fresh
    (tt : TokenTup)
    (rest : List Delayed) :
    queueCost (fresh tt :: rest) =
      tt.token.cost + appBonus tt.token rest + queueCost rest :=
  rfl

/- Every move decreases the measure. -/
theorem Act.measure
    (hAct : Act useBlockRule tt v fetched v') :
    v'.measure fetched.rule <
      3 * v.costWith tt + flips useBlockRule v.stack := by
  have hOne := tt.token.one_le_cost
  -- consuming a token spends it
  have hConsume : v.cost < v.costWith tt := by
    unfold View.costWith
    omega
  -- popping a context spends it
  have hPop : ∀ {ctxt : Context}, v.stack.head? = some ctxt →
      ({ v with
        pending := fresh tt :: v.pending
        stack := v.stack.tail } : View).cost < v.costWith tt := by
    intro ctxt hHead
    have hCtxt := ctxt.one_le_cost
    unfold View.costWith View.cost
    dsimp only
    rw [stackCost_tail hHead, cost_fresh]
    omega
  cases hAct with
  | @cut first second hGlued =>
      refine measure_of_spends ?_
      rcases hGlued.spends with ⟨⟨hFirst, hSecond⟩, hLess⟩
      unfold View.costWith View.cost
      dsimp only
      rw [cost_fresh, cost_fresh, appBonus_of_not hFirst.1,
        appBonus_of_not hSecond.1]
      omega
  | @app next rest virt hIdent hNext hOpen hVirt =>
      refine measure_of_spends ?_
      have hBonus : appBonus tt.token v.pending = 2 := by
        unfold appBonus
        rw [hIdent, hNext, List.head?_cons, Option.any_some]
        exact if_pos hOpen
      have hAfter : appBonus tt.token
          (fresh (next.tup.asVirtual virt) :: v.pending) = 0 :=
        appBonus_cons_of_not rfl
      have hNone : appBonus (next.tup.asVirtual virt).token
          v.pending = 0 := appBonus_of_not rfl
      have hUnit : (next.tup.asVirtual virt).token.cost = 1 := rfl
      unfold View.costWith View.cost
      dsimp only
      rw [cost_fresh, hAfter, cost_fresh, hNone, hUnit, hBonus]
      omega
  | force hHead hForce =>
      exact measure_of_spends (hPop hHead)
  | pop hHead hClosing hOffside =>
      exact measure_of_spends (hPop hHead)
  | endHead hHead hKind hOut =>
      exact measure_of_spends (hPop hHead)
  | reset hSemi hEmpty =>
      refine measure_of_spends ?_
      have hTen := TokenContent.ten_le_cost
        (TokenContent.isReal_of_eq hSemi)
      unfold View.costWith View.cost
      dsimp only
      rw [if_neg Bool.noConfusion]
      omega
  | @flip pos addBlockEnd hRule hHead =>
      have hCost : ({ v with
          pending := fresh tt :: v.pending
          stack := .SeqBlock false pos addBlockEnd ::
            v.stack.tail } : View).cost = v.costWith tt := by
        unfold View.costWith View.cost
        dsimp only
        rw [stackCost_tail hHead, stackCost_cons, cost_fresh]
        have hSame : (Context.SeqBlock false pos addBlockEnd).cost =
            (Context.SeqBlock true pos addBlockEnd).cost := rfl
        rw [hSame]
        omega
      have hBefore : flips useBlockRule v.stack = 1 := by
        cases hStack : v.stack with
        | nil =>
            rw [hStack] at hHead
            cases hHead
        | cons top rest =>
            rw [hStack] at hHead
            cases hHead
            rw [hRule]
            rfl
      unfold View.measure
      rw [hCost, hBefore]
      exact Nat.lt_succ_self _
  | @sep pos addBlockEnd out hRule hHead hOut =>
      have hCost : ({ v with
          pending := fresh tt :: v.pending
          stack := .SeqBlock true pos addBlockEnd ::
            v.stack.tail } : View).cost = v.costWith tt := by
        unfold View.costWith View.cost
        dsimp only
        rw [stackCost_tail hHead, stackCost_cons, cost_fresh]
        have hSame : (Context.SeqBlock true pos addBlockEnd).cost =
            (Context.SeqBlock false pos addBlockEnd).cost := rfl
        rw [hSame]
        omega
      have hBefore : flips useBlockRule v.stack = 2 := by
        cases hStack : v.stack with
        | nil =>
            rw [hStack] at hHead
            cases hHead
        | cons top rest =>
            rw [hStack] at hHead
            cases hHead
            rw [hRule]
            rfl
      unfold View.measure
      rw [hCost, hBefore]
      exact Nat.lt_succ_self _
  | @openBody head body first hHead hKind hBody =>
      refine measure_of_spends ?_
      have hNone : appBonus (tt.asVirtual .BlockBegin).token
          (fresh tt :: v.pending) = 0 := appBonus_of_not rfl
      have hUnit : (tt.asVirtual .BlockBegin).token.cost = 1 := rfl
      have hBlock : (Context.SeqBlock first tt.start .Yes).cost = 1 :=
        rfl
      unfold View.costWith View.cost
      dsimp only
      rw [stackCost_tail hHead, Context.cost_of_isHead hKind,
        stackCost_cons, stackCost_cons, hBlock,
        Context.cost_of_not (isHead_of_isPlain hBody), cost_fresh,
        hNone, hUnit, cost_fresh]
      omega
  | settle hDummy hEof hOut =>
      exact measure_of_spends hConsume
  | drop hDummy =>
      exact measure_of_spends hConsume
  | @shift stack queued depth fetched hReal hShape hOut =>
      refine measure_of_spends ?_
      have hTen := TokenContent.ten_le_cost hReal
      have hCost : queueCost (queued.map fresh ++ v.pending) +
          stackCost stack ≤
            queueCost v.pending + stackCost v.stack + 4 :=
        hShape.spends
      unfold View.costWith View.cost
      dsimp only
      omega
  | @elif next rest hElse hTop hNext hIf =>
      refine measure_of_spends ?_
      have hTen := TokenContent.ten_le_cost
        (TokenContent.isReal_of_eq hElse)
      have hBranch : (Context.If tt.start).cost = 1 := rfl
      unfold View.costWith View.cost
      dsimp only
      rw [hNext, cost_cons, stackCost_cons, hBranch]
      omega
  | @cascade above below pos hToken hPops hStack hAbove =>
      refine measure_of_spends ?_
      have hQueue : queueCost (cascadeVirtuals tt above ++
          ⟨tt, true⟩ :: v.pending) ≤ stackCost above +
            queueCost (⟨tt, true⟩ :: v.pending) := cost_cascade
      have hBody : (Context.MemberBody pos).cost = 1 := rfl
      rw [cost_requeue] at hQueue
      unfold View.costWith View.cost
      dsimp only
      rw [hStack, stackCost_append, stackCost_cons, hBody]
      omega
  | @typeApp less flag rest hTrigger hRecut hLess =>
      refine measure_of_spends ?_
      have hTen := TokenContent.ten_le_cost
        (isReal_of_isTyparApplicationTrigger hTrigger)
      have hScan := hRecut.spends .Eof
      have hEofBonus : ∀ ds, appBonus .Eof ds = 0 :=
        fun ds => appBonus_of_not rfl
      have hOld : less.tup.token.cost = 10 := by
        rw [hLess]
        rfl
      have hNone : appBonus (less.tup.asVirtual
          .HighPrecedenceTyApp).token
          (fresh (less.tup.withToken (.Real (.Less true))) :: rest) =
            0 := appBonus_of_not rfl
      have hUnit : (less.tup.asVirtual .HighPrecedenceTyApp).token.cost =
          1 := rfl
      have hNone' : appBonus (less.tup.withToken
          (.Real (.Less true))).token rest = 0 := appBonus_of_not rfl
      have hNew : (less.tup.withToken (.Real (.Less true))).token.cost =
          10 := rfl
      rw [hEofBonus, hEofBonus, cost_cons, hOld, if_pos rfl] at hScan
      unfold View.costWith View.cost
      dsimp only
      rw [cost_fresh, hNone, hUnit, cost_fresh, hNone', hNew]
      omega

/- Every iteration decreases the measure. -/
theorem Iterates.measure
    (hMore : v.pending ≠ [])
    (hMove : Iterates useBlockRule v fetched v') :
    v'.measure fetched.rule < v.measure useBlockRule := by
  cases hMove with
  | exhausted hPending =>
      exact absurd hPending hMore
  | @moved d rest fetched v' hPending hMove =>
      have hTaken : v.cost =
          View.costWith d.tup { v with pending := rest } := by
        unfold View.costWith View.cost
        rw [hPending, cost_cons]
        dsimp only
        omega
      cases hMove with
      | passThrough hCount =>
          have hOne := d.tup.token.one_le_cost
          have hFlips := flips_le true v.stack
          unfold View.measure
          rw [hTaken]
          unfold View.costWith View.cost Fetched.rule
          dsimp only
          omega
      | @act ahead v' fetched hIdle hAhead hAct =>
          have hAfter := hAct.measure
          have hScan := hAhead.pending.spends d.tup.token
          rw [if_neg Bool.noConfusion] at hScan
          have hSame : ahead.costWith d.tup ≤ v.cost := by
            rw [hTaken]
            unfold View.costWith View.cost
            rw [hAhead.stack, hAhead.initialized]
            dsimp only at hScan ⊢
            omega
          rw [hAhead.stack] at hAfter
          have hBefore : v.measure useBlockRule =
              3 * v.cost + flips useBlockRule v.stack := rfl
          rw [hBefore]
          dsimp only at hAfter
          omega

end Moves

/- The measure of a stage.  A new call starts with the block rule. -/
def stageMeasure
    (phase : Phase)
    (v : View) :
    Nat :=
  match phase with
  | .Next => 2 * v.measure true + 1
  | .Fetching useBlockRule => 2 * v.measure useBlockRule
  | .Finished => 0

/- Every step decreases the measure. -/
theorem Stage.Steps.measure
    {g g' : Stage}
    (hValid : g.Valid)
    (hStep : g.Steps g') :
    stageMeasure g'.phase g'.view < stageMeasure g.phase g.view := by
  have hPending : g.phase ≠ .Finished → g.view.pending ≠ [] :=
    fun hOpen => (hValid.tidy hOpen).endsInEof.ne_nil
  have hMoves : ∀ {useBlockRule : Bool} {fetched : Fetched} {v : View},
      g.phase = .Fetching useBlockRule →
      Iterates useBlockRule g.view fetched v →
      v.measure fetched.rule < g.view.measure useBlockRule := by
    intro useBlockRule fetched v hPhase hMove
    refine hMove.measure (hPending ?_)
    rw [hPhase]
    exact Phase.noConfusion
  cases hStep with
  | start hPhase hInit =>
      rw [hPhase]
      exact Nat.lt_succ_self _
  | @begin d rest hPhase hInit hFirst =>
      have hFlips := flips_le true (g.view.begin d rest).stack
      have hBlock : (Context.SeqBlock true d.tup.start .No).cost = 1 :=
        rfl
      have hLess : (g.view.begin d rest).cost < g.view.cost := by
        unfold View.cost View.begin
        dsimp only
        rw [hInit, hFirst, stackCost_cons, hBlock, cost_fresh, cost_cons,
          if_pos rfl, if_neg Bool.noConfusion]
        omega
      rw [hPhase]
      unfold stageMeasure View.measure
      dsimp only
      omega
  | beginEmpty hPhase hInit hEmpty =>
      refine absurd hEmpty (hPending ?_)
      rw [hPhase]
      exact Phase.noConfusion
  | again hPhase hMove =>
      have hLess := hMoves hPhase hMove
      rw [hPhase]
      unfold stageMeasure
      dsimp only [Fetched.rule] at hLess ⊢
      omega
  | emit hPhase hMove hMore =>
      have hLess := hMoves hPhase hMove
      rw [hPhase]
      unfold stageMeasure
      dsimp only [Fetched.rule] at hLess ⊢
      omega
  | finish hPhase hMove hEof =>
      have hLess := hMoves hPhase hMove
      rw [hPhase]
      unfold stageMeasure
      dsimp only
      omega
  | exhausted hPhase hMove =>
      have hLess := hMoves hPhase hMove
      rw [hPhase]
      unfold stageMeasure
      dsimp only
      omega

/-
  After enough steps every run has ended.  A run over a stream that
  was not lexed from the source may end in a failed slice or
  subtraction; every other run ends with its result.
-/
theorem filter_terminates
    (source : List UInt8)
    (lang : LanguageVersion)
    (raw : List RawItem) :
    ∃ bound, ∀ fuel, bound ≤ fuel →
      (∃ run, filterCollect fuel source lang raw = .ok (some run)) ∨
        ∃ e, filterCollect fuel source lang raw = .error e ∧
          ¬ WellLexed source raw ∧
          (e = .SourceSlice ∨ e = .SubtractOverflow) := by
  have hLexed : WellLexed source raw →
      linesStartChars source = true ∧ fits source 0 raw = true :=
    WellLexed.lexed
  refine ⟨stageMeasure .Next (Filter.new source lang raw).view + 1, ?_⟩
  intro fuel hFuel
  unfold filterCollect
  cases hRun : filterMachine.runFor fuel (.initial source lang raw) with
  | error e =>
      rcases Machine.reaches_of_runFor_error hRun with
        ⟨c, hReach, hMore, hFail⟩
      have hFault : Fault (WellLexed source raw) e :=
        reaches_fault hLexed hReach hMore hFail
      exact .inr ⟨e, rfl, hFault.1, hFault.2⟩
  | ok c =>
      -- the stage of a configuration decides its measure
      have hStep : ∀ d d' : Config,
          (∃ g t, Tracks (WellLexed source raw) source d g t) →
          filterMachine.done d = false →
          filterMachine.step d = .ok d' →
          (∃ g t, Tracks (WellLexed source raw) source d' g t) ∧
            stageMeasure d'.phase d'.filter.view <
              stageMeasure d.phase d.filter.view := by
        rintro d d' ⟨g, t, hTracks⟩ hMore hNext
        have hAdvance := hTracks.step hMore
        have hNext' : d.step = .ok d' := hNext
        rw [hNext'] at hAdvance
        rcases hAdvance with ⟨g', t', hSteps, hTracks'⟩
        refine ⟨⟨g', t', hTracks'⟩, ?_⟩
        rw [hTracks'.phase, hTracks.phase, ← hTracks'.sim.view,
          ← hTracks.sim.view, hTracks'.view, hTracks.view]
        exact hSteps.measure hTracks.valid
      rcases Tracks.initial hLexed with ⟨t, hInitial⟩
      have hDone := Machine.runFor_done_of_measure hStep
        ⟨_, t, hInitial⟩ hFuel hRun
      have hPhase : c.phase = .Finished := by
        simpa [filterMachine] using hDone
      refine .inl ⟨c.result, ?_⟩
      dsimp only
      rw [if_pos hPhase]

end LexFilter

end Borzoi
