import Borzoi.LexFilter.Stages

/-
  The pending tokens keep their layout.
-/

namespace Borzoi

namespace LexFilter

open Lexer

theorem EndsInEof.cons
    {d : Delayed}
    {rest : List Delayed}
    (hToken : d.tup.token ≠ .Eof) :
    EndsInEof (d :: rest) ↔ EndsInEof rest := by
  rw [EndsInEof, if_neg hToken]

theorem EndsInEof.append
    {front rest : List Delayed}
    (hFront : ∀ d ∈ front, d.tup.token ≠ .Eof) :
    EndsInEof (front ++ rest) ↔ EndsInEof rest := by
  induction front with
  | nil =>
      rfl
  | cons d front ih =>
      rw [List.cons_append, EndsInEof.cons (hFront d List.mem_cons_self)]
      exact ih fun d' hMem => hFront d' (List.mem_cons_of_mem _ hMem)

variable {res useBlockRule : Bool} {ctxt : Context} {d : Delayed}
variable {stack : List Context} {pending pending' : List Delayed}
variable {out tt : TokenTup} {v : View} {virt : Virtual}

theorem EndsInEof.ne_nil
    (hEof : EndsInEof pending) :
    pending ≠ [] := by
  rintro rfl
  exact hEof

/- The pieces of a cut are the token itself or real tokens. -/
theorem Cut.pieces
    {res : Bool}
    {tt : TokenTup}
    {pieces : List TokenTup}
    (hCut : Cut res tt pieces) :
    pieces = [tt] ∨ (∃ token, tt.token = .Real token) ∧
      ∀ piece ∈ pieces, piece.token.isReal = true := by
  cases hCut with
  | keep =>
      exact .inl rfl
  | pair hToken hPair hCol =>
      refine .inr ⟨⟨_, hToken⟩, ?_⟩
      intro piece hMem
      simp only [List.mem_cons, List.not_mem_nil, or_false] at hMem
      rcases hMem with rfl | rfl <;> rfl
  | greater hToken =>
      refine .inr ⟨⟨_, hToken⟩, ?_⟩
      intro piece hMem
      rw [List.mem_singleton.1 hMem]
      rfl
  | close hToken hSplit =>
      refine .inr ⟨⟨_, hToken⟩, ?_⟩
      intro piece hMem
      rcases List.mem_map.1 hMem with ⟨i, -, rfl⟩
      rfl
  | closeTail hToken hSplit =>
      refine .inr ⟨⟨_, hToken⟩, ?_⟩
      intro piece hMem
      rcases List.mem_append.1 hMem with hMem | hMem
      · rcases List.mem_map.1 hMem with ⟨i, -, rfl⟩
        rfl
      · rw [List.mem_singleton.1 hMem]
        rfl

/- The pieces of a fused closer are real tokens. -/
theorem fused_pieces
    {tt next piece : TokenTup}
    {count : Nat}
    (hMem : piece ∈ greaters tt res count ++ [closeFused tt next count]) :
    piece.token.isReal = true := by
  rcases List.mem_append.1 hMem with hMem | hMem
  · rcases List.mem_map.1 hMem with ⟨i, -, rfl⟩
    rfl
  · rw [List.mem_singleton.1 hMem]
    rfl

/- What holds of the pending tokens and of real ones survives a scan. -/
theorem Recut.forall
    {P : Delayed → Prop}
    (hKeep : ∀ d, P d → P (fresh d.tup))
    (hReal : ∀ tt : TokenTup, tt.token.isReal = true → P (fresh tt))
    (hApp : ∀ tt : TokenTup, P (fresh (tt.asVirtual .HighPrecedenceParenApp)))
    (hRecut : Recut res pending pending')
    (hAll : ∀ d ∈ pending, P d) :
    ∀ d ∈ pending', P d := by
  induction hRecut with
  | refl pending =>
      exact hAll
  | cut hCut hRest ih =>
      intro d hMem
      rcases List.mem_append.1 hMem with hPiece | hOld
      · rcases List.mem_map.1 hPiece with ⟨piece, hIn, rfl⟩
        rcases hCut.pieces with rfl | ⟨-, hPieces⟩
        · rw [List.mem_singleton.1 hIn]
          exact hKeep _ (hAll _ List.mem_cons_self)
        · exact hReal piece (hPieces piece hIn)
      · exact ih (fun d' h => hAll d' (List.mem_cons_of_mem _ h)) d hOld
  | fuse hFused hRest ih =>
      intro d hMem
      rcases List.mem_append.1 hMem with hPiece | hOld
      · rcases List.mem_map.1 hPiece with ⟨piece, hIn, rfl⟩
        exact hReal piece (fused_pieces hIn)
      · refine ih (fun d' h => hAll d' ?_) d hOld
        exact List.mem_cons_of_mem _ (List.mem_cons_of_mem _ h)
  | app hRes hParen =>
      intro d hMem
      rcases List.mem_cons.1 hMem with rfl | hOld
      · exact hApp _
      · exact hAll d hOld

/- A scan leaves the end of file in its place. -/
theorem Recut.endsInEof
    (hRecut : Recut res pending pending')
    (hEof : EndsInEof pending) :
    EndsInEof pending' := by
  induction hRecut with
  | refl pending =>
      exact hEof
  | @cut tt mark pieces pending pending' hCut hRest ih =>
      rcases hCut.pieces with rfl | ⟨⟨token, hToken⟩, hPieces⟩
      · rw [EndsInEof] at hEof
        rw [List.map_singleton, List.singleton_append, EndsInEof]
        split at hEof
        · next hLast =>
            have hHere : (fresh tt).tup.token = .Eof := hLast
            rw [hEof] at hRest
            rw [if_pos hHere]
            cases hRest
            rfl
        · next hMore =>
            have hHere : (fresh tt).tup.token ≠ .Eof := hMore
            rw [if_neg hHere]
            exact ih hEof
      · have hNotEof : tt.token ≠ .Eof := by
          rw [hToken]
          exact TokenContent.noConfusion
        refine (EndsInEof.append ?_).2
          (ih ((EndsInEof.cons (d := ⟨tt, mark⟩) hNotEof).1 hEof))
        intro d hMem
        rcases List.mem_map.1 hMem with ⟨piece, hIn, rfl⟩
        exact TokenContent.ne_eof_of_isReal (hPieces piece hIn)
  | @fuse tt next mark mark' text count pending pending' hFused hRest
      ih =>
      have hFirst : tt.token ≠ .Eof := by
        rw [hFused.token]
        exact TokenContent.noConfusion
      have hSecond : next.token ≠ .Eof := by
        rcases hFused.closer with hNext | hNext <;>
          rw [hNext] <;> exact TokenContent.noConfusion
      have hTail := (EndsInEof.cons (d := ⟨tt, mark⟩) hFirst).1 hEof
      refine (EndsInEof.append ?_).2
        (ih ((EndsInEof.cons (d := ⟨next, mark'⟩) hSecond).1 hTail))
      intro d hMem
      rcases List.mem_map.1 hMem with ⟨piece, hIn, rfl⟩
      exact TokenContent.ne_eof_of_isReal (fused_pieces hIn)
  | app hRes hParen =>
      exact (EndsInEof.cons TokenContent.noConfusion).2 hEof

theorem Quiet.keep
    (hQuiet : Quiet d) :
    Quiet (fresh d.tup) :=
  ⟨rfl, hQuiet.notDummy, hQuiet.notBegin, hQuiet.notEnd⟩

theorem Quiet.real
    (hReal : tt.token.isReal = true) :
    Quiet (fresh tt) :=
  ⟨rfl, TokenContent.isDummy_of_isReal hReal,
    TokenContent.ne_virtual_of_isReal hReal,
    TokenContent.ne_virtual_of_isReal hReal⟩

theorem Quiet.virtual
    {tt : TokenTup}
    {virt : Virtual}
    (hBegin : virt ≠ .BlockBegin)
    (hEnd : virt ≠ .BlockEnd) :
    Quiet (fresh (tt.asVirtual virt)) := by
  refine ⟨rfl, rfl, ?_, ?_⟩
  · intro hToken
    exact hBegin (TokenContent.Virtual.inj hToken)
  · intro hToken
    exact hEnd (TokenContent.Virtual.inj hToken)

/- A scan leaves tokens of the stream. -/
theorem Recut.quiet
    (hRecut : Recut res pending pending')
    (hQuiet : ∀ d ∈ pending, Quiet d) :
    ∀ d ∈ pending', Quiet d := by
  refine hRecut.forall (fun _ => Quiet.keep) (fun _ => Quiet.real) ?_
    hQuiet
  intro tt
  exact Quiet.virtual Virtual.noConfusion Virtual.noConfusion

section Heads

variable {stack : List Context}

/- Below a top that is no head there are no heads. -/
theorem HeadsOnTop.none
    (hHeads : HeadsOnTop stack)
    (hTop : topIsHead stack = false) :
    ∀ c ∈ stack, c.isHead = false := by
  cases stack with
  | nil =>
      intro c hMem
      cases hMem
  | cons top rest =>
      intro c hMem
      rcases List.mem_cons.1 hMem with rfl | hRest
      · exact hTop
      · exact hHeads c hRest

theorem topIsHead_of_none
    (hNone : ∀ c ∈ stack, c.isHead = false) :
    topIsHead stack = false := by
  cases stack with
  | nil =>
      rfl
  | cons top rest =>
      exact hNone top List.mem_cons_self

theorem HeadsOnTop.of_none
    (hNone : ∀ c ∈ stack, c.isHead = false) :
    HeadsOnTop stack :=
  fun c hMem => hNone c (List.mem_of_mem_tail hMem)

theorem HeadsOnTop.tail
    (hHeads : HeadsOnTop stack) :
    HeadsOnTop stack.tail :=
  .of_none hHeads

theorem HeadsOnTop.topIsHead_tail
    (hHeads : HeadsOnTop stack) :
    topIsHead stack.tail = false :=
  topIsHead_of_none hHeads

theorem isBlock_of_isHead
    (hHead : ctxt.isHead = true) :
    ctxt.isBlock = false := by
  cases ctxt <;> first | rfl | cases hHead

theorem isHead_of_isPlain
    (hPlain : ctxt.isPlain = true) :
    ctxt.isHead = false := by
  cases ctxt <;> first | rfl | cases hPlain

end Heads

section Layout

variable {v : View} {tt : TokenTup} {rest : List Delayed}

/- A view whose next token is `tt`. -/
theorem Tidy.front
    (hIdle : v.noProcessing = 0)
    (hInit : v.initialized = true)
    (hHeads : HeadsOnTop v.stack)
    (hPending : v.pending = fresh tt :: rest)
    (hUpfront : Upfront v.stack tt rest) :
    Tidy v := by
  refine ⟨hHeads, .inl ⟨hIdle, tt, rest, hPending, hUpfront⟩, ?_⟩
  intro hReset
  rw [hInit] at hReset
  cases hReset

/- A view with nothing in front of the stream. -/
theorem Tidy.stream
    (hIdle : v.noProcessing = 0)
    (hInit : v.initialized = true ∨ v.stack = [])
    (hHeads : HeadsOnTop v.stack)
    (hQuiet : ∀ d ∈ v.pending, Quiet d)
    (hEof : EndsInEof v.pending) :
    Tidy v := by
  refine ⟨hHeads, .inr ⟨[], v.pending, rfl, hIdle.symm, ?_, hQuiet,
    hEof⟩, ?_⟩
  · intro d hMem
    cases hMem
  · intro hReset
    refine ⟨hIdle, hInit.resolve_left ?_, hQuiet⟩
    rw [hReset]
    exact Bool.noConfusion

/- A view after the token `tt` was taken. -/
structure Holding
    (tt : TokenTup)
    (v : View) :
    Prop where
  idle : v.noProcessing = 0
  initialized : v.initialized = true
  heads : HeadsOnTop v.stack
  upfront : Upfront v.stack tt v.pending

/- Looking ahead keeps the layout. -/
theorem Holding.ahead
    {ahead : View}
    (hHolding : Holding tt v)
    (hAhead : Ahead v ahead) :
    Holding tt ahead := by
  have hUp := hHolding.upfront
  refine ⟨hAhead.noProcessing.trans hHolding.idle,
    hAhead.initialized.trans hHolding.initialized, ?_, ?_⟩
  · rw [hAhead.stack]
    exact hHolding.heads
  · rw [hAhead.stack]
    have hCut : Recut false (fresh tt :: v.pending)
        ([tt].map fresh ++ ahead.pending) :=
      .cut .keep hAhead.pending
    exact ⟨hUp.notEnd, hUp.dummy, hUp.opens,
      hAhead.pending.quiet hUp.quiet, hCut.endsInEof hUp.eof⟩

/- Behind a token that is not the end of file, the end is to come. -/
theorem Holding.endsInEof
    (hHolding : Holding tt v)
    (hMore : tt.token ≠ .Eof) :
    EndsInEof v.pending :=
  (EndsInEof.cons (d := fresh tt) hMore).1 hHolding.upfront.eof

/- The token is put back under another stack. -/
theorem Holding.requeue
    (hHolding : Holding tt v)
    (hHeads : HeadsOnTop stack)
    (hTop : topIsHead stack = false)
    (hOpens : tt.token = .Virtual .BlockBegin →
      ∃ first below, stack = .SeqBlock first tt.start .Yes :: below) :
    Tidy { v with pending := fresh tt :: v.pending, stack := stack } := by
  have hUp := hHolding.upfront
  have hFront : Upfront stack tt v.pending := by
    refine ⟨hUp.notEnd, ?_, hOpens, hUp.quiet, hUp.eof⟩
    intro prevEnd inner hDummy
    exact ⟨(hUp.dummy prevEnd inner hDummy).1, hTop⟩
  exact Tidy.front hHolding.idle hHolding.initialized hHeads rfl hFront

/- The token is consumed. -/
theorem Holding.consume
    {depth : Nat}
    (front : List TokenTup)
    (hHolding : Holding tt v)
    (hMore : tt.token ≠ .Eof)
    (hHeads : HeadsOnTop stack)
    (hFront : ∀ q ∈ front, Quiet (fresh q) ∧ q.token ≠ .Eof) :
    Tidy { v with
      pending := front.map fresh ++ v.pending
      stack := stack
      parenDepth := depth } := by
  refine Tidy.stream hHolding.idle (.inl hHolding.initialized) hHeads ?_ ?_
  · intro d hMem
    rcases List.mem_append.1 hMem with hNew | hOld
    · rcases List.mem_map.1 hNew with ⟨q, hIn, rfl⟩
      exact (hFront q hIn).1
    · exact hHolding.upfront.quiet d hOld
  · refine (EndsInEof.append ?_).2 (hHolding.endsInEof hMore)
    intro d hMem
    rcases List.mem_map.1 hMem with ⟨q, hIn, rfl⟩
    exact (hFront q hIn).2

end Layout

/- What an iteration leaves behind. -/
def Outcome
    (fetched : Fetched)
    (v : View) :
    Prop :=
  match fetched with
  | .Again _ => Tidy v
  | .Yield out =>
      out.token.isDummy = false ∧
        if out.token = .Eof then
          v.pending = [] ∧ v.stack = [] ∧ v.noProcessing = 0
        else
          Tidy v
  | .Exhausted => False

theorem Outcome.yield
    (hDummy : out.token.isDummy = false)
    (hMore : out.token ≠ .Eof)
    (hTidy : Tidy v) :
    Outcome (.Yield out) v := by
  refine ⟨hDummy, ?_⟩
  rw [if_neg hMore]
  exact hTidy

theorem Outcome.yieldVirtual
    (hOut : out.token = .Virtual virt)
    (hTidy : Tidy v) :
    Outcome (.Yield out) v := by
  refine .yield ?_ ?_ hTidy
  · rw [hOut]
    rfl
  · rw [hOut]
    exact TokenContent.noConfusion

theorem Outcome.closed
    {closing : Option Virtual}
    (hTidy : Tidy v) :
    Outcome (closed useBlockRule closing tt) v := by
  cases closing with
  | none =>
      exact hTidy
  | some virt =>
      exact .yieldVirtual rfl hTidy

/- The outcome of consuming a real token. -/
theorem Outcome.output
    {fetched : Fetched}
    (hReal : tt.token.isReal = true)
    (hOut : Output useBlockRule tt fetched)
    (hTidy : Tidy v) :
    Outcome fetched v := by
  cases hOut with
  | asIs =>
      exact .yield (TokenContent.isDummy_of_isReal hReal)
        (TokenContent.ne_eof_of_isReal hReal) hTidy
  | virtual hToken hVirt =>
      exact .yieldVirtual rfl hTidy
  | swallow hToken =>
      exact hTidy

------------------------------------------------------------
-- Moves Keep the Layout
------------------------------------------------------------

/- A token in front of the stream, under the stack it stands on. -/
structure Leads
    (stack : List Context)
    (q : TokenTup) :
    Prop where
  notEnd : q.token ≠ .Virtual .BlockEnd
  notEof : q.token ≠ .Eof
  dummy : ∀ prevEnd inner, q.token = .Dummy prevEnd inner →
    inner ∈ dummyTokens ∧ topIsHead stack = false
  opens : q.token = .Virtual .BlockBegin →
    ∃ first below, stack = .SeqBlock first q.start .Yes :: below

/- What a shift queues is one token at most. -/
structure Shifted
    (stack : List Context)
    (queued : List TokenTup) :
    Prop where
  heads : HeadsOnTop stack
  front : queued = [] ∨ ∃ q, queued = [q] ∧ Leads stack q

section Shapes

variable {tt anchor : TokenTup} {stack stack' below : List Context}
variable {queued : List TokenTup} {depth depth' : Nat}

theorem Shifted.nothing
    (hHeads : HeadsOnTop stack) :
    Shifted stack [] :=
  ⟨hHeads, .inl rfl⟩

/- A block above contexts that are no heads. -/
theorem Shifted.block
    {first : Bool}
    {addBlockEnd : AddBlockEnd}
    (hNone : ∀ c ∈ below, c.isHead = false) :
    Shifted (.SeqBlock first anchor.start addBlockEnd :: below)
      (blockBegins addBlockEnd anchor) := by
  refine ⟨hNone, ?_⟩
  cases addBlockEnd with
  | Yes =>
      refine .inr ⟨anchor.asVirtual .BlockBegin, rfl, ?_⟩
      refine ⟨?_, TokenContent.noConfusion, ?_, ?_⟩
      · intro hToken
        cases hToken
      · intro prevEnd inner hToken
        cases hToken
      · intro _
        exact ⟨first, below, rfl⟩
  | No =>
      exact .inl rfl
  | OneSided =>
      exact .inl rfl

theorem Shifted.dummy
    {prevEnd : Nat}
    {inner : Token}
    (hNone : ∀ c ∈ stack, c.isHead = false)
    (hInner : inner ∈ dummyTokens) :
    Shifted stack [tt.withToken (.Dummy prevEnd inner)] := by
  refine ⟨.of_none hNone, .inr ⟨_, rfl, ?_⟩⟩
  refine ⟨TokenContent.noConfusion, TokenContent.noConfusion, ?_, ?_⟩
  · intro prevEnd' inner' hToken
    cases hToken
    exact ⟨hInner, topIsHead_of_none hNone⟩
  · intro hToken
    cases hToken

theorem none_cons
    (hCtxt : ctxt.isHead = false)
    (hNone : ∀ c ∈ stack, c.isHead = false) :
    ∀ c ∈ ctxt :: stack, c.isHead = false := by
  intro c hMem
  rcases List.mem_cons.1 hMem with rfl | hOld
  · exact hCtxt
  · exact hNone c hOld

/- Every change of the stack keeps heads on top. -/
theorem Shape.shifted
    (hHeads : HeadsOnTop stack)
    (hShape : Shape tt stack depth stack' queued depth') :
    Shifted stack' queued := by
  cases hShape with
  | push hTop hPlain =>
      exact .nothing (hHeads.none hTop)
  | pushTwo hTop hPlain hBelow =>
      refine .nothing ?_
      exact none_cons (isHead_of_isPlain hBelow) (hHeads.none hTop)
  | pushHead hTop hHead =>
      exact .nothing (hHeads.none hTop)
  | replace hOld hOldPlain hPlain =>
      exact .nothing hHeads
  | replaceHead hOld hOldHead hHead =>
      exact .nothing hHeads
  | block hTop =>
      exact .block (hHeads.none hTop)
  | pushBlock hTop hPlain =>
      refine .block ?_
      exact none_cons (isHead_of_isPlain hPlain) (hHeads.none hTop)
  | replaceBlock hOld hOldKind hPlain =>
      exact .block (none_cons (isHead_of_isPlain hPlain) hHeads)
  | paren hTop =>
      exact .block (none_cons rfl (hHeads.none hTop))
  | reparen hOld =>
      exact .block (none_cons rfl hHeads)
  | closeFill hOld =>
      exact .nothing hHeads.tail
  | closeParen hOld hInner =>
      exact .dummy hHeads hInner
  | balance hOld hOldPlain hInner =>
      exact .dummy hHeads hInner
  | done hOld =>
      refine ⟨hHeads.tail, .inr ⟨_, rfl, ?_⟩⟩
      refine ⟨?_, TokenContent.noConfusion, ?_, ?_⟩
      · intro hToken
        cases hToken
      · intro prevEnd inner hToken
        cases hToken
      · intro hToken
        cases hToken

end Shapes

section Moves

variable {useBlockRule : Bool} {tt : TokenTup} {v v' : View} {fetched : Fetched}

/- A shift leaves a tidy view. -/
theorem Holding.shift
    {stack : List Context}
    {queued : List TokenTup}
    {depth : Nat}
    (hHolding : Holding tt v)
    (hReal : tt.token.isReal = true)
    (hShifted : Shifted stack queued) :
    Tidy { v with
      pending := queued.map fresh ++ v.pending
      stack := stack
      parenDepth := depth } := by
  have hMore := TokenContent.ne_eof_of_isReal hReal
  rcases hShifted.front with rfl | ⟨q, rfl, hLeads⟩
  · refine hHolding.consume [] hMore hShifted.heads ?_
    intro q hMem
    cases hMem
  · refine Tidy.front hHolding.idle hHolding.initialized hShifted.heads
      rfl ?_
    refine ⟨hLeads.notEnd, hLeads.dummy, hLeads.opens,
      hHolding.upfront.quiet, ?_⟩
    exact (EndsInEof.cons (d := fresh q) hLeads.notEof).2
      (hHolding.endsInEof hMore)

/- The pieces of a glued token are real. -/
theorem Glued.real
    {first second : TokenTup}
    (hGlued : Glued tt first second) :
    tt.token.isReal = true ∧ first.token.isReal = true ∧
      second.token.isReal = true := by
  cases hGlued with
  | quoteDot hToken hKind hByte hCol =>
      exact ⟨TokenContent.isReal_of_eq hToken, rfl, rfl⟩
  | quoteBar hToken hKind hByte hCol =>
      exact ⟨TokenContent.isReal_of_eq hToken, rfl, rfl⟩
  | intDotDot hToken hByte hCol =>
      exact ⟨TokenContent.isReal_of_eq hToken, rfl, rfl⟩
  | dotDotHat hToken hByte hCol =>
      exact ⟨TokenContent.isReal_of_eq hToken, rfl, rfl⟩

variable {rest : List Delayed} {content : TokenContent}

theorem isReal_of_isTyparApplicationTrigger
    (hTrigger : isTyparApplicationTrigger content = true) :
    content.isReal = true := by
  cases content with
  | Real token =>
      rfl
  | _ =>
      cases hTrigger

/- A virtual token forces nothing shut. -/
theorem forces_ne_virtual
    (hForce : tokenForcesHeadContextClosure content stack = true) :
    content ≠ .Virtual virt := by
  rintro rfl
  unfold tokenForcesHeadContextClosure at hForce
  split at hForce
  · cases hForce
  · simp [TokenContent.isAnyOf] at hForce

/- The closing virtual of a context opens no block. -/
theorem endTokenForACtxt_ne_begin
    (hClosing : endTokenForACtxt ctxt = some virt) :
    virt ≠ .BlockBegin := by
  rintro rfl
  unfold endTokenForACtxt at hClosing
  split at hClosing <;> cases hClosing

/- The queued virtuals of a cascade pass through. -/
theorem cascade_passing
    {above : List Context}
    (hReal : tt.token.isReal = true)
    (hMem : d ∈ cascadeVirtuals tt above ++ [⟨tt, true⟩]) :
    Passing d := by
  rcases List.mem_append.1 hMem with hVirtual | hKeyword
  · rw [cascadeVirtuals, List.mem_reverse] at hVirtual
    rcases List.mem_map.1 hVirtual with ⟨virt, hIn, rfl⟩
    rcases List.mem_filterMap.1 hIn with ⟨ctxt, -, hClosing⟩
    refine ⟨rfl, rfl, ?_, TokenContent.noConfusion⟩
    intro hToken
    exact endTokenForACtxt_ne_begin hClosing
      (TokenContent.Virtual.inj hToken)
  · rw [List.mem_singleton.1 hKeyword]
    exact ⟨rfl, TokenContent.isDummy_of_isReal hReal,
      TokenContent.ne_virtual_of_isReal hReal,
      TokenContent.ne_eof_of_isReal hReal⟩

section

variable (hHolding : Holding tt v)

include hHolding

/- On top of a pending block start is its own block. -/
theorem Holding.ne_begin
    (hHead : v.stack.head? = some ctxt)
    (hKind : ctxt.isBlock = false) :
    tt.token ≠ .Virtual .BlockBegin := by
  intro hToken
  rcases hHolding.upfront.opens hToken with ⟨first, below, hStack⟩
  rw [hStack] at hHead
  cases hHead
  cases hKind

/- Under the head of a declaration no dummy is pending. -/
theorem Holding.notDummy
    (hTop : topIsHead v.stack = true) :
    tt.token.isDummy = false := by
  cases hToken : tt.token with
  | Dummy prevEnd inner =>
      rw [(hHolding.upfront.dummy prevEnd inner hToken).2] at hTop
      cases hTop
  | _ =>
      rfl

/- Opening the body of a declaration. -/
theorem Holding.openBody
    {head body : Context}
    {first : Bool}
    (hHead : v.stack.head? = some head)
    (hKind : head.isHead = true)
    (hBody : body.isPlain = true) :
    Tidy { v with
      pending := fresh (tt.asVirtual .BlockBegin) :: fresh tt ::
        v.pending
      stack := .SeqBlock first tt.start .Yes :: body ::
        v.stack.tail } := by
  have hUp := hHolding.upfront
  have hTop : topIsHead v.stack = true := by
    rw [topIsHead, hHead]
    exact hKind
  have hQuiet : Quiet (fresh tt) :=
    ⟨rfl, hHolding.notDummy hTop,
      hHolding.ne_begin hHead (isBlock_of_isHead hKind), hUp.notEnd⟩
  refine Tidy.front hHolding.idle hHolding.initialized
    (none_cons (isHead_of_isPlain hBody) hHolding.heads) rfl ?_
  refine ⟨?_, ?_, ?_, ?_, ?_⟩
  · intro hToken
    cases hToken
  · intro prevEnd inner hToken
    cases hToken
  · intro _
    exact ⟨first, _, rfl⟩
  · intro d hMem
    rcases List.mem_cons.1 hMem with rfl | hOld
    · exact hQuiet
    · exact hUp.quiet d hOld
  · exact (EndsInEof.cons TokenContent.noConfusion).2 hUp.eof

/- Emitting the token leaves the stream. -/
theorem Holding.settle
    (hDummy : tt.token.isDummy = true →
      inModuleAttributes v.stack = true)
    (hEof : tt.token = .Eof → v.stack = [])
    (hOut : Output useBlockRule tt fetched) :
    Outcome fetched v := by
  have hTidy : tt.token ≠ .Eof → Tidy v := by
    intro hMore
    refine hHolding.consume [] hMore hHolding.heads ?_
    intro q hMem
    cases hMem
  cases hOut with
  | asIs =>
      refine ⟨?_, ?_⟩
      · by_contra hIs
        rw [Bool.not_eq_false] at hIs
        have hTop : topIsHead v.stack = true := by
          have hAttributes := hDummy hIs
          unfold inModuleAttributes at hAttributes
          split at hAttributes
          · next hStack =>
              rw [hStack]
              rfl
          · cases hAttributes
        rw [hHolding.notDummy hTop] at hIs
        cases hIs
      · split
        · next hLast =>
            have hEnd := hHolding.upfront.eof
            have hHere : (fresh tt).tup.token = .Eof := hLast
            rw [EndsInEof, if_pos hHere] at hEnd
            exact ⟨hEnd, hEof hLast, hHolding.idle⟩
        · next hMore =>
            exact hTidy hMore
  | virtual hToken hVirt =>
      have hReal := TokenContent.isReal_of_isAnyOf hToken
      exact .yieldVirtual rfl
        (hTidy (TokenContent.ne_eof_of_isReal hReal))
  | swallow hToken =>
      have hReal := TokenContent.isReal_of_isAnyOf hToken
      exact hTidy (TokenContent.ne_eof_of_isReal hReal)

/- A cascade queues its virtuals to pass through. -/
theorem Holding.cascade
    {above below : List Context}
    {pos : Pos}
    (hReal : tt.token.isReal = true)
    (hStack : v.stack = above ++ .MemberBody pos :: below) :
    Tidy { v with
      pending := cascadeVirtuals tt above ++ ⟨tt, true⟩ :: v.pending
      stack := below
      noProcessing := (cascadeVirtuals tt above).length + 1 } := by
  have hNone : ∀ c ∈ below, c.isHead = false := by
    intro c hMem
    refine hHolding.heads c ?_
    rw [hStack]
    cases above with
    | nil =>
        exact hMem
    | cons top rest =>
        exact List.mem_append_right _ (List.mem_cons_of_mem _ hMem)
  refine ⟨.of_none hNone, .inr
    ⟨cascadeVirtuals tt above ++ [⟨tt, true⟩], v.pending, ?_, ?_,
      fun d => cascade_passing hReal, hHolding.upfront.quiet, ?_⟩, ?_⟩
  · rw [List.append_assoc]
    rfl
  · rw [List.length_append]
    rfl
  · exact hHolding.endsInEof (TokenContent.ne_eof_of_isReal hReal)
  · intro hReset
    have hInit : v.initialized = false := hReset
    rw [hHolding.initialized] at hInit
    cases hInit

/- Every move leaves a tidy view. -/
theorem Act.outcome
    (hAct : Act useBlockRule tt v fetched v') :
    Outcome fetched v' := by
  have hUp := hHolding.upfront
  cases hAct with
  | @cut first second hGlued =>
      rcases hGlued.real with ⟨hReal, hFirst, hSecond⟩
      refine hHolding.consume [first, second]
        (TokenContent.ne_eof_of_isReal hReal) hHolding.heads ?_
      intro q hMem
      simp only [List.mem_cons, List.not_mem_nil, or_false] at hMem
      rcases hMem with rfl | rfl
      · exact ⟨.real hFirst, TokenContent.ne_eof_of_isReal hFirst⟩
      · exact ⟨.real hSecond, TokenContent.ne_eof_of_isReal hSecond⟩
  | @app next rest virt hIdent hNext hOpen hVirt =>
      have hReal := TokenContent.isReal_of_isIdent hIdent
      have hKinds : ∀ w ∈ [Virtual.HighPrecedenceBrackApp,
          .HighPrecedenceParenApp], w ≠ .BlockBegin ∧ w ≠ .BlockEnd := by
        decide
      refine hHolding.consume [tt, next.tup.asVirtual virt]
        (TokenContent.ne_eof_of_isReal hReal) hHolding.heads ?_
      intro q hMem
      simp only [List.mem_cons, List.not_mem_nil, or_false] at hMem
      rcases hMem with rfl | rfl
      · exact ⟨.real hReal, TokenContent.ne_eof_of_isReal hReal⟩
      · exact ⟨.virtual (hKinds virt hVirt).1 (hKinds virt hVirt).2,
          TokenContent.noConfusion⟩
  | force hHead hForce =>
      refine .closed (hHolding.requeue hHolding.heads.tail
        hHolding.heads.topIsHead_tail ?_)
      intro hToken
      exact absurd hToken (forces_ne_virtual hForce)
  | pop hHead hClosing hOffside =>
      refine .closed (hHolding.requeue hHolding.heads.tail
        hHolding.heads.topIsHead_tail ?_)
      intro hToken
      rcases hUp.opens hToken with ⟨first, below, hStack⟩
      rw [hStack] at hHead
      cases hHead
      exact absurd rfl (hOffside rfl hToken)
  | endHead hHead hKind hOut =>
      refine .yieldVirtual hOut (hHolding.requeue hHolding.heads.tail
        hHolding.heads.topIsHead_tail ?_)
      intro hToken
      exact absurd hToken
        (hHolding.ne_begin hHead (isBlock_of_isHead hKind))
  | reset hSemi hEmpty =>
      have hReal := TokenContent.isReal_of_eq hSemi
      refine .yield (TokenContent.isDummy_of_isReal hReal)
        (TokenContent.ne_eof_of_isReal hReal) ?_
      exact Tidy.stream hHolding.idle (.inr hEmpty) hHolding.heads
        hUp.quiet (hHolding.endsInEof
          (TokenContent.ne_eof_of_isReal hReal))
  | flip hRule hHead =>
      refine hHolding.requeue hHolding.heads rfl ?_
      intro hToken
      rcases hUp.opens hToken with ⟨first, below, hStack⟩
      rw [hStack] at hHead
      cases hHead
      exact ⟨false, _, rfl⟩
  | sep hRule hHead hOut =>
      refine .yieldVirtual hOut
        (hHolding.requeue hHolding.heads rfl ?_)
      intro hToken
      rcases hUp.opens hToken with ⟨first, below, hStack⟩
      rw [hStack] at hHead
      cases hHead
      exact ⟨true, _, rfl⟩
  | openBody hHead hKind hBody =>
      exact hHolding.openBody hHead hKind hBody
  | settle hDummy hEof hOut =>
      exact hHolding.settle hDummy hEof hOut
  | drop hDummy =>
      refine hHolding.consume [] ?_ hHolding.heads ?_
      · intro hEof
        rw [hEof] at hDummy
        cases hDummy
      · intro q hMem
        cases hMem
  | shift hReal hShape hOut =>
      exact .output hReal hOut
        (hHolding.shift hReal (hShape.shifted hHolding.heads))
  | @elif next rest hElse hTop hNext hIf =>
      have hReal := TokenContent.isReal_of_eq hElse
      have hQuiet := hUp.quiet
      have hEnd := hHolding.endsInEof
        (TokenContent.ne_eof_of_isReal hReal)
      rw [hNext] at hQuiet hEnd
      refine .yield rfl TokenContent.noConfusion ?_
      refine Tidy.stream hHolding.idle (.inl hHolding.initialized)
        (hHolding.heads.none hTop) ?_ ?_
      · exact fun d hMem => hQuiet d (List.mem_cons_of_mem _ hMem)
      · refine (EndsInEof.cons ?_).1 hEnd
        rw [hIf]
        exact TokenContent.noConfusion
  | cascade hToken hPops hStack hAbove =>
      exact hHolding.cascade (TokenContent.isReal_of_isAnyOf hToken)
        hStack
  | @typeApp less flag rest hTrigger hRecut hLess =>
      have hReal := isReal_of_isTyparApplicationTrigger hTrigger
      have hQuiet := hRecut.quiet hUp.quiet
      have hEnd := hRecut.endsInEof (hHolding.endsInEof
        (TokenContent.ne_eof_of_isReal hReal))
      refine .yield (TokenContent.isDummy_of_isReal hReal)
        (TokenContent.ne_eof_of_isReal hReal) ?_
      refine Tidy.stream hHolding.idle (.inl hHolding.initialized)
        hHolding.heads ?_ ?_
      · intro d hMem
        rcases List.mem_cons.1 hMem with rfl | hMem
        · exact .virtual Virtual.noConfusion Virtual.noConfusion
        rcases List.mem_cons.1 hMem with rfl | hMem
        · exact .real rfl
        · exact hQuiet d (List.mem_cons_of_mem _ hMem)
      · refine (EndsInEof.cons TokenContent.noConfusion).2
          ((EndsInEof.cons TokenContent.noConfusion).2 ?_)
        refine (EndsInEof.cons ?_).1 hEnd
        rw [hLess]
        exact TokenContent.noConfusion

end

/- The next token is processed when nothing passes through. -/
theorem Tidy.holding
    (hTidy : Tidy v)
    (hInit : v.initialized = true)
    (hIdle : v.noProcessing = 0)
    (hPending : v.pending = d :: rest) :
    Holding d.tup { v with pending := rest } := by
  refine ⟨hIdle, hInit, hTidy.heads, ?_⟩
  rcases hTidy.layout with ⟨-, tt, rest', hFront, hUp⟩ |
    ⟨marked, tail, hSplit, hLength, -, hQuiet, hEnd⟩
  · rw [hPending] at hFront
    cases hFront
    exact hUp
  · rw [hIdle, List.length_eq_zero_iff] at hLength
    rw [hLength, List.nil_append, hPending] at hSplit
    rw [← hSplit] at hQuiet hEnd
    have hHere := hQuiet d List.mem_cons_self
    refine ⟨hHere.notEnd, ?_, ?_, ?_, ?_⟩
    · intro prevEnd inner hToken
      have hNot := hHere.notDummy
      rw [hToken] at hNot
      cases hNot
    · intro hToken
      exact absurd hToken hHere.notBegin
    · exact fun e hMem => hQuiet e (List.mem_cons_of_mem _ hMem)
    · rw [EndsInEof] at hEnd ⊢
      exact hEnd

/- A token of the prefix passes through. -/
theorem Tidy.passing
    (hTidy : Tidy v)
    (hInit : v.initialized = true)
    (hCount : 0 < v.noProcessing)
    (hPending : v.pending = d :: rest) :
    Passing d ∧ Tidy { v with
      pending := rest
      noProcessing := v.noProcessing - 1 } := by
  rcases hTidy.layout with ⟨hIdle, -⟩ |
    ⟨marked, tail, hSplit, hLength, hMarked, hQuiet, hEnd⟩
  · omega
  · cases marked with
    | nil =>
        rw [← hLength] at hCount
        cases hCount
    | cons d' marked =>
        rw [hSplit] at hPending
        cases hPending
        refine ⟨hMarked d List.mem_cons_self, hTidy.heads,
          .inr ⟨marked, tail, rfl, ?_, ?_, hQuiet, hEnd⟩, ?_⟩
        · dsimp only
          rw [← hLength]
          rfl
        · exact fun e hMem => hMarked e (List.mem_cons_of_mem _ hMem)
        · intro hReset
          have hReset' : v.initialized = false := hReset
          rw [hInit] at hReset'
          cases hReset'

/- The end of file is pending. -/
theorem Tidy.endsInEof
    (hTidy : Tidy v) :
    EndsInEof v.pending := by
  rcases hTidy.layout with ⟨-, tt, rest, hFront, hUp⟩ |
    ⟨marked, tail, hSplit, -, hMarked, -, hEnd⟩
  · rw [hFront]
    exact hUp.eof
  · rw [hSplit]
    exact (EndsInEof.append fun d hMem => (hMarked d hMem).notEof).2 hEnd

/- Every iteration leaves a tidy view. -/
theorem Iterates.outcome
    (hTidy : Tidy v)
    (hInit : v.initialized = true)
    (hMove : Iterates useBlockRule v fetched v') :
    Outcome fetched v' := by
  cases hMove with
  | exhausted hPending =>
      exact hTidy.endsInEof.ne_nil hPending
  | moved hPending hMove =>
      cases hMove with
      | passThrough hCount =>
          rcases hTidy.passing hInit hCount hPending with
            ⟨hPass, hTidy'⟩
          exact .yield hPass.notDummy hPass.notEof hTidy'
      | act hIdle hAhead hAct =>
          have hHolding := hTidy.holding hInit hIdle hPending
          exact hAct.outcome (hHolding.ahead hAhead)

end Moves

theorem Tidy.begin
    {v : View}
    {d : Delayed}
    {rest : List Delayed}
    (hTidy : Tidy v)
    (hInit : v.initialized = false)
    (hPending : v.pending = d :: rest) :
    Tidy (v.begin d rest) := by
  rcases hTidy.reset hInit with ⟨hIdle, hStack, hQuiet⟩
  have hEnd := hTidy.endsInEof
  rw [hPending] at hQuiet hEnd
  refine Tidy.stream hIdle (.inl rfl) ?_ ?_ ?_
  · intro c hMem
    have hMem' : c ∈ v.stack := hMem
    rw [hStack] at hMem'
    cases hMem'
  · intro e hMem
    rcases List.mem_cons.1 hMem with rfl | hOld
    · exact (hQuiet d List.mem_cons_self).keep
    · exact hQuiet e (List.mem_cons_of_mem _ hOld)
  · exact hEnd

/- Every step keeps a stage valid. -/
theorem Stage.Steps.valid
    {g g' : Stage}
    (hValid : g.Valid)
    (hStep : g.Steps g') :
    g'.Valid := by
  have hOpen : ∀ {phase : Phase}, g.phase = phase →
      phase ≠ .Finished → Tidy g.view := by
    intro phase hPhase hNe
    refine hValid.tidy ?_
    rw [hPhase]
    exact hNe
  cases hStep with
  | start hPhase hInit =>
      refine ⟨fun _ _ => hInit, ?_, ?_, hValid.out⟩
      · exact fun _ => hOpen hPhase Phase.noConfusion
      · intro hEnd
        cases hEnd
  | begin hPhase hInit hPending =>
      refine ⟨fun _ _ => rfl, ?_, ?_, hValid.out⟩
      · exact fun _ =>
          (hOpen hPhase Phase.noConfusion).begin hInit hPending
      · intro hEnd
        cases hEnd
  | beginEmpty hPhase hInit hPending =>
      have hEnd := (hOpen hPhase Phase.noConfusion).endsInEof
      exact absurd hPending hEnd.ne_nil
  | again hPhase hMove =>
      have hInit := hValid.fetching _ hPhase
      have hTidy := hMove.outcome
        (hOpen hPhase Phase.noConfusion) hInit
      refine ⟨fun _ _ => hMove.initialized hInit, fun _ => hTidy, ?_,
        hValid.out⟩
      intro hEnd
      cases hEnd
  | emit hPhase hMove hMore =>
      have hInit := hValid.fetching _ hPhase
      rcases hMove.outcome (hOpen hPhase Phase.noConfusion) hInit with
        ⟨hDummy, hTidy⟩
      rw [if_neg hMore] at hTidy
      refine ⟨?_, fun _ => hTidy, ?_, ?_⟩
      · intro useBlockRule hNext
        cases hNext
      · intro hEnd
        cases hEnd
      · intro out hMem
        rcases List.mem_append.1 hMem with hOld | hNew
        · exact hValid.out out hOld
        · rw [List.mem_singleton.1 hNew]
          exact ⟨hDummy, hMore⟩
  | finish hPhase hMove hEof =>
      have hInit := hValid.fetching _ hPhase
      rcases hMove.outcome (hOpen hPhase Phase.noConfusion) hInit with
        ⟨-, hLast⟩
      rw [if_pos hEof] at hLast
      refine ⟨?_, ?_, fun _ => hLast, hValid.out⟩
      · intro useBlockRule hNext
        cases hNext
      · intro hNe
        exact absurd rfl hNe
  | exhausted hPhase hMove =>
      have hInit := hValid.fetching _ hPhase
      exact (hMove.outcome (hOpen hPhase Phase.noConfusion) hInit).elim

end LexFilter

end Borzoi
