import Borzoi.LexFilter.Moves

/-
  What a rule may decide.

  A rule that decides a token performs one of the moves.  A rule that
  passes it on leaves the view alone and may add a fact the later
  rules rely on.
-/

namespace Borzoi

namespace LexFilter

open Lexer
open FilterM

namespace Abs

variable {trusted : Prop} {bounded : Pos → Prop} {t u : Abs} {tt : TokenTup}

/- More lines are recorded in `u` than in `t`. -/
def KnownIn
    (t u : Abs) :
    Prop :=
  ∀ l, t.known l → u.known l

theorem GoodPos.mono
    {pos : Pos}
    (hGood : t.GoodPos trusted bounded pos)
    (hKnown : t.KnownIn u) :
    u.GoodPos trusted bounded pos :=
  ⟨hKnown _ hGood.1, hGood.2⟩

theorem GoodTok.mono
    (hGood : t.GoodTok trusted bounded tt)
    (hKnown : t.KnownIn u) :
    u.GoodTok trusted bounded tt :=
  ⟨hKnown _ hGood.1, hKnown _ hGood.2.1, hGood.2.2⟩

/- A token starts and stops at good positions. -/
theorem GoodTok.startPos
    (hGood : t.GoodTok trusted bounded tt) :
    t.GoodPos trusted bounded tt.start :=
  ⟨hGood.1, fun hTrusted => (hGood.2.2 hTrusted).start⟩

theorem GoodTok.stopPos
    (hGood : t.GoodTok trusted bounded tt) :
    t.GoodPos trusted bounded tt.stop :=
  ⟨hGood.2.1, fun hTrusted => (hGood.2.2 hTrusted).stop⟩

/- A token with the place of a good one and nothing to cut is good. -/
theorem GoodTok.uncut
    {tt' : TokenTup}
    (hStart : t.GoodPos trusted bounded tt'.start)
    (hStop : t.GoodPos trusted bounded tt'.stop)
    (hUncut : ∀ token, tt'.token = .Real token →
      cutLength token = none) :
    t.GoodTok trusted bounded tt' := by
  refine ⟨hStart.1, hStop.1, fun hTrusted =>
    ⟨hStart.2 hTrusted, hStop.2 hTrusted, ?_, ?_⟩⟩
  · intro token n hToken hCut
    rw [hUncut token hToken] at hCut
    cases hCut
  · intro text hToken
    cases hUncut _ hToken

theorem GoodTok.asVirtual
    (hGood : t.GoodTok trusted bounded tt)
    (virt : Virtual) :
    t.GoodTok trusted bounded (tt.asVirtual virt) := by
  refine GoodTok.uncut hGood.startPos hGood.stopPos ?_
  intro token hToken
  cases hToken

theorem GoodTok.asDummy
    (hGood : t.GoodTok trusted bounded tt)
    (prevEnd : Nat)
    (inner : Token) :
    t.GoodTok trusted bounded
      (tt.withToken (.Dummy prevEnd inner)) := by
  refine GoodTok.uncut hGood.startPos hGood.stopPos ?_
  intro token hToken
  cases hToken

/-
  The bytes from `i` to `j` of a token the filter cuts make a good
  token.
-/
theorem GoodTok.piece
    {token : Token}
    {n : Nat}
    {piece : TokenTup}
    (i j : Nat)
    (hGood : t.GoodTok trusted bounded tt)
    (hToken : tt.token = .Real token)
    (hCut : cutLength token = some n)
    (hStart : piece.start.line = tt.start.line ∨
      piece.start.line = tt.stop.line)
    (hStop : piece.stop.line = tt.start.line ∨
      piece.stop.line = tt.stop.line)
    (hPlace : tt.stop = ⟨tt.start.line, tt.start.col + n⟩ →
      tt.span.stop = tt.span.start + n →
      piece.start = ⟨tt.start.line, tt.start.col + i⟩ ∧
        piece.stop = ⟨tt.start.line, tt.start.col + j⟩ ∧
        piece.span = ⟨tt.span.start + i, tt.span.start + j⟩ ∧
        i ≤ j ∧ j ≤ n)
    (hContent : ∀ token' m, piece.token = .Real token' →
      cutLength token' = some m → m = j - i)
    (hDigits : ∀ text, piece.token ≠ .Real (.IntDotDot text)) :
    t.GoodTok trusted bounded piece := by
  rcases hGood with ⟨hKnownStart, hKnownStop, hSound⟩
  refine ⟨?_, ?_, ?_⟩
  · rcases hStart with hLine | hLine
    · exact hLine ▸ hKnownStart
    · exact hLine ▸ hKnownStop
  · rcases hStop with hLine | hLine
    · exact hLine ▸ hKnownStart
    · exact hLine ▸ hKnownStop
  · intro hTrusted
    rcases (hSound hTrusted).cut token n hToken hCut with
      ⟨hEnd, hSpan, hBytes⟩
    rcases hPlace hEnd hSpan with ⟨hs, he, hp, hij, hjn⟩
    refine ⟨hs ▸ hBytes i (by omega), he ▸ hBytes j hjn, ?_, ?_⟩
    · intro token' m hToken' hCut'
      have hm := hContent token' m hToken' hCut'
      subst hm
      rw [hs, he, hp]
      refine ⟨?_, ?_, ?_⟩
      · simp only [Pos.mk.injEq, true_and]
        omega
      · dsimp only
        omega
      · intro k hk
        have hByte := hBytes (i + k) (by omega)
        rwa [← Nat.add_assoc] at hByte
    · intro text hText
      exact absurd hText (hDigits text)

section Pieces

variable {token piece : Token} {n m : Nat}

section

variable (hGood : t.GoodTok trusted bounded tt)

include hGood

section

variable (hToken : tt.token = .Real token)

include hToken

/- A token without its last `m` bytes. -/
theorem GoodTok.front
    (hCut : cutLength token = some n)
    (hm : m ≤ n)
    (hPiece : cutLength piece = none) :
    t.GoodTok trusted bounded
      ⟨.Real piece, ⟨tt.span.start, tt.span.stop - m⟩, tt.start,
        ⟨tt.stop.line, tt.stop.col - m⟩⟩ := by
  refine hGood.piece 0 (n - m) hToken hCut (.inl rfl) (.inr rfl)
    ?_ ?_ ?_
  · intro hEnd hSpan
    rw [hEnd, hSpan]
    refine ⟨rfl, ?_, ?_, by omega, by omega⟩
    · simp only [Pos.mk.injEq, true_and]
      omega
    · simp only [Span.mk.injEq, Nat.add_zero, true_and]
      omega
  · intro token' k hToken' hCut'
    cases hToken'
    rw [hPiece] at hCut'
    cases hCut'
  · intro text hText
    cases hText
    cases hPiece

/- The last `m` bytes of a token. -/
theorem GoodTok.back
    {line : Nat}
    (hCut : cutLength token = some n)
    (hm : m ≤ n)
    (hLine : line = tt.start.line ∨ line = tt.stop.line)
    (hPiece : ∀ k, cutLength piece = some k → k = m)
    (hDigits : ∀ text, piece ≠ .IntDotDot text) :
    t.GoodTok trusted bounded
      ⟨.Real piece, ⟨tt.span.stop - m, tt.span.stop⟩,
        ⟨line, tt.stop.col - m⟩, tt.stop⟩ := by
  refine hGood.piece (n - m) n hToken hCut hLine (.inr rfl) ?_ ?_ ?_
  · intro hEnd hSpan
    rw [hEnd, or_self] at hLine
    rw [hEnd, hSpan, hLine]
    refine ⟨?_, rfl, ?_, by omega, by omega⟩
    · simp only [Pos.mk.injEq, true_and]
      omega
    · simp only [Span.mk.injEq, and_true]
      omega
  · intro token' k hToken' hCut'
    cases hToken'
    rw [hPiece k hCut']
    omega
  · intro text hText
    cases hText
    exact hDigits text rfl

/- A token without its first `m` bytes. -/
theorem GoodTok.after
    (hCut : cutLength token = some n)
    (hm : m ≤ n)
    (hPiece : ∀ k, cutLength piece = some k → k = n - m)
    (hDigits : ∀ text, piece ≠ .IntDotDot text) :
    t.GoodTok trusted bounded
      ⟨.Real piece, ⟨tt.span.start + m, tt.span.stop⟩,
        ⟨tt.start.line, tt.start.col + m⟩, tt.stop⟩ := by
  refine hGood.piece m n hToken hCut (.inl rfl) (.inr rfl) ?_ ?_ ?_
  · intro hEnd hSpan
    rw [hEnd, hSpan]
    exact ⟨rfl, rfl, rfl, hm, Nat.le_refl n⟩
  · intro token' k hToken' hCut'
    cases hToken'
    exact hPiece k hCut'
  · intro text hText
    cases hText
    exact hDigits text rfl

/- A token the filter cuts ends far enough from the margins. -/
theorem GoodTok.room
    (hCut : cutLength token = some n)
    (hm : m ≤ n)
    (hTrusted : trusted) :
    m ≤ tt.span.stop ∧ m ≤ tt.stop.col := by
  rcases (hGood.2.2 hTrusted).cut token n hToken hCut with
    ⟨hEnd, hSpan, -⟩
  rw [hEnd, hSpan]
  dsimp only
  omega

end

end

end Pieces

/- Only `;;` can break the fence. -/
theorem Fenced.of_ne
    (hToken : tt.token ≠ .Real .SemiSemi) :
    t.Fenced tt :=
  fun hSemi => absurd hSemi hToken

/-
  The token `tt` was taken and is to be decided.
-/
structure Ready
    (trusted : Prop)
    (bounded : Pos → Prop)
    (t : Abs)
    (tt : TokenTup) :
    Prop where
  idle : t.noProcessing = 0
  initialized : t.initialized = true
  good : t.GoodTok trusted bounded tt
  fenced : t.Fenced tt
  unmarked : ∀ d ∈ t.pending, d.passThrough = false
  dummy : ∀ prevEnd inner, tt.token = .Dummy prevEnd inner →
    inner ∈ dummyTokens

end Abs

section Decisions

variable (trusted : Prop) (bounded : Pos → Prop)

/-
  A decision on `tt` in the view `v`.  `Q` is the fact a rule that
  passes adds.  Only the reset leaves the filter uninitialized, with
  nothing pulled.
-/
inductive Decides
    (useBlockRule : Bool)
    (Q : Prop)
    (tt : TokenTup)
    (v : View) :
    Step → Abs → Prop
  | pass
      {u : Abs}
      (hView : u.view = v)
      (hReady : u.Ready trusted bounded tt)
      (hFact : Q) :
      Decides useBlockRule Q tt v (.Pass tt) u
  | restart
      {u : Abs}
      (hAct : Act useBlockRule tt v (.Again useBlockRule) u.view) :
      Decides useBlockRule Q tt v .Restart u
  | restartWithoutBlockRule
      {u : Abs}
      (hAct : Act useBlockRule tt v (.Again false) u.view) :
      Decides useBlockRule Q tt v .RestartWithoutBlockRule u
  | emit
      {u : Abs}
      {out : TokenTup}
      (hAct : Act useBlockRule tt v (.Yield out) u.view)
      (hInit : u.initialized = true ∨ u.pulled = 0) :
      Decides useBlockRule Q tt v (.Emit out) u

/-
  A rule that meets `P` with `Q` decides every ready token for which
  `P` holds, and passes it on only when `Q` holds.
-/
def Meets
    (useBlockRule : Bool)
    (P Q : TokenTup → View → Prop)
    (rule : Rule) :
    Prop :=
  ∀ tt t, t.Ready trusted bounded tt → P tt t.view →
    wp trusted bounded (rule tt)
      (Decides trusted bounded useBlockRule (Q tt t.view) tt t.view) t

/- A rule that adds no fact. -/
abbrev Holds
    (useBlockRule : Bool)
    (P : TokenTup → View → Prop)
    (rule : Rule) :
    Prop :=
  Meets trusted bounded useBlockRule P (fun _ _ => True) rule

variable {trusted bounded}
variable {useBlockRule : Bool} {P Q R : TokenTup → View → Prop}

variable {rule : Rule} {tt : TokenTup}

theorem Abs.Ready.pass
    {t : Abs}
    {Q : Prop}
    (hReady : t.Ready trusted bounded tt)
    (hQ : Q) :
    Decides trusted bounded useBlockRule Q tt t.view (.Pass tt) t :=
  .pass rfl hReady hQ

/- Emitting keeps the filter initialized, the reset apart. -/
theorem Abs.Ready.emit
    {t u : Abs}
    {tt out : TokenTup}
    {Q : Prop}
    (hReady : t.Ready trusted bounded tt)
    (hInit : u.initialized = t.initialized)
    (hAct : Act useBlockRule tt t.view (.Yield out) u.view) :
    Decides trusted bounded useBlockRule Q tt t.view (.Emit out) u :=
  .emit hAct (.inl (hInit.trans hReady.initialized))

/- A shift to a view given in another form. -/
theorem Act.shiftTo
    {v v' : View}
    {stack : List Context}
    {queued : List TokenTup}
    {depth : Nat}
    {fetched : Fetched}
    (hReal : tt.token.isReal = true)
    (hShape : Shape tt v.stack v.parenDepth stack queued depth)
    (hOut : Output useBlockRule tt fetched)
    (hView : v' = { v with
      pending := queued.map fresh ++ v.pending
      stack := stack
      parenDepth := depth }) :
    Act useBlockRule tt v fetched v' := by
  rw [hView]
  exact .shift hReal hShape hOut

theorem Meets.imp
    {P' : TokenTup → View → Prop}
    (hMeets : Meets trusted bounded useBlockRule P Q rule)
    (hImp : ∀ tt v, P' tt v → P tt v) :
    Meets trusted bounded useBlockRule P' Q rule :=
  fun tt t hReady hP => hMeets tt t hReady (hImp _ _ hP)

theorem Meets.weaken
    (hMeets : Meets trusted bounded useBlockRule P Q rule)
    (hImp : ∀ tt v, Q tt v → R tt v) :
    Meets trusted bounded useBlockRule P R rule := by
  intro tt t hReady hP
  refine wp_mono (hMeets tt t hReady hP) ?_
  intro step u hStep
  cases hStep with
  | pass hView hReady' hFact =>
      exact .pass hView hReady' (hImp _ _ hFact)
  | restart hAct =>
      exact .restart hAct
  | restartWithoutBlockRule hAct =>
      exact .restartWithoutBlockRule hAct
  | emit hAct hInit =>
      exact .emit hAct hInit

/- Rules in sequence: a fact of the first is there for the rest. -/
theorem Meets.firstOf_cons
    {rest : List Rule}
    (hRule : Meets trusted bounded useBlockRule P Q rule)
    (hRest : Meets trusted bounded useBlockRule
      (fun tt v => P tt v ∧ Q tt v) R (firstOf rest)) :
    Meets trusted bounded useBlockRule P R
      (firstOf (rule :: rest)) := by
  intro tt t hReady hP
  rw [firstOf, wp_bind]
  refine wp_mono (hRule tt t hReady hP) ?_
  intro step u hStep
  cases hStep with
  | pass hView hReady' hQ =>
      rw [← hView] at hP hQ
      have hTail := hRest tt u hReady' ⟨hP, hQ⟩
      rwa [hView] at hTail
  | restart hAct =>
      exact .restart hAct
  | restartWithoutBlockRule hAct =>
      exact .restartWithoutBlockRule hAct
  | emit hAct hInit =>
      exact .emit hAct hInit

/- Rules that add no fact, in any order. -/
theorem Meets.firstOf_all
    {rules : List Rule}
    (hAll : ∀ rule ∈ rules,
      Holds trusted bounded useBlockRule P rule) :
    Holds trusted bounded useBlockRule P (firstOf rules) := by
  induction rules with
  | nil =>
      exact fun _ _ hReady _ => hReady.pass trivial
  | cons rule rest ih =>
      have hRest := ih fun r hr => hAll r (List.mem_cons_of_mem _ hr)
      exact (hAll rule List.mem_cons_self).firstOf_cons
        (hRest.imp fun _ _ h => h.1)

end Decisions

------------------------------------------------------------
-- Looking Ahead
------------------------------------------------------------

section Peeking

variable {trusted : Prop} {bounded : Pos → Prop} {t : Abs} {tt : TokenTup}

/- The first pending token. -/
def Abs.next
    (t : Abs) :
    Option TokenTup :=
  t.pending.head?.map Delayed.tup

variable {u : Abs} {Q : Option TokenTup → Abs → Prop}

theorem Abs.next_of_view
    (hView : u.view = t.view) :
    u.next = t.next :=
  congrArg (fun v : View => v.pending.head?.map Delayed.tup) hView

/- Only the pending tokens and the recorded lines may differ. -/
structure Abs.Frames
    (t u : Abs) :
    Prop where
  view : u.view = { t.view with pending := u.pending }
  known : t.KnownIn u

theorem Abs.Frames.refl
    (t : Abs) :
    t.Frames t :=
  ⟨rfl, fun _ => id⟩

theorem Abs.Frames.trans
    {u w : Abs}
    (hFirst : t.Frames u)
    (hSecond : u.Frames w) :
    t.Frames w := by
  refine ⟨?_, fun l hl => hSecond.known l (hFirst.known l hl)⟩
  rw [hSecond.view, hFirst.view]

theorem Abs.Frames.delay
    (t : Abs)
    (d : Delayed) :
    t.Frames (t.delay d) :=
  ⟨rfl, fun _ => id⟩

theorem Abs.delay_view
    (t : Abs)
    (d : Delayed) :
    (t.delay d).view =
      { t.view with pending := d :: t.view.pending } :=
  rfl

theorem Abs.Frames.view_eq
    (hFrame : t.Frames u)
    (hPending : u.pending = t.pending) :
    u.view = t.view := by
  rw [hFrame.view, hPending]
  rfl

/- A peek, whatever is being decided. -/
theorem wp_look
    (hPost : ∀ u, t.Frames u → u.pending = t.pending →
      (∀ tok, t.next = some tok → u.GoodTok trusted bounded tok) →
      Q t.next u) :
    wp trusted bounded peekNextTokenTup Q t := by
  rw [wp_peekNextTokenTup, lookContract]
  unfold Abs.next at hPost
  cases hPending : t.pending with
  | nil =>
      rw [hPending] at hPost
      intro known hKnown
      refine hPost _ ⟨rfl, hKnown⟩ hPending ?_
      intro tok hTok
      cases hTok
  | cons d rest =>
      rw [hPending] at hPost
      intro known hKnown hNext
      refine hPost _ ⟨rfl, hKnown⟩ hPending ?_
      intro tok hTok
      cases hTok
      exact hNext

/- Taking the next token. -/
theorem wp_take
    (hNone : t.pending = [] → ∀ u, t.Frames u → u.pending = [] →
      Q none u)
    (hSome : ∀ d rest, t.pending = d :: rest →
      ∀ u, t.Frames u → u.pending = rest →
      u.GoodTok trusted bounded d.tup → u.Fenced d.tup →
      Q (some d.tup) u) :
    wp trusted bounded popNextTokenTup Q t := by
  rw [wp_popNextTokenTup, takeContract]
  cases hPending : t.pending with
  | nil =>
      intro known hKnown
      exact hNone hPending _ ⟨rfl, hKnown⟩ hPending
  | cons d rest =>
      intro known hKnown hGood hSemi
      exact hSome d rest hPending _ ⟨rfl, hKnown⟩ rfl hGood hSemi

/- A test of the next token. -/
theorem wp_nextTokenIsAdjacent
    {Q : Bool → Abs → Prop}
    {token : Token}
    (hPost : ∀ b u, t.Frames u → u.pending = t.pending →
      (b = true → ∃ tok, t.next = some tok ∧
        tok.token = .Real token) →
      Q b u) :
    wp trusted bounded (nextTokenIsAdjacent token tt) Q t := by
  rw [nextTokenIsAdjacent, wp_bind]
  refine wp_look ?_
  intro u hFrame hPending _
  cases hNext : t.next with
  | none =>
      refine hPost _ u hFrame hPending ?_
      intro hFalse
      cases hFalse
  | some tok =>
      refine hPost _ u hFrame hPending ?_
      intro hBoth
      simp only [Bool.and_eq_true, beq_iff_eq] at hBoth
      exact ⟨tok, hNext, hBoth.1⟩

/- What looking ahead leaves of the state. -/
structure Abs.Peeked
    (trusted : Prop)
    (bounded : Pos → Prop)
    (tt : TokenTup)
    (t u : Abs) :
    Prop where
  ready : u.Ready trusted bounded tt
  view : u.view = t.view
  known : t.KnownIn u

theorem Abs.Peeked.refl
    (hReady : t.Ready trusted bounded tt) :
    t.Peeked trusted bounded tt t :=
  ⟨hReady, rfl, fun _ => id⟩

/- Reading ahead keeps a token ready, unless it is `;;`. -/
theorem Abs.Ready.peeked
    (hReady : t.Ready trusted bounded tt)
    (hFrame : t.Frames u)
    (hPending : u.pending = t.pending)
    (hToken : tt.token ≠ .Real .SemiSemi) :
    t.Peeked trusted bounded tt u := by
  have hView := hFrame.view_eq hPending
  refine ⟨⟨?_, ?_, hReady.good.mono hFrame.known, .of_ne hToken, ?_,
    hReady.dummy⟩, hView, hFrame.known⟩
  · exact (congrArg View.noProcessing hView).trans hReady.idle
  · exact (congrArg View.initialized hView).trans hReady.initialized
  · rw [hPending]
    exact hReady.unmarked

/- A peek keeps the view. -/
theorem Abs.Ready.wp_peek
    (hReady : t.Ready trusted bounded tt)
    (hToken : tt.token ≠ .Real .SemiSemi)
    (hPost : ∀ u, t.Peeked trusted bounded tt u →
      (∀ tok, t.next = some tok → u.GoodTok trusted bounded tok) →
      Q t.next u) :
    wp trusted bounded peekNextTokenTup Q t := by
  refine wp_look ?_
  intro u hFrame hPending hGood
  refine hPost u (hReady.peeked hFrame hPending hToken) hGood

end Peeking

/- The view after a block was pushed at `anchor`. -/
def View.openBlock
    (v : View)
    (first : Bool)
    (anchor : TokenTup)
    (addBlockEnd : AddBlockEnd) :
    View :=
  { v with
    pending := (blockBegins addBlockEnd anchor).map fresh ++ v.pending
    stack := .SeqBlock first anchor.start addBlockEnd :: v.stack }

section Blocks

variable {trusted : Prop} {bounded : Pos → Prop} {t : Abs}
variable {addBlockEnd : AddBlockEnd} {Q : Unit → Abs → Prop}

theorem wp_delayBlockBegin
    {anchor : TokenTup}
    (hGood : t.GoodTok trusted bounded anchor)
    (hPost : ∀ u, t.KnownIn u →
      u.view = { t.view with
        pending := (blockBegins addBlockEnd anchor).map fresh ++
          t.view.pending } →
      Q () u) :
    wp trusted bounded (delayBlockBegin addBlockEnd anchor) Q t := by
  cases addBlockEnd with
  | Yes =>
      rw [delayBlockBegin, wp_delayToken]
      refine ⟨hGood.asVirtual _, .of_ne ?_, hPost _ ?_ rfl⟩
      · intro hToken
        cases hToken
      · exact fun _ => id
  | No =>
      exact hPost t (fun _ => id) rfl
  | OneSided =>
      exact hPost t (fun _ => id) rfl

variable {fallback : TokenTup}

/-
  A block starts at the next token, or at the fallback when the push
  is refused or there is no next token.
-/
theorem wp_pushCtxtSeqBlockAt
    {strictness : PushStrictness}
    {useFallback : Bool}
    (hGood : useFallback = true →
      t.GoodTok trusted bounded fallback)
    (hPushed : ∀ u first anchor, t.KnownIn u →
      (anchor = fallback ∨
        ∃ d rest, t.pending = d :: rest ∧ anchor = d.tup) →
      u.view = t.view.openBlock first anchor addBlockEnd →
      Q () u)
    (hRefused : useFallback = false →
      (t.pending = [] ∨ strictness = .VersionGated) →
      ∀ u, t.KnownIn u → u.view = t.view → Q () u) :
    wp trusted bounded
      (pushCtxtSeqBlockAt strictness useFallback fallback addBlockEnd)
      Q t := by
  -- what happens when the block does not start at the next token
  have hElse : ∀ u, t.KnownIn u → u.view = t.view →
      (t.pending = [] ∨ strictness = .VersionGated) →
      wp trusted bounded
        (if useFallback = true then do
          pushCtxt fallback.span
            (.SeqBlock false fallback.start addBlockEnd)
          delayBlockBegin addBlockEnd fallback
        else pure ()) Q u := by
    intro u hKnown hView hWhy
    cases useFallback with
    | true =>
        have hGood' := (hGood rfl).mono hKnown
        rw [if_pos rfl, wp_bind, wp_pushCtxt]
        refine ⟨hGood'.startPos, wp_delayBlockBegin hGood' ?_⟩
        intro w hKnown' hView'
        refine hPushed w false fallback
          (fun l hl => hKnown' l (hKnown l hl)) (.inl rfl) ?_
        rw [hView', View.openBlock, ← hView]
        rfl
    | false =>
        exact hRefused rfl hWhy u hKnown hView
  rw [pushCtxtSeqBlockAt, wp_bind, wp_peekNextTokenTup, lookContract]
  cases hPending : t.pending with
  | nil =>
      intro known hKnown
      exact hElse (t.grow known) hKnown rfl (.inl hPending)
  | cons d rest =>
      intro known hKnown hNext
      have hNext' : (t.look known).GoodTok trusted bounded d.tup :=
        hNext
      rw [wp_bind, wp_tryPushCtxt]
      refine ⟨hNext'.startPos, ?_, ?_⟩
      · simp only [if_true, wp_bind, wp_expect_some]
        refine wp_delayBlockBegin hNext' ?_
        intro u hKnown' hView
        exact hPushed u true d.tup (fun l hl => hKnown' l (hKnown l hl))
          (.inr ⟨d, rest, hPending, rfl⟩) hView
      · intro hGated
        exact hElse (t.look known) hKnown rfl (.inr hGated)

/- A block that is always pushed. -/
theorem wp_pushCtxtSeqBlock
    (hGood : t.GoodTok trusted bounded fallback)
    (hPushed : ∀ u first anchor, t.KnownIn u →
      (anchor = fallback ∨
        ∃ d rest, t.pending = d :: rest ∧ anchor = d.tup) →
      u.view = t.view.openBlock first anchor addBlockEnd →
      Q () u) :
    wp trusted bounded (pushCtxtSeqBlock fallback addBlockEnd) Q t := by
  refine wp_pushCtxtSeqBlockAt (fun _ => hGood) hPushed ?_
  intro hFallback
  cases hFallback

end Blocks

end LexFilter

end Borzoi
