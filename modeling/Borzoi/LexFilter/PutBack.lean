import Borzoi.LexFilter.Retirement

/-
  What a scan for a type application leaves of the token stream.

  The tokens ahead of the filter are the delayed ones and those that
  the raw stream still yields.  A scan pops some of them and puts them
  back: whole, as pieces that join without a gap, or as an operator
  whose `|` is fused with the closer behind it.

  Main declarations:
    * `ahead`
    * `Joined`
    * `PutBack`
    * `bytesAhead`
    * `typar_lookahead_keeps_stream`
-/

namespace Borzoi

namespace LexFilter

open Lexer
open Program
open FilterM

/- The tokens the filter will pop, in order. -/
def ahead
    (s : Filter) :
    List TokenTup :=
  s.delayed.map Delayed.tup ++ s.upcoming

/- The bytes of a token of the source. -/
def bytesOf
    (tt : TokenTup) :
    List Nat :=
  match tt.token with
  | .Real _ | .Err _ =>
      List.range' tt.span.start (tt.span.stop - tt.span.start)
  | .Eof | .Virtual _ | .Dummy _ _ => []

/- The bytes of the tokens of the source, in order. -/
def bytesAhead
    (tokens : List TokenTup) :
    List Nat :=
  tokens.flatMap bytesOf

def TokenContent.isVirtual
    (content : TokenContent) :
    Bool :=
  match content with
  | .Virtual _ => true
  | _ => false

/- The virtual tokens among the given ones. -/
def virtuals
    (tokens : List TokenTup) :
    List TokenTup :=
  tokens.filter fun tt => tt.token.isVirtual

/-
  The tokens that the unwinding rewrites: the angle brackets that carry
  a flag, and the operators glued to one.
-/
def isAngleToken
    (content : TokenContent) :
    Bool :=
  match content with
  | .Real .LQuote | .Real .GreaterRBrack | .Real (.Greater _) => true
  | .Real (.Op text) =>
      isOpenerOp text || text == ">:".toList ||
        (typarsCloseOpSplit text).isSome
  | _ => false

/-
  Pieces that follow each other without a gap, in bytes and in
  positions.
-/
def Joined : Nat → Pos → List TokenTup → Nat → Pos → Prop
  | lo, pos, [], hi, stop => lo = hi ∧ pos = stop
  | lo, pos, piece :: pieces, hi, stop =>
      piece.span.start = lo ∧ lo < piece.span.stop ∧ piece.start = pos ∧
        Joined piece.span.stop piece.stop pieces hi stop

/- A piece on one line, as wide as its bytes. -/
structure Flat
    (piece : TokenTup) :
    Prop where
  real : piece.token.isReal = true
  width : piece.stop = ⟨piece.start.line,
    piece.start.col + (piece.span.stop - piece.span.start)⟩

/-
  The tokens before and after they were put back.  `app` inserts the
  application virtual, and only a scan that succeeded does so.
-/
inductive PutBack
    (res : Bool) :
    List TokenTup → List TokenTup → Prop
  | nil : PutBack res [] []
  | whole
      {tt : TokenTup} {before after : List TokenTup}
      (hRest : PutBack res before after) :
      PutBack res (tt :: before) (tt :: after)
  | pieces
      {tt : TokenTup} {pieces before after : List TokenTup}
      (hAngle : isAngleToken tt.token = true)
      (hJoined : Joined tt.span.start tt.start pieces tt.span.stop tt.stop)
      (hFlat : ∀ piece ∈ pieces, Flat piece)
      (hRest : PutBack res before after) :
      PutBack res (tt :: before) (pieces ++ after)
  | retyped
      {tt : TokenTup} {flag : Bool} {before after : List TokenTup}
      (hGreater : tt.token = .Real (.Greater flag))
      (hRest : PutBack res before after) :
      PutBack res (tt :: before)
        (tt.withToken (.Real (.Greater res)) :: after)
  | fused
      {op closer : TokenTup} {pieces before after : List TokenTup}
      (hAngle : isAngleToken op.token = true)
      (hCloser : closer.token = .Real .RBrack ∨
        closer.token = .Real .RBrace)
      (hTouches : closer.span.start = op.span.stop)
      (hJoined : Joined op.span.start op.start pieces closer.span.stop
        closer.stop)
      (hReal : ∀ piece ∈ pieces, piece.token.isReal = true)
      (hRest : PutBack res before after) :
      PutBack res (op :: closer :: before) (pieces ++ after)
  | app
      {paren : TokenTup} {before after : List TokenTup}
      (hRes : res = true)
      (hParen : paren.token = .Real .LParen)
      (hRest : PutBack res (paren :: before) (paren :: after)) :
      PutBack res (paren :: before)
        (paren.asVirtual .HighPrecedenceParenApp :: paren :: after)

section Pieces

variable {tt : TokenTup} {lo mid hi : Nat} {pos midPos stop : Pos}
variable {xs ys : List TokenTup}

theorem Joined.append
    (hFirst : Joined lo pos xs mid midPos)
    (hSecond : Joined mid midPos ys hi stop) :
    Joined lo pos (xs ++ ys) hi stop := by
  induction xs generalizing lo pos with
  | nil =>
      rcases hFirst with ⟨rfl, rfl⟩
      exact hSecond
  | cons x xs ih =>
      rcases hFirst with ⟨hStart, hLt, hPos, hRest⟩
      exact ⟨hStart, hLt, hPos, ih hRest⟩

theorem Joined.le
    (hJoined : Joined lo pos xs hi stop) :
    lo ≤ hi := by
  induction xs generalizing lo pos with
  | nil => exact Nat.le_of_eq hJoined.1
  | cons x xs ih =>
      rcases hJoined with ⟨_, hLt, _, hRest⟩
      exact Nat.le_trans (Nat.le_of_lt hLt) (ih hRest)

theorem bytesOf_real
    (hReal : tt.token.isReal = true) :
    bytesOf tt =
      List.range' tt.span.start (tt.span.stop - tt.span.start) := by
  unfold bytesOf
  cases hToken : tt.token with
  | Real token => rfl
  | Err e => rfl
  | _ =>
      rw [hToken] at hReal
      cases hReal

theorem isReal_of_isAngleToken
    (hAngle : isAngleToken tt.token = true) :
    tt.token.isReal = true := by
  cases hToken : tt.token with
  | Real token => rfl
  | _ =>
      rw [hToken] at hAngle
      cases hAngle

theorem virtuals_append
    (xs ys : List TokenTup) :
    virtuals (xs ++ ys) = virtuals xs ++ virtuals ys :=
  List.filter_append xs ys

theorem virtuals_of_real
    (hReal : ∀ x ∈ xs, x.token.isReal = true) :
    virtuals xs = [] := by
  unfold virtuals
  rw [List.filter_eq_nil_iff]
  intro x hMem hVirtual
  have hTrue := hReal x hMem
  cases hToken : x.token with
  | Virtual virt =>
      rw [hToken] at hTrue
      cases hTrue
  | _ =>
      rw [hToken] at hVirtual
      cases hVirtual

/- The bytes of joined pieces are those from the first to the last. -/
theorem Joined.bytes
    (hJoined : Joined lo pos xs hi stop)
    (hReal : ∀ x ∈ xs, x.token.isReal = true) :
    bytesAhead xs = List.range' lo (hi - lo) := by
  induction xs generalizing lo pos with
  | nil =>
      rw [hJoined.1, Nat.sub_self]
      rfl
  | cons x xs ih =>
      rcases hJoined with ⟨hStart, hLt, _, hRest⟩
      have hTail := ih hRest fun y hMem => hReal y (List.mem_cons_of_mem _ hMem)
      have hLe := hRest.le
      have hSplit : hi - lo = (x.span.stop - lo) + (hi - x.span.stop) := by
        omega
      have hNext : lo + 1 * (x.span.stop - lo) = x.span.stop := by
        omega
      unfold bytesAhead at hTail ⊢
      rw [List.flatMap_cons, hTail, bytesOf_real (hReal x List.mem_cons_self),
        hStart, hSplit, ← List.range'_append, hNext]

theorem greaters_joined
    (res : Bool)
    (count : Nat) :
    Joined tt.span.start tt.start (greaters tt res count)
      (tt.span.start + count) ⟨tt.start.line, tt.start.col + count⟩ := by
  induction count with
  | zero => exact ⟨rfl, rfl⟩
  | succ count ih =>
      unfold greaters at ih ⊢
      rw [List.range_succ, List.map_append]
      apply ih.append
      exact ⟨rfl, Nat.lt_succ_self _, rfl, rfl, rfl⟩

theorem greaters_flat
    {res : Bool}
    {count : Nat} :
    ∀ piece ∈ greaters tt res count, Flat piece := by
  intro piece hMem
  rcases List.mem_map.1 hMem with ⟨i, _, rfl⟩
  refine ⟨rfl, ?_⟩
  unfold greaterTup
  dsimp only
  rw [Nat.add_sub_cancel_left, Nat.add_assoc]

end Pieces

section Cuts

variable {res : Bool} {tt : TokenTup}

/- A token as wide as its text. -/
structure Spelled
    (tt : TokenTup) :
    Prop where
  cut : ∀ token n, tt.token = .Real token →
    cutLength token = some n →
    tt.stop = ⟨tt.start.line, tt.start.col + n⟩ ∧
      tt.span.stop = tt.span.start + n
  ordered : tt.span.start ≤ tt.span.stop

/- The pieces of one token join to it. -/
theorem Cut.putBack
    {pieces before after : List TokenTup}
    (hCut : Cut res tt pieces)
    (hSpelled : Spelled tt)
    (hRest : PutBack res before after) :
    PutBack res (tt :: before) (pieces ++ after) := by
  cases hCut with
  | keep => exact .whole hRest
  | greater hToken => exact .retyped hToken hRest
  | @pair token head tail hToken hPair hCol =>
      have hLength : cutLength token = some 2 := by
        cases hPair <;> rfl
      have hAngle : isAngleToken tt.token = true := by
        rw [hToken]
        cases hPair <;> rfl
      rcases hSpelled.cut token 2 hToken hLength with ⟨hStop, hSpan⟩
      refine .pieces hAngle ?_ ?_ hRest
      · refine ⟨rfl, Nat.lt_succ_self _, rfl, rfl, ?_, ?_, rfl, rfl⟩
        · change tt.span.start + 1 < tt.span.stop
          omega
        · unfold pairTail pairHead
          rw [hStop]
          rfl
      · intro piece hMem
        rcases List.mem_pair.1 hMem with rfl | rfl
        · refine ⟨rfl, ?_⟩
          unfold pairHead
          dsimp only
          rw [hStop, Nat.add_sub_cancel_left]
          rfl
        · refine ⟨rfl, ?_⟩
          unfold pairTail
          dsimp only
          rw [hStop, hSpan]
          have hOne : tt.span.start + 2 - (tt.span.start + 1) = 1 := by
            omega
          rw [hOne]
  | @close text count hToken hSplit =>
      rcases typarsCloseOpSplit_tail hSplit with ⟨_, hCount, hTail⟩
      rcases hSpelled.cut _ _ hToken rfl with ⟨hStop, hSpan⟩
      have hAll : text.length = count := by
        have hLength := congrArg List.length (typarsCloseTail_none hTail)
        rw [List.length_drop, List.length_nil] at hLength
        omega
      rw [hAll] at hStop hSpan
      have hAngle : isAngleToken tt.token = true := by
        rw [hToken]
        simp [isAngleToken, hSplit]
      refine .pieces hAngle ?_ greaters_flat hRest
      rw [hStop, hSpan]
      exact greaters_joined res count
  | @closeTail text count tail hToken hSplit =>
      rcases typarsCloseOpSplit_tail hSplit with ⟨_, hCount, hTail⟩
      rcases hSpelled.cut _ _ hToken rfl with ⟨hStop, hSpan⟩
      have hMore := (typarsCloseTail_piece hTail).2
      have hLess : count < text.length := by
        have hPos := List.length_pos_iff.2 hMore
        rw [List.length_drop] at hPos
        omega
      have hAngle : isAngleToken tt.token = true := by
        rw [hToken]
        simp [isAngleToken, hSplit]
      refine .pieces hAngle ?_ ?_ hRest
      · apply (greaters_joined res count).append
        refine ⟨rfl, ?_, rfl, rfl, rfl⟩
        unfold closePlain
        dsimp only
        omega
      · intro piece hMem
        rcases List.mem_append.1 hMem with hGreater | hLast
        · exact greaters_flat piece hGreater
        · rw [List.mem_singleton.1 hLast]
          refine ⟨rfl, ?_⟩
          unfold closePlain
          dsimp only
          rw [hStop, hSpan]
          congr 1
          omega

variable {after before : List TokenTup}

theorem Fused.putBack
    {next : TokenTup}
    {text : List Char}
    {count : Nat}
    (hFused : Fused tt next text count)
    (hSpelled : Spelled tt)
    (hNext : Spelled next)
    (hRest : PutBack res before after) :
    PutBack res (tt :: next :: before)
      (greaters tt res count ++ [closeFused tt next count] ++ after) := by
  rcases typarsCloseOpSplit_tail hFused.split with ⟨_, hCount, hTail⟩
  rcases hSpelled.cut _ _ hFused.token rfl with ⟨_, hSpan⟩
  have hTouches := hFused.touches
  have hOrdered := hNext.ordered
  have hLess : count < text.length := by
    have hPos := List.length_pos_iff.2 (typarsCloseTail_piece hTail).2
    rw [List.length_drop] at hPos
    omega
  have hAngle : isAngleToken tt.token = true := by
    rw [hFused.token]
    simp [isAngleToken, hFused.split]
  refine .fused hAngle hFused.closer hTouches ?_ ?_ hRest
  · apply (greaters_joined res count).append
    refine ⟨rfl, ?_, rfl, rfl, rfl⟩
    unfold closeFused
    dsimp only
    omega
  · intro piece hMem
    rcases List.mem_append.1 hMem with hGreater | hLast
    · exact (greaters_flat piece hGreater).real
    · rw [List.mem_singleton.1 hLast]
      rfl

theorem PutBack.refl
    (tokens : List TokenTup) :
    PutBack res tokens tokens := by
  induction tokens with
  | nil => exact .nil
  | cons tt tokens ih => exact .whole ih

theorem Recut.putBack
    {pending pending' : List Delayed}
    (hRecut : Recut res pending pending')
    (hSpelled : ∀ d ∈ pending, Spelled d.tup) :
    PutBack res (pending.map Delayed.tup) (pending'.map Delayed.tup) := by
  have hFresh : ∀ tokens : List TokenTup,
      (tokens.map fresh).map Delayed.tup = tokens := by
    intro tokens
    rw [List.map_map]
    exact List.map_id tokens
  induction hRecut with
  | refl pending => exact .refl _
  | @cut tt mark pieces pending pending' hCut _ ih =>
      rw [List.map_cons, List.map_append, hFresh]
      apply hCut.putBack (hSpelled _ List.mem_cons_self)
      exact ih fun d hMem => hSpelled d (List.mem_cons_of_mem _ hMem)
  | @fuse tt next mark mark' text count pending pending' hFused _ ih =>
      rw [List.map_cons, List.map_cons, List.map_append, hFresh]
      have hNext := hSpelled ⟨next, mark'⟩ (by simp)
      apply hFused.putBack (hSpelled _ List.mem_cons_self) hNext
      exact ih fun d hMem => hSpelled d
        (List.mem_cons_of_mem _ (List.mem_cons_of_mem _ hMem))
  | @app d pending hRes hParen =>
      exact .app hRes hParen (.refl _)

/- The bytes of the source are the same, in the same order. -/
theorem PutBack.bytes
    (hBack : PutBack res before after)
    (hOrdered : ∀ tt ∈ before, tt.span.start ≤ tt.span.stop) :
    bytesAhead after = bytesAhead before := by
  induction hBack with
  | nil => rfl
  | @whole tt before after _ ih =>
      have hRest := ih fun x hMem =>
        hOrdered x (List.mem_cons_of_mem _ hMem)
      unfold bytesAhead at hRest ⊢
      rw [List.flatMap_cons, List.flatMap_cons, hRest]
  | @pieces tt pieces before after hAngle hJoined hFlat _ ih =>
      have hRest := ih fun x hMem =>
        hOrdered x (List.mem_cons_of_mem _ hMem)
      have hPieces := hJoined.bytes fun x hMem => (hFlat x hMem).real
      unfold bytesAhead at hRest hPieces ⊢
      rw [List.flatMap_append, List.flatMap_cons, hRest, hPieces,
        bytesOf_real (isReal_of_isAngleToken hAngle)]
  | @retyped tt flag before after hGreater _ ih =>
      have hRest := ih fun x hMem =>
        hOrdered x (List.mem_cons_of_mem _ hMem)
      unfold bytesAhead at hRest ⊢
      rw [List.flatMap_cons, List.flatMap_cons, hRest]
      congr 1
      unfold bytesOf
      rw [hGreater]
      rfl
  | @fused op closer pieces before after hAngle hCloser hTouches hJoined
      hReal _ ih =>
      have hRest := ih fun x hMem =>
        hOrdered x (List.mem_cons_of_mem _ (List.mem_cons_of_mem _ hMem))
      have hPieces := hJoined.bytes hReal
      have hOp := hOrdered op List.mem_cons_self
      have hNext := hOrdered closer
        (List.mem_cons_of_mem _ List.mem_cons_self)
      have hCloserReal : closer.token.isReal = true := by
        rcases hCloser with hToken | hToken <;> rw [hToken] <;> rfl
      have hSplit : closer.span.stop - op.span.start =
          (op.span.stop - op.span.start) +
            (closer.span.stop - closer.span.start) := by
        omega
      have hMiddle : op.span.start + 1 * (op.span.stop - op.span.start) =
          closer.span.start := by
        omega
      unfold bytesAhead at hRest hPieces ⊢
      rw [List.flatMap_append, List.flatMap_cons, List.flatMap_cons, hRest,
        hPieces, bytesOf_real (isReal_of_isAngleToken hAngle),
        bytesOf_real hCloserReal, ← List.append_assoc, hSplit,
        ← List.range'_append, hMiddle]
  | @app paren before after _ _ _ ih =>
      have hRest := ih hOrdered
      unfold bytesAhead at hRest ⊢
      rw [List.flatMap_cons, hRest]
      rfl

/- A scan that failed inserts no virtual token. -/
theorem PutBack.virtuals_eq
    (hBack : PutBack res before after)
    (hFailed : res = false) :
    virtuals after = virtuals before := by
  induction hBack with
  | nil => rfl
  | @whole tt before after _ ih =>
      unfold virtuals at ih ⊢
      rw [List.filter_cons, List.filter_cons, ih]
  | @pieces tt pieces before after hAngle _ hFlat _ ih =>
      have hSelf : ∀ x ∈ [tt], x.token.isReal = true := by
        intro x hMem
        rw [List.mem_singleton.1 hMem]
        exact isReal_of_isAngleToken hAngle
      rw [virtuals_append, virtuals_of_real fun x hMem => (hFlat x hMem).real,
        ih, ← List.singleton_append, virtuals_append,
        virtuals_of_real hSelf]
  | @retyped tt flag before after hGreater _ ih =>
      unfold virtuals at ih ⊢
      rw [List.filter_cons, List.filter_cons, ih, hGreater]
      rfl
  | @fused op closer pieces before after hAngle hCloser _ _ hReal _ ih =>
      have hPair : ∀ x ∈ [op, closer], x.token.isReal = true := by
        intro x hMem
        rcases List.mem_pair.1 hMem with rfl | rfl
        · exact isReal_of_isAngleToken hAngle
        · rcases hCloser with hToken | hToken <;> rw [hToken] <;> rfl
      have hFront : op :: closer :: before = [op, closer] ++ before := rfl
      rw [virtuals_append, virtuals_of_real hReal, ih, hFront,
        virtuals_append, virtuals_of_real hPair]
  | app hRes _ _ _ =>
      rw [hFailed] at hRes
      cases hRes

end Cuts

------------------------------------------------------------
-- Tokens Ahead
------------------------------------------------------------

/- The tokens of a stream lexed from the source are spelled out. -/
theorem Core.upcomingFrom_spelled
    {s : Core}
    {raw : List RawItem}
    (hTracked : Tracked s)
    (hLines : linesStartChars s.source = true)
    (hFits : fits s.source s.lastByte raw = true) :
    ∀ tt ∈ s.upcomingFrom raw, Spelled tt := by
  have hEof : ∀ (s : Core) pos, Spelled (s.eofTup pos) := by
    intro s pos
    constructor
    · intro token n hToken
      cases hToken
    · exact Nat.le_refl _
  induction raw generalizing s with
  | nil =>
      intro tt hMem
      rw [upcomingFrom] at hMem
      split at hMem
      · cases hMem
      · split at hMem
        · rw [List.mem_singleton.1 hMem]
          exact hEof _ _
        · rw [List.mem_singleton.1 hMem]
          exact hEof _ _
  | cons item rest ih =>
      intro tt hMem
      rw [fits] at hFits
      simp only [Bool.and_eq_true, decide_eq_true_eq] at hFits
      rcases hFits with
        ⟨⟨⟨⟨⟨⟨-, hOrdered⟩, -⟩, -⟩, hCovers⟩, hDots⟩, hRest⟩
      rw [upcomingFrom] at hMem
      split at hMem
      · rw [List.mem_singleton.1 hMem]
        exact hEof _ _
      · next start stop s₁ hMove =>
          rcases Core.advanceAcross_crossed hTracked hMove with
            ⟨mid, hCross⟩
          have hSource : s₁.source = s.source := by
            rw [Core.advanceAcross_frame hMove]
            rfl
          have hLines' := hLines
          rw [← hCross.second.lastByte, ← hSource] at hRest
          rw [← hSource] at hLines'
          have hTail := ih hCross.second.tracked hLines' hRest
          split at hMem
          · exact hTail tt hMem
          · next content hContent =>
              rcases List.mem_cons.1 hMem with rfl | hMem'
              · have hSound := hCross.sound hLines hCovers hDots hContent
                constructor
                · intro token n hToken hCut
                  rcases hSound.cut token n hToken hCut with
                    ⟨hStop, hSpan, _⟩
                  exact ⟨hStop, hSpan⟩
                · exact hOrdered
              · exact hTail tt hMem'

section Scans

variable {source : List UInt8} {s : Filter} {t : Abs}

theorem Sim.upcoming_spelled
    (hSim : Sim True source s t) :
    ∀ tt ∈ s.upcoming, Spelled tt := by
  rcases hSim.lexed trivial with ⟨hLines, hFits⟩
  have hText : s.bare.source = source := hSim.text
  apply Core.upcomingFrom_spelled hSim.tracked
  · rw [hText]
    exact hLines
  · rw [hText]
    exact hFits

theorem Sim.pending_spelled
    (hSim : Sim True source s t)
    (hOrdered : ∀ d ∈ s.delayed, d.tup.span.start ≤ d.tup.span.stop) :
    ∀ d ∈ t.pending, Spelled d.tup := by
  intro d hMem
  rw [hSim.pending] at hMem
  rcases List.mem_append.1 hMem with hDelayed | hLater
  · have hSound := (hSim.tokens d hDelayed).2.2 trivial
    constructor
    · intro token n hToken hCut
      rcases hSound.cut token n hToken hCut with ⟨hStop, hSpan, _⟩
      exact ⟨hStop, hSpan⟩
    · exact hOrdered d hDelayed
  · rcases List.mem_map.1 hLater with ⟨tt, hTup, rfl⟩
    exact hSim.upcoming_spelled tt hTup

theorem Sim.ahead_eq
    (hSim : Sim True source s t) :
    t.pending.map Delayed.tup = ahead s := by
  rw [hSim.pending, List.map_append, List.map_map]
  unfold ahead
  congr 1
  exact List.map_id s.upcoming

theorem typar_lookahead_keeps_stream
    (source : List UInt8)
    (s : Filter)
    (t : Abs)
    (indentation : Bool)
    (head : TokenTup)
    (hSim : Sim True source s t)
    (hUnmarked : Unmarked s.delayed)
    (hOrdered : ∀ d ∈ s.delayed, d.tup.span.start ≤ d.tup.span.stop) :
    ∃ res s',
      runFilter (peekAdjacentTypars indentation head) s = .ok (res, s') ∧
        PutBack res (ahead s) (ahead s') ∧
        bytesAhead (ahead s') = bytesAhead (ahead s) ∧
        (res = false → virtuals (ahead s') = virtuals (ahead s)) := by
  have hFresh : Unmarked t.pending := by
    intro d hMem
    rw [hSim.pending] at hMem
    rcases List.mem_append.1 hMem with hDelayed | hLater
    · exact hUnmarked d hDelayed
    · rcases List.mem_map.1 hLater with ⟨tt, _, rfl⟩
      rfl
  have hSpelled := hSim.pending_spelled hOrdered
  have hWp : wp True (Bounded source) (peekAdjacentTypars indentation head)
      (fun res u => Recut res t.pending u.pending) t :=
    wp_peekAdjacentTypars hFresh fun _ _ hScan => hScan.recut
  have hRun := hSim.run hWp
  unfold Answers Prog.Answers at hRun
  split at hRun
  · next res s' hReply =>
      rcases hRun with ⟨u, hSim', hRecut⟩
      have hBack := hRecut.putBack hSpelled
      rw [hSim.ahead_eq, hSim'.ahead_eq] at hBack
      refine ⟨res, s', hReply, hBack, ?_, hBack.virtuals_eq⟩
      apply hBack.bytes
      intro tt hMem
      rw [← hSim.ahead_eq] at hMem
      rcases List.mem_map.1 hMem with ⟨d, hPending, rfl⟩
      exact (hSpelled d hPending).ordered
  · exact absurd trivial hRun.1

end Scans

/- A token on the first line of an ASCII text. -/
def onFirstLine
    (token : Token)
    (start stop : Nat) :
    TokenTup :=
  ⟨.Real token, ⟨start, stop⟩, ⟨1, start⟩, ⟨1, stop⟩⟩

/- The filter behind `f` in the text `f<a>|]`. -/
def behindFused : Filter :=
  Filter.new [102, 60, 97, 62, 124, 93] .V8_0
    [⟨.ok (.Less false), ⟨1, 2⟩⟩, ⟨.ok (.Ident "a".toList), ⟨2, 3⟩⟩,
      ⟨.ok (.Op ">|".toList), ⟨3, 5⟩⟩, ⟨.ok .RBrack, ⟨5, 6⟩⟩]

/- The filter behind `f` in the text `f</;;`. -/
def behindSlash : Filter :=
  Filter.new [102, 60, 47, 59, 59] .V8_0
    [⟨.ok (.Op "</".toList), ⟨1, 3⟩⟩, ⟨.ok .SemiSemi, ⟨3, 5⟩⟩]

/- The outcome of a scan behind `f`, and the tokens then ahead. -/
def scanned
    (s : Filter) :
    Option (Bool × List TokenTup) :=
  match runFilter
      (peekAdjacentTypars false (onFirstLine (.Ident "f".toList) 0 1)) s with
  | .ok (res, s') => some (res, ahead s')
  | .error _ => none

theorem typar_lookahead_keeps_stream_fused :
    ∃ res s',
      runFilter
          (peekAdjacentTypars false (onFirstLine (.Ident "f".toList) 0 1))
          behindFused = .ok (res, s') ∧
        PutBack res (ahead behindFused) (ahead s') ∧
        bytesAhead (ahead s') = bytesAhead (ahead behindFused) := by
  have hScan := typar_lookahead_keeps_stream [102, 60, 97, 62, 124, 93]
    behindFused _ false (onFirstLine (.Ident "f".toList) 0 1)
    (Sim.initial fun _ => ⟨by decide, by decide⟩)
    (fun _ hMem => by cases hMem) (fun _ hMem => by cases hMem)
  rcases hScan with ⟨res, s', hRun, hBack, hBytes, _⟩
  exact ⟨res, s', hRun, hBack, hBytes⟩

/-
  No token that comes back starts where the `]` of `f<a>|]` does, and
  the `</` of `f</;;` comes back cut although its scan fails.
-/
theorem typar_lookahead_fuses_and_cuts :
    scanned behindFused = some (true,
        [onFirstLine (.Less false) 1 2,
          onFirstLine (.Ident "a".toList) 2 3,
          onFirstLine (.Greater true) 3 4,
          onFirstLine .BarRBrack 4 6,
          ⟨.Eof, ⟨6, 6⟩, ⟨1, 6⟩, ⟨1, 6⟩⟩]) ∧
      onFirstLine .RBrack 5 6 ∈ ahead behindFused ∧
      scanned behindSlash = some (false,
        [onFirstLine (.Less false) 1 2,
          onFirstLine (.Op "/".toList) 2 3,
          onFirstLine .SemiSemi 3 5,
          ⟨.Eof, ⟨5, 5⟩, ⟨1, 5⟩, ⟨1, 5⟩⟩]) ∧
      onFirstLine (.Op "</".toList) 1 3 ∈ ahead behindSlash := by
  decide

end LexFilter

end Borzoi
