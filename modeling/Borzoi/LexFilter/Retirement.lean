import Borzoi.LexFilter.Accounts
import Borzoi.LexFilter.Runs

/-
  What an iteration does to the raw tokens.
-/

namespace Borzoi

namespace LexFilter

open Lexer
open Program
open Text

section Items

variable {tt : TokenTup} {token : Token}

theorem rawOf_real
    (hToken : tt.token = .Real token) :
    rawOf tt = some ⟨.ok token, tt.span⟩ := by
  rw [rawOf, hToken]

theorem raws_cons
    (d : Delayed)
    (rest : List Delayed) :
    raws (d :: rest) = (rawOf d.tup).toList ++ raws rest := by
  unfold raws
  rw [List.filterMap_cons]
  cases rawOf d.tup <;> rfl

theorem raws_append
    (xs ys : List Delayed) :
    raws (xs ++ ys) = raws xs ++ raws ys :=
  List.filterMap_append

/- A virtual has no raw item. -/
theorem raws_virtual
    (virt : Virtual)
    (rest : List Delayed) :
    raws (fresh (tt.asVirtual virt) :: rest) = raws rest :=
  rfl

theorem raws_real
    {d : Delayed}
    {rest : List Delayed}
    (hToken : d.tup.token = .Real token) :
    raws (d :: rest) = ⟨.ok token, d.tup.span⟩ :: raws rest := by
  rw [raws_cons, rawOf_real hToken]
  rfl

end Items

section Cuts

variable {tt : TokenTup} {token : Token} {res : Bool}

variable {after text : List Char} {count : Nat} {i : RawItem} {span : Span}
variable {head tail : Token}

theorem isCut_of_length
    {n : Nat}
    (hLength : cutLength token = some n) :
    isCut ⟨.ok token, span⟩ = true :=
  Option.isSome_iff_exists.2 ⟨n, hLength⟩

theorem Piece.of_token
    (hToken : isPieceToken token = true)
    (hStart : i.span.start ≤ span.start)
    (hStop : span.stop ≤ i.span.stop)
    (hTail : ∀ text, token = .Op text → span.stop = i.span.stop)
    (hInner : token = .RBrack → i.span.start < span.start) :
    Piece i ⟨.ok token, span⟩ := by
  refine ⟨⟨token, rfl, hToken⟩, hStart, hStop, ?_, ?_⟩
  · intro text hOp
    cases hOp
    exact hTail text rfl
  · intro hBrack
    cases hBrack
    exact hInner rfl

/- A token cut in two. -/
theorem Resplit.halves
    {n mid : Nat}
    (hCut : cutLength token = some n)
    (hHead : isPieceToken head = true)
    (hTail : isPieceToken tail = true)
    (hHeadOp : ∀ text, head ≠ .Op text)
    (hHeadBrack : head ≠ .RBrack)
    (hHeadFits : Fitting ⟨.ok head, ⟨span.start, mid⟩⟩)
    (hTailFits : Fitting ⟨.ok tail, ⟨mid, span.stop⟩⟩) :
    Resplit [⟨.ok token, span⟩]
      [⟨.ok head, ⟨span.start, mid⟩⟩, ⟨.ok tail, ⟨mid, span.stop⟩⟩] := by
  have hStart : span.start < mid := hHeadFits.nonempty
  have hStop : mid < span.stop := hTailFits.nonempty
  refine .tile (isCut_of_length hCut) ?_ ?_
  · exact ⟨rfl, hStart, rfl, hStop, rfl⟩
  · intro p hMem
    rcases List.mem_pair.1 hMem with rfl | rfl
    · refine ⟨.of_token hHead (Nat.le_refl _) (Nat.le_of_lt hStop) ?_ ?_,
        hHeadFits⟩
      · exact fun text hOp => absurd hOp (hHeadOp text)
      · exact fun hBrack => absurd hBrack hHeadBrack
    · exact ⟨.of_token hTail (Nat.le_of_lt hStart) (Nat.le_refl _)
        (fun _ _ => rfl) (fun _ => hStart), hTailFits⟩

/- The two halves of a token cut by a scan. -/
theorem PairCut.resplit
    (hPair : PairCut res token head tail)
    (hFits : Fitting ⟨.ok token, tt.span⟩) :
    Resplit [⟨.ok token, tt.span⟩]
      (raws [fresh (pairHead tt head), fresh (pairTail tt tail)]) := by
  have hLength : cutLength token = some 2 := by
    cases hPair <;> rfl
  have hStop := hFits.cut token 2 rfl hLength
  dsimp only at hStop
  have hHead : isPieceToken head = true ∧ cutLength head = none ∧
      (∀ text, head ≠ .Op text) ∧ head ≠ .RBrack := by
    cases hPair <;> exact ⟨rfl, rfl, nofun, nofun⟩
  have hTail : isPieceToken tail = true ∧
      (∀ n, cutLength tail = some n → n = 1) ∧
      ∀ text, tail ≠ .IntDotDot text := by
    cases hPair <;> refine ⟨rfl, ?_, nofun⟩ <;>
      · intro n hn
        cases hn <;> rfl
  rcases hHead with ⟨hHeadPiece, hHeadCut, hHeadOp, hHeadBrack⟩
  rcases hTail with ⟨hTailPiece, hTailCut, hTailDots⟩
  have hTailFits : Fitting
      ⟨.ok tail, ⟨tt.span.start + 1, tt.span.stop⟩⟩ := by
    refine ⟨?_, ?_, ?_⟩
    · dsimp only
      omega
    · intro token' n hToken hn
      cases hToken
      rw [hTailCut n hn]
      exact hStop
    · intro text hToken
      cases hToken
      exact absurd rfl (hTailDots text)
  exact .halves hLength hHeadPiece hTailPiece hHeadOp hHeadBrack
    (.of_uncut (Nat.lt_succ_self _) hHeadCut) hTailFits

/- The `>`s of a closing operator tile their part of it. -/
theorem greaters_tile
    (count : Nat) :
    TilesSpan tt.span.start (raws ((greaters tt res count).map fresh))
      (tt.span.start + count) := by
  induction count with
  | zero =>
      rfl
  | succ count ih =>
      unfold greaters at *
      rw [List.range_succ, List.map_append, List.map_append, raws_append]
      exact Tiles.append ih ⟨rfl, Nat.lt_succ_self _, rfl⟩

theorem greaters_pieces
    (hStart : i.span.start = tt.span.start)
    (hStop : tt.span.start + count ≤ i.span.stop) :
    ∀ p ∈ raws ((greaters tt res count).map fresh),
      Piece i p ∧ Fitting p := by
  intro p hMem
  rcases List.mem_filterMap.1 hMem with ⟨d, hd, hp⟩
  rcases List.mem_map.1 hd with ⟨piece, hPiece, rfl⟩
  rcases List.mem_map.1 hPiece with ⟨k, hk, rfl⟩
  have hLt := List.mem_range.1 hk
  cases hp
  refine ⟨?_, .of_uncut (Nat.lt_succ_self _) rfl⟩
  refine .of_token rfl ?_ ?_ nofun nofun
  · rw [hStart]
    exact Nat.le_add_right _ _
  · exact Nat.le_trans (Nat.add_le_add_left hLt _) hStop

theorem typarsCloseTail_piece
    (hTail : typarsCloseTail after = some (some token)) :
    isPieceToken token = true ∧ after ≠ [] := by
  unfold typarsCloseTail at hTail
  split at hTail
  case h_15 =>
    split at hTail
    · cases hTail
      exact ⟨rfl, nofun⟩
    · cases hTail
  all_goals
    cases hTail <;> exact ⟨rfl, nofun⟩

theorem typarsCloseTail_none
    (hTail : typarsCloseTail after = some none) :
    after = [] := by
  unfold typarsCloseTail at hTail
  split at hTail
  case h_15 =>
    split at hTail <;> cases hTail
  all_goals
    cases hTail <;> rfl

/- A closing operator and its tail. -/
theorem close_resplit
    (hFits : Fitting ⟨.ok (.Op text), tt.span⟩)
    (hSplit : typarsCloseOpSplit text = some ⟨count, none⟩) :
    Resplit [⟨.ok (.Op text), tt.span⟩]
      (raws ((greaters tt res count).map fresh)) := by
  rcases typarsCloseOpSplit_tail hSplit with ⟨-, hCount, hTail⟩
  have hStop : tt.span.stop = tt.span.start + text.length :=
    hFits.cut _ _ rfl rfl
  have hAll : text.length = count := by
    have hLength := congrArg List.length (typarsCloseTail_none hTail)
    rw [List.length_drop, List.length_nil] at hLength
    omega
  rw [hAll] at hStop
  refine .tile rfl ?_ ?_
  · rw [hStop]
    exact greaters_tile count
  · exact greaters_pieces rfl (Nat.le_of_eq hStop.symm)

theorem closeTail_resplit
    (hFits : Fitting ⟨.ok (.Op text), tt.span⟩)
    (hSplit : typarsCloseOpSplit text = some ⟨count, some tail⟩) :
    Resplit [⟨.ok (.Op text), tt.span⟩]
      (raws ((greaters tt res count ++ [closePlain tt count tail]).map
        fresh)) := by
  rcases typarsCloseOpSplit_tail hSplit with ⟨hOne, hCount, hTail⟩
  have hSpec := (typarsCloseOpSplit_spec hSplit).2 tail rfl
  rcases hSpec with ⟨hTailCut, hTailDots, -⟩
  rcases typarsCloseTail_piece hTail with ⟨hPiece, hMore⟩
  have hStop : tt.span.stop = tt.span.start + text.length :=
    hFits.cut _ _ rfl rfl
  have hLess : count < text.length := by
    have hPos := List.length_pos_iff.2 hMore
    rw [List.length_drop] at hPos
    omega
  have hTailFits : Fitting
      ⟨.ok tail, ⟨tt.span.start + count, tt.span.stop⟩⟩ := by
    refine ⟨?_, ?_, ?_⟩
    · dsimp only
      omega
    · intro token n hToken hn
      cases hToken
      have hLength := hTailCut n hn
      dsimp only
      omega
    · intro text' hToken
      cases hToken
      exact absurd rfl (hTailDots text')
  have hTailPiece : Piece ⟨.ok (.Op text), tt.span⟩
      ⟨.ok tail, ⟨tt.span.start + count, tt.span.stop⟩⟩ := by
    refine .of_token hPiece (Nat.le_add_right _ _) (Nat.le_refl _)
      (fun _ _ => rfl) ?_
    intro _
    dsimp only
    omega
  rw [List.map_append, raws_append]
  refine .tile rfl ?_ ?_
  · exact Tiles.append (greaters_tile count)
      ⟨rfl, hTailFits.nonempty, rfl⟩
  · intro p hMem
    rcases List.mem_append.1 hMem with hGreater | hLast
    · refine greaters_pieces rfl ?_ p hGreater
      dsimp only
      omega
    · rw [List.mem_singleton.1 hLast]
      exact ⟨hTailPiece, hTailFits⟩

/- A closing operator fused with the closer it touches. -/
theorem Fused.resplit
    {next : TokenTup}
    (res : Bool)
    (hFused : Fused tt next text count)
    (hFits : Fitting ⟨.ok (.Op text), tt.span⟩) :
    ∃ closer, next.token = .Real closer ∧
      Resplit [⟨.ok (.Op text), tt.span⟩, ⟨.ok closer, next.span⟩]
        (raws ((greaters tt res count ++
          [closeFused tt next count]).map fresh)) := by
  rcases typarsCloseOpSplit_tail hFused.split with ⟨-, hCount, hTail⟩
  have hMore := (typarsCloseTail_piece hTail).2
  have hStop : tt.span.stop = tt.span.start + text.length :=
    hFits.cut _ _ rfl rfl
  have hMid : tt.span.start + count < tt.span.stop := by
    have hPos := List.length_pos_iff.2 hMore
    rw [List.length_drop] at hPos
    omega
  have hCloses : ∃ closer, next.token = .Real closer ∧
      ClosesAs closer (fusedCloser next) := by
    rcases hFused.closer with hBrack | hBrace
    · exact ⟨_, hBrack, .inl ⟨rfl, if_pos hBrack⟩⟩
    · refine ⟨_, hBrace, .inr ⟨rfl, if_neg ?_⟩⟩
      rw [hBrace]
      exact nofun
  rcases hCloses with ⟨closer, hCloser, hAs⟩
  refine ⟨closer, hCloser, ?_⟩
  rw [List.map_append, raws_append]
  refine .fuse hAs hFused.touches.symm (greaters_tile count) hMid ?_
  exact greaters_pieces rfl (Nat.le_of_lt hMid)

/- What a scan puts back for one token. -/
theorem Cut.recuts
    {pieces : List TokenTup}
    (hCut : Cut res tt pieces)
    (hFits : ∀ x, rawOf tt = some x → Fitting x) :
    Recuts (rawOf tt).toList (raws (pieces.map fresh)) := by
  cases hCut with
  | keep =>
      have hSame : raws ([tt].map fresh) = (rawOf tt).toList := by
        rw [List.map_singleton, raws_cons]
        exact List.append_nil _
      rw [hSame]
      exact .refl _
  | pair hToken hPair hCol =>
      have hRaw := rawOf_real hToken
      rw [hRaw]
      exact (hPair.resplit (hFits _ hRaw)).recuts
  | greater hToken =>
      rw [rawOf_real hToken]
      exact Resplit.recuts (.retype (.inr ⟨_, _, rfl, rfl⟩))
  | close hToken hSplit =>
      have hRaw := rawOf_real hToken
      rw [hRaw]
      exact (close_resplit (hFits _ hRaw) hSplit).recuts
  | closeTail hToken hSplit =>
      have hRaw := rawOf_real hToken
      rw [hRaw]
      exact (closeTail_resplit (hFits _ hRaw) hSplit).recuts

/- What a scan leaves behind. -/
theorem Recut.recuts
    {pending pending' : List Delayed}
    (hRecut : Recut res pending pending')
    (hFits : ∀ x ∈ raws pending, Fitting x) :
    Recuts (raws pending) (raws pending') := by
  induction hRecut with
  | refl pending =>
      exact .refl _
  | cut hCut hRest ih =>
      rw [raws_cons] at hFits ⊢
      rw [raws_append]
      refine Recuts.both (hCut.recuts ?_) (ih ?_)
      · intro x hx
        refine hFits x (List.mem_append_left _ ?_)
        exact Option.mem_toList.2 hx
      · exact fun x hx => hFits x (List.mem_append_right _ hx)
  | @fuse tt next mark mark' text count pending pending' hFused hRest
      ih =>
      have hOp : raws (⟨tt, mark⟩ :: ⟨next, mark'⟩ :: pending) =
          ⟨.ok (.Op text), tt.span⟩ ::
            raws (⟨next, mark'⟩ :: pending) := raws_real hFused.token
      rw [hOp] at hFits ⊢
      rcases hFused.resplit res (hFits _ List.mem_cons_self) with
        ⟨closer, hCloser, hSplit⟩
      have hNext : raws (⟨next, mark'⟩ :: pending) =
          ⟨.ok closer, next.span⟩ :: raws pending := raws_real hCloser
      rw [hNext] at hFits ⊢
      rw [raws_append]
      have hRest := ih fun x hx => hFits x
        (List.mem_cons_of_mem _ (List.mem_cons_of_mem _ hx))
      exact hSplit.recuts.both hRest
  | app hRes hParen =>
      exact .refl _

/- The halves of a glued token. -/
theorem Glued.recuts
    {first second : TokenTup}
    (hGlued : Glued tt first second)
    (hFits : ∀ x, rawOf tt = some x → Fitting x) :
    Recuts (rawOf tt).toList (raws [fresh first, fresh second]) := by
  refine Resplit.recuts ?_
  cases hGlued with
  | @quoteDot token close hToken hKind hByte hCol =>
      have hRaw := rawOf_real hToken
      have hFit := hFits _ hRaw
      rw [hRaw]
      have hLength : ∃ n, 2 ≤ n ∧ cutLength token = some n := by
        rcases hKind with ⟨rfl, -⟩ | ⟨rfl, -⟩
        · exact ⟨3, by decide, rfl⟩
        · exact ⟨4, by decide, rfl⟩
      have hClose : isPieceToken close = true ∧ cutLength close = none ∧
          (∀ text, close ≠ .Op text) ∧ close ≠ .RBrack := by
        rcases hKind with ⟨-, rfl⟩ | ⟨-, rfl⟩ <;>
          exact ⟨rfl, rfl, nofun, nofun⟩
      rcases hLength with ⟨n, hn, hCut⟩
      have hStop := hFit.cut _ _ rfl hCut
      dsimp only at hStop
      refine .halves hCut hClose.1 rfl hClose.2.2.1 hClose.2.2.2
        (.of_uncut ?_ hClose.2.1) (.of_uncut ?_ rfl)
      · dsimp only
        omega
      · dsimp only
        omega
  | @quoteBar token close hToken hKind hByte hCol =>
      have hRaw := rawOf_real hToken
      have hFit := hFits _ hRaw
      rw [hRaw]
      have hLength : ∃ n, 4 ≤ n ∧ cutLength token = some n := by
        rcases hKind with ⟨rfl, -⟩ | ⟨rfl, -⟩
        · exact ⟨4, by decide, rfl⟩
        · exact ⟨5, by decide, rfl⟩
      rcases hLength with ⟨n, hn, hCut⟩
      have hStop := hFit.cut _ _ rfl hCut
      dsimp only at hStop
      refine .quoteBar (isCut_of_length hCut) ⟨?_, rfl, rfl, ?_⟩ ?_ rfl
        rfl
      · rcases hKind with ⟨-, rfl⟩ | ⟨-, rfl⟩
        · exact .inl rfl
        · exact .inr rfl
      · dsimp only [fresh]
        omega
      · dsimp only [fresh]
        omega
  | @intDotDot text hToken hByte hCol =>
      have hRaw := rawOf_real hToken
      have hFit := hFits _ hRaw
      rw [hRaw]
      have hDigits := hFit.digits text rfl
      have hStop : tt.span.stop = tt.span.start + text.length :=
        hFit.cut _ _ rfl rfl
      refine .halves (n := text.length) rfl rfl rfl nofun nofun
        (.of_uncut ?_ rfl) (.of_uncut ?_ rfl)
      · dsimp only
        omega
      · dsimp only
        omega
  | dotDotHat hToken hByte hCol =>
      have hRaw := rawOf_real hToken
      have hFit := hFits _ hRaw
      rw [hRaw]
      have hStop : tt.span.stop = tt.span.start + 3 :=
        hFit.cut _ _ rfl rfl
      refine .halves (n := 3) rfl rfl rfl nofun nofun
        (.of_uncut ?_ rfl) ⟨?_, ?_, nofun⟩
      · dsimp only
        omega
      · dsimp only
        omega
      · intro token n hText hn
        cases hText
        cases hn
        dsimp only [fresh]
        have hOne : "^".toList.length = 1 := rfl
        omega

end Cuts

------------------------------------------------------------
-- Moves
------------------------------------------------------------

/- The raw item an iteration yields. -/
def Fetched.raws
    (fetched : Fetched) :
    List RawItem :=
  match fetched with
  | .Yield tt => (rawOf tt).toList
  | .Again _ | .Exhausted => []

/- The item an iteration yields. -/
def Fetched.items
    (fetched : Fetched) :
    List FilteredItem :=
  match fetched with
  | .Yield tt => (itemOf tt).toList
  | .Again _ | .Exhausted => []

/- What an iteration does to the waiting items. -/
inductive Retires
    (fetched : Fetched)
    (waiting waiting' : List RawItem) :
    Prop
  | cuts
      (hCuts : Recuts waiting (fetched.raws ++ waiting'))
  | swallows
      {x : RawItem} {token : Token}
      (hWaits : waiting = x :: waiting')
      (hYields : fetched.items = [])
      (hToken : x.result = .ok token)
      (hSwallowed : token ∈ swallowedTokens)
  | replaces
      {x : RawItem} {token : Token} {virt : Virtual}
      (hWaits : waiting = x :: waiting')
      (hYields : fetched.items = [⟨.ok (.Virtual virt), x.span⟩])
      (hToken : x.result = .ok token)
      (hReplaced : token ∈ replacedTokens)
      (hVirt : virt ∈ keywordVirtuals)

section Moves

variable {useBlockRule : Bool} {tt : TokenTup} {v v' : View} {fetched : Fetched}

/- The yielded item is the raw one. -/
theorem itemOf_raw
    (tt : TokenTup) :
    (itemOf tt).bind FilteredItem.raw = rawOf tt := by
  unfold itemOf rawOf
  cases tt.token <;> rfl

theorem Output.retires
    {rest : List RawItem}
    (hOut : Output useBlockRule tt fetched) :
    Retires fetched ((rawOf tt).toList ++ rest) rest := by
  cases hOut with
  | asIs =>
      exact .cuts (.refl _)
  | @virtual virt hToken hVirt =>
      rcases (tt.token.isAnyOf_iff _).1 hToken with ⟨token, hMem, hReal⟩
      rw [rawOf_real hReal]
      exact .replaces rfl rfl rfl hMem hVirt
  | swallow hToken =>
      rcases (tt.token.isAnyOf_iff _).1 hToken with ⟨token, hMem, hReal⟩
      rw [rawOf_real hReal]
      exact .swallows rfl rfl rfl hMem

/- Only virtuals and dummies are queued in place of a token. -/
theorem Shape.raws
    {stack stack' : List Context}
    {queued : List TokenTup}
    {depth depth' : Nat}
    (hShape : Shape tt stack depth stack' queued depth') :
    LexFilter.raws (queued.map fresh) = [] := by
  have hBegins : ∀ addBlockEnd anchor,
      LexFilter.raws ((blockBegins addBlockEnd anchor).map fresh) =
        [] := by
    intro addBlockEnd anchor
    cases addBlockEnd <;> rfl
  cases hShape with
  | block hTop =>
      exact hBegins _ _
  | pushBlock hTop hPlain =>
      exact hBegins _ _
  | replaceBlock hOld hOldKind hPlain =>
      exact hBegins _ _
  | paren hTop =>
      exact hBegins _ _
  | reparen hOld =>
      exact hBegins _ _
  | _ =>
      rfl

theorem cascadeVirtuals_raws
    (above : List Context) :
    raws (cascadeVirtuals tt above) = [] := by
  unfold raws
  rw [List.filterMap_eq_nil_iff]
  intro d hMem
  unfold cascadeVirtuals at hMem
  rcases List.mem_map.1 (List.mem_reverse.1 hMem) with ⟨virt, -, rfl⟩
  rfl

theorem closed_raws
    (closing : Option Virtual) :
    (closed useBlockRule closing tt).raws = [] := by
  cases closing <;> rfl

theorem raws_of_virtual
    {out : TokenTup}
    {virt : Virtual}
    (hOut : out.token = .Virtual virt) :
    (Fetched.Yield out).raws = [] := by
  rw [Fetched.raws, rawOf, hOut]
  rfl

/- One case for each move. -/
theorem Act.retires
    (hAct : Act useBlockRule tt v fetched v')
    (hFits : ∀ x ∈ raws (fresh tt :: v.pending), Fitting x) :
    Retires fetched (raws (fresh tt :: v.pending))
      (raws v'.pending) := by
  have hFitsTok : ∀ x, rawOf tt = some x → Fitting x := by
    intro x hx
    refine hFits x ?_
    rw [raws_cons]
    exact List.mem_append_left _ (Option.mem_toList.2 hx)
  have hFitsRest : ∀ x ∈ raws v.pending, Fitting x := by
    intro x hx
    refine hFits x ?_
    rw [raws_cons]
    exact List.mem_append_right _ hx
  -- the token is queued again behind virtuals
  have hRequeue : ∀ {again : Fetched} {queued : List Delayed},
      again.raws = [] → raws queued = raws (fresh tt :: v.pending) →
      Retires again (raws (fresh tt :: v.pending)) (raws queued) := by
    intro again queued hNone hSame
    refine .cuts ?_
    rw [hNone, hSame]
    exact .refl _
  cases hAct with
  | cut hGlued =>
      have hBoth :=
        (hGlued.recuts hFitsTok).both (.refl (raws v.pending))
      rw [← raws_append] at hBoth
      refine .cuts ?_
      rw [raws_cons]
      exact hBoth
  | app hIdent hNext hOpen hVirt =>
      refine hRequeue rfl ?_
      rw [raws_cons, raws_virtual, ← raws_cons]
  | force hHead hForce =>
      exact hRequeue (closed_raws _) rfl
  | pop hHead hClosing hOffside =>
      exact hRequeue (closed_raws _) rfl
  | endHead hHead hKind hOut =>
      exact hRequeue (raws_of_virtual hOut) rfl
  | reset hSemi hEmpty =>
      refine .cuts ?_
      rw [raws_cons]
      exact .refl _
  | flip hRule hHead =>
      exact hRequeue rfl rfl
  | sep hRule hHead hOut =>
      exact hRequeue (raws_of_virtual hOut) rfl
  | openBody hHead hKind hBody =>
      exact hRequeue rfl (raws_virtual _ _)
  | settle hDummy hEof hOut =>
      rw [raws_cons]
      exact hOut.retires
  | drop hDummy =>
      refine .cuts ?_
      have hNone : rawOf tt = none := by
        cases hToken : tt.token with
        | Dummy prevEnd inner =>
            rw [rawOf, hToken]
        | _ =>
            rw [hToken] at hDummy
            cases hDummy
      have hSame : raws (fresh tt :: v.pending) = raws v.pending := by
        rw [raws_cons]
        have hTok : rawOf (fresh tt).tup = none := hNone
        rw [hTok]
        rfl
      rw [hSame]
      exact .refl _
  | shift hReal hShape hOut =>
      rw [raws_cons, raws_append, hShape.raws]
      exact hOut.retires
  | @elif next rest hElse hTop hNext hIf =>
      refine .cuts ?_
      have hTok : (fresh tt).tup.token = .Real .Else := hElse
      rw [raws_real hTok, hNext, raws_real hIf]
      exact Resplit.elif.recuts.both (.refl (raws rest))
  | cascade hToken hPops hStack hAbove =>
      refine hRequeue rfl ?_
      rw [raws_append, cascadeVirtuals_raws]
      rfl
  | @typeApp less flag rest hTrigger hRecut hLess =>
      refine .cuts ?_
      have hCuts := hRecut.recuts hFitsRest
      rw [raws_real hLess] at hCuts
      have hTyped : Recuts
          (⟨.ok (.Less flag), less.tup.span⟩ :: raws rest)
          (⟨.ok (.Less true), less.tup.span⟩ :: raws rest) :=
        (Resplit.retype (.inl ⟨_, _, rfl, rfl⟩)).recuts.both
          (.refl (raws rest))
      rw [raws_cons, raws_virtual]
      exact (Recuts.refl _).both (hCuts.trans hTyped)

/- An iteration retires waiting items. -/
theorem Iterates.retires
    (hMove : Iterates useBlockRule v fetched v')
    (hFits : ∀ x ∈ raws v.pending, Fitting x) :
    ∃ waiting, Recuts (raws v.pending) waiting ∧
      ((∀ x ∈ waiting, Fitting x) →
        Retires fetched waiting (raws v'.pending)) := by
  cases hMove with
  | exhausted hPending =>
      refine ⟨_, .refl _, fun _ => .cuts ?_⟩
      exact .refl _
  | @moved d rest _ _ hPending hMove =>
      have hFirst : raws v.pending = raws (fresh d.tup :: rest) := by
        rw [hPending, raws_cons, raws_cons]
        rfl
      cases hMove with
      | passThrough hCount =>
          refine ⟨_, .refl _, fun _ => .cuts ?_⟩
          rw [hFirst, raws_cons]
          exact .refl _
      | @act ahead _ _ hIdle hAhead hAct =>
          refine ⟨raws (fresh d.tup :: ahead.pending), ?_,
            hAct.retires⟩
          rw [hFirst] at hFits ⊢
          rw [raws_cons] at hFits ⊢
          rw [raws_cons]
          refine (Recuts.refl _).both (hAhead.pending.recuts ?_)
          exact fun x hx => hFits x (List.mem_append_right _ hx)

end Moves

end LexFilter

end Borzoi
