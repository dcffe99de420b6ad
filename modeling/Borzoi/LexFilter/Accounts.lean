import Borzoi.LexFilter.Recuts

/-
  Accounts of raw tokens.

  An account compares the raw tokens of the stream with those the
  filter has emitted and those still waiting.
-/

namespace Borzoi

namespace LexFilter

open Lexer
open Text

/- The same item, up to the typing of an angle bracket. -/
structure Same
    (i x : RawItem) :
    Prop where
  span : x.span = i.span
  result : x.result = i.result ∨
    ∃ token token', i.result = .ok token ∧ x.result = .ok token' ∧
      Retyped token token'

/- Two items of a stream with none between them. -/
structure Adjacent
    (ins : List RawItem)
    (i j : RawItem) :
    Prop where
  first : i ∈ ins
  second : j ∈ ins
  order : i.span.stop ≤ j.span.start
  between : ∀ k ∈ ins, k.span.stop ≤ i.span.stop ∨
    j.span.start ≤ k.span.start

/- Where an item comes from. -/
inductive Origin
    (ins : List RawItem)
    (x : RawItem) :
    Prop
  | input
      {i : RawItem}
      (hMem : i ∈ ins)
      (hSame : Same i x)
  | piece
      {i : RawItem}
      (hMem : i ∈ ins)
      (hCut : isCut i = true)
      (hPiece : Piece i x)
  | closer
      {i j : RawItem} {closer fused : Token}
      (hAdjacent : Adjacent ins i j)
      (hCut : isCut i = true)
      (hTouch : i.span.stop = j.span.start)
      (hCloser : j.result = .ok closer)
      (hFused : x.result = .ok fused)
      (hCloses : ClosesAs closer fused)
      (hStart : i.span.start ≤ x.span.start ∧
        x.span.start < i.span.stop)
      (hStop : x.span.stop = j.span.stop)
  | elif
      {i j : RawItem}
      (hAdjacent : Adjacent ins i j)
      (hElse : i.result = .ok .Else)
      (hIf : j.result = .ok .If)
      (hElif : x = ⟨.ok .Elif, ⟨i.span.start, j.span.stop⟩⟩)

variable {token : Token}

section Origins

variable {ins : List RawItem} {i j x : RawItem}

/- Items that share a byte are the same. -/
theorem Spaced.eq_of_holds
    {b : Nat}
    (hSpaced : Spaced ins)
    (hi : i ∈ ins)
    (hj : j ∈ ins)
    (hiHolds : HoldsByte i b)
    (hjHolds : HoldsByte j b) :
    i = j := by
  have hEither : i = j ∨ i.span.stop ≤ j.span.start ∨
      j.span.stop ≤ i.span.start := by
    refine List.Pairwise.forall_of_forall_of_flip
      (R := fun x y : RawItem => x = y ∨
        x.span.stop ≤ y.span.start ∨ y.span.stop ≤ x.span.start)
      ?_ ?_ ?_ hi hj
    · exact fun x _ => .inl rfl
    · exact hSpaced.ordered.imp fun hOrder => .inr (.inl hOrder)
    · exact hSpaced.ordered.imp fun hOrder => .inr (.inr hOrder)
  rcases hiHolds with ⟨hiLo, hiHi⟩
  rcases hjHolds with ⟨hjLo, hjHi⟩
  rcases hEither with hEq | hFirst | hSecond
  · exact hEq
  · omega
  · omega

/- Items that touch have none between them. -/
theorem Spaced.adjacent
    (hSpaced : Spaced ins)
    (hi : i ∈ ins)
    (hj : j ∈ ins)
    (hTouch : i.span.stop = j.span.start) :
    Adjacent ins i j := by
  refine ⟨hi, hj, Nat.le_of_eq hTouch, ?_⟩
  intro k hk
  by_contra hNot
  rw [not_or, Nat.not_le, Nat.not_le] at hNot
  have hFit := hSpaced.fitting i hi
  have hkFit := hSpaced.fitting k hk
  have hNonempty := hFit.nonempty
  -- the last byte of `i` would lie in `k`
  have hEq : k = i := by
    by_cases hLate : k.span.start ≤ i.span.stop - 1
    · refine hSpaced.eq_of_holds hk hi ⟨hLate, ?_⟩ ⟨?_, ?_⟩ <;> omega
    · omega
  rw [hEq] at hNot
  omega

/- An operator is the tail of an item that may be cut. -/
theorem Origin.ofCut
    (hOrigin : Origin ins x)
    (hCut : isCut x = true) :
    ∃ i ∈ ins, isCut i = true ∧ i.span.start ≤ x.span.start ∧
      x.span.stop = i.span.stop := by
  cases hOrigin with
  | @input i hMem hSame =>
      rcases hSame with ⟨hSpan, hResult⟩
      rcases hResult with hEq | ⟨token, token', -, hToken, hTyped⟩
      · refine ⟨i, hMem, ?_, ?_, ?_⟩
        · rw [isCut, ← hEq]
          exact hCut
        · exact Nat.le_of_eq (congrArg Span.start hSpan).symm
        · rw [hSpan]
      · rw [isCut, hToken] at hCut
        rcases hTyped with ⟨f, g, -, rfl⟩ | ⟨f, g, -, rfl⟩ <;> cases hCut
  | @piece i hMem hCutI hPiece =>
      refine ⟨i, hMem, hCutI, hPiece.start, ?_⟩
      rcases hPiece.token with ⟨token, hToken, hKind⟩
      rw [isCut, hToken] at hCut
      -- the operators are the only pieces that can be cut again
      cases token with
      | Op text =>
          exact hPiece.tail text hToken
      | _ =>
          first
            | exact absurd hKind Bool.noConfusion
            | exact absurd hCut Bool.noConfusion
  | closer hAdjacent hCutI hTouch hCloser hFused hCloses hStart hStop =>
      rw [isCut, hFused] at hCut
      rcases hCloses with ⟨-, rfl⟩ | ⟨-, rfl⟩ <;> cases hCut
  | elif hAdjacent hElse hIf hElif =>
      rw [hElif] at hCut
      cases hCut

variable {p : RawItem}

/- A piece of the tail of an item is a piece of the item. -/
theorem Piece.widen
    (hPiece : Piece x p)
    (hStart : i.span.start ≤ x.span.start)
    (hStop : x.span.stop = i.span.stop) :
    Piece i p := by
  refine ⟨hPiece.token, Nat.le_trans hStart hPiece.start, ?_, ?_, ?_⟩
  · rw [← hStop]
    exact hPiece.stop
  · intro text hOp
    rw [← hStop]
    exact hPiece.tail text hOp
  · intro hBrack
    exact Nat.lt_of_le_of_lt hStart (hPiece.inner hBrack)

theorem Origin.ofPiece
    (hOrigin : Origin ins x)
    (hCut : isCut x = true)
    (hPiece : Piece x p) :
    Origin ins p := by
  rcases hOrigin.ofCut hCut with ⟨i, hMem, hCutI, hStart, hStop⟩
  exact .piece hMem hCutI (hPiece.widen hStart hStop)

/- A token that is neither a piece nor a fusion is an input. -/
theorem Origin.ofInput
    (hOrigin : Origin ins x)
    (hToken : x.result = .ok token)
    (hTypes : ∀ token', ¬ Retyped token' token)
    (hPiece : isPieceToken token = false)
    (hFused : token ≠ .BarRBrack)
    (hElif : token ≠ .Elif) :
    x ∈ ins := by
  cases hOrigin with
  | @input i hMem hSame =>
      rcases hSame with ⟨hSpan, hResult⟩
      rcases hResult with hEq | ⟨old, new, -, hNew, hTyped⟩
      · have hSame : x = i := by
          rcases x with ⟨xResult, xSpan⟩
          rcases i with ⟨iResult, iSpan⟩
          dsimp only at hSpan hEq
          rw [hSpan, hEq]
        rw [hSame]
        exact hMem
      · rw [hToken] at hNew
        cases hNew
        exact absurd hTyped (hTypes old)
  | piece hMem hCut hPieceX =>
      rcases hPieceX.token with ⟨token', hToken', hKind⟩
      rw [hToken] at hToken'
      cases hToken'
      rw [hPiece] at hKind
      cases hKind
  | closer hAdjacent hCut hTouch hCloser hFusedX hCloses hStart hStop =>
      rw [hToken] at hFusedX
      cases hFusedX
      rcases hCloses with ⟨-, rfl⟩ | ⟨-, rfl⟩
      · exact absurd rfl hFused
      · cases hPiece
  | elif hAdjacent hElse hIf hIsElif =>
      rw [hIsElif] at hToken
      cases hToken
      exact absurd rfl hElif

/- A closer behind an operator it touches is an input. -/
theorem Origin.ofCloser
    {text : List Char}
    {closer fused : Token}
    {op close : Span}
    (hSpaced : Spaced ins)
    (hCloses : ClosesAs closer fused)
    (hTouch : op.stop = close.start)
    (hOp : Origin ins ⟨.ok (.Op text), op⟩)
    (hClose : Origin ins ⟨.ok closer, close⟩)
    (hOpFits : op.start < op.stop)
    (hCloseFits : close.start < close.stop) :
    (⟨.ok closer, close⟩ : RawItem) ∈ ins := by
  rcases hCloses with ⟨rfl, -⟩ | ⟨rfl, -⟩
  · rcases hOp.ofCut rfl with ⟨i, hi, hCutI, hStart, hStop⟩
    cases hClose with
    | @input j hMem hSame =>
        rcases hSame with ⟨hSpan, hResult⟩
        rcases hResult with hEq | ⟨old, new, -, hNew, hTyped⟩
        · have hSame : (⟨.ok .RBrack, close⟩ : RawItem) = j := by
            rcases j with ⟨jResult, jSpan⟩
            dsimp only at hSpan hEq
            rw [hSpan, hEq]
          rw [hSame]
          exact hMem
        · cases hNew
          rcases hTyped with ⟨f, g, -, hNo⟩ | ⟨f, g, -, hNo⟩ <;>
            cases hNo
    | @piece j hMem hCutJ hPiece =>
        -- the bracket would start inside the operator's item
        have hInner := hPiece.inner rfl
        have hEnd := hPiece.stop
        dsimp only at hStart hStop hInner hEnd
        have hEq : i = j := by
          refine hSpaced.eq_of_holds hi hMem (b := op.stop - 1)
            ⟨?_, ?_⟩ ⟨?_, ?_⟩ <;> omega
        rw [← hEq] at hEnd
        omega
    | closer hAdjacent hCut hTouch' hCloser hFusedX hCloses' hStart'
        hStop' =>
        cases hFusedX
        rcases hCloses' with ⟨-, hNo⟩ | ⟨-, hNo⟩ <;> cases hNo
    | elif hAdjacent hElse hIf hIsElif =>
        cases hIsElif
  · refine hClose.ofInput rfl ?_ rfl nofun nofun
    rintro token' (⟨f, g, -, hNo⟩ | ⟨f, g, -, hNo⟩) <;> cases hNo

end Origins

------------------------------------------------------------
-- Accounts
------------------------------------------------------------

/- A virtual was emitted in place of a keyword, or nothing at all. -/
def Hidden
    (emitted : List FilteredItem)
    (i : RawItem) :
    Prop :=
  ∃ token, i.result = .ok token ∧
    (token ∈ swallowedTokens ∨
      token ∈ replacedTokens ∧ ∃ virt ∈ keywordVirtuals,
        (⟨.ok (.Virtual virt), i.span⟩ : FilteredItem) ∈ emitted)

/-
  The emitted raw items and those waiting are in order, come from the
  stream, and lose no byte of it.
-/
structure Accounts
    (ins : List RawItem)
    (emitted : List FilteredItem)
    (waiting : List RawItem) :
    Prop where
  ordered : (shown emitted ++ waiting).Pairwise Before
  fitting : ∀ x ∈ shown emitted ++ waiting, Fitting x
  origin : ∀ x ∈ shown emitted ++ waiting, Origin ins x
  complete : ∀ i ∈ ins, ∀ b, HoldsByte i b →
    (∃ x ∈ shown emitted ++ waiting, HoldsByte x b) ∨
      (Hidden emitted i ∧ ∀ x ∈ waiting, i.span.stop ≤ x.span.start)

section Accounts

variable {ins : List RawItem} {emitted : List FilteredItem}
variable {front seg seg' back : List RawItem}

variable {x y : RawItem}

theorem Before.apart_left
    (hBefore : Before x y)
    (hApart : Apart x) :
    x.span.stop ≤ y.span.start :=
  hBefore.resolve_right (hApart y).1

theorem Before.apart_right
    (hBefore : Before x y)
    (hApart : Apart y) :
    x.span.stop ≤ y.span.start :=
  hBefore.resolve_right (hApart x).2

/- An `else` and the `if` behind it have no token between them. -/
theorem Accounts.elif_adjacent
    {first second : Span}
    (hSpaced : Spaced ins)
    (hAcc : Accounts ins emitted
      (front ++ [⟨.ok .Else, first⟩, ⟨.ok .If, second⟩] ++ back)) :
    Adjacent ins ⟨.ok .Else, first⟩ ⟨.ok .If, second⟩ := by
  have hMem : ∀ x ∈ ([⟨.ok .Else, first⟩, ⟨.ok .If, second⟩] :
      List RawItem), x ∈ shown emitted ++
        (front ++ [⟨.ok .Else, first⟩, ⟨.ok .If, second⟩] ++ back) :=
    fun x hx => List.mem_append_right _
      (List.mem_append_left _ (List.mem_append_right _ hx))
  have hUntyped : ∀ token : Token, (∀ f, token ≠ .Less f) →
      (∀ f, token ≠ .Greater f) → ∀ token', ¬ Retyped token' token := by
    rintro token hLess hGreater token' (⟨f, g, -, hg⟩ | ⟨f, g, -, hg⟩)
    · exact hLess g hg
    · exact hGreater g hg
  have hElse : (⟨.ok .Else, first⟩ : RawItem) ∈ ins :=
    (hAcc.origin _ (hMem _ List.mem_cons_self)).ofInput rfl
      (hUntyped _ nofun nofun) rfl nofun nofun
  have hIf : (⟨.ok .If, second⟩ : RawItem) ∈ ins :=
    (hAcc.origin _ (hMem _ (List.mem_cons_of_mem _
      List.mem_cons_self))).ofInput rfl
      (hUntyped _ nofun nofun) rfl nofun nofun
  have hElseApart : Apart ⟨.ok .Else, first⟩ :=
    apart_of_ne nofun nofun nofun
  have hIfApart : Apart ⟨.ok .If, second⟩ :=
    apart_of_ne nofun nofun nofun
  have hElseFits : first.start < first.stop :=
    (hSpaced.fitting _ hElse).nonempty
  have hPairs := hAcc.ordered
  rw [← List.append_assoc, ← List.append_assoc, List.append_assoc,
    List.pairwise_append] at hPairs
  rcases hPairs with ⟨-, hRest, hFront⟩
  rw [List.pairwise_append, List.pairwise_pair] at hRest
  rcases hRest with ⟨hOrder, -, hBack⟩
  refine ⟨hElse, hIf, hOrder.apart_left hElseApart, ?_⟩
  intro k hk
  by_contra hNot
  rw [not_or, Nat.not_le, Nat.not_le] at hNot
  rcases hNot with ⟨hLate, hEarly⟩
  have hkFits := (hSpaced.fitting k hk).nonempty
  dsimp only at hLate hEarly
  -- `k` starts in the gap, or shares a byte with the `else`
  by_cases hShares : k.span.start < first.stop
  · have hLast : first.start ≤ first.stop - 1 ∧
        first.stop - 1 < first.stop := by omega
    have hEq : k = ⟨.ok .Else, first⟩ :=
      hSpaced.eq_of_holds hk hElse ⟨by omega, by omega⟩ hLast
    rw [hEq] at hLate
    exact Nat.lt_irrefl _ hLate
  · rcases hAcc.complete k hk k.span.start
        ⟨Nat.le_refl _, hkFits⟩ with
      ⟨x, hx, hLo, hHi⟩ | ⟨-, hAhead⟩
    · rw [← List.append_assoc, ← List.append_assoc, List.append_assoc]
        at hx
      rcases List.mem_append.1 hx with hx | hx
      · have hBefore : x.span.stop ≤ first.start :=
          (hFront x hx ⟨.ok .Else, first⟩ (List.mem_append_left _
            List.mem_cons_self)).apart_right hElseApart
        omega
      · rcases List.mem_append.1 hx with hx | hx
        · rcases List.mem_pair.1 hx with rfl | rfl <;>
            · dsimp only at *
              omega
        · have hAfter : second.stop ≤ x.span.start :=
            (hBack ⟨.ok .If, second⟩ (List.mem_cons_of_mem _
              List.mem_cons_self) x hx).apart_left hIfApart
          have hIfFits : second.start < second.stop :=
            (hSpaced.fitting _ hIf).nonempty
          omega
    · have hBefore : k.span.stop ≤ first.start := by
        refine hAhead ⟨.ok .Else, first⟩ ?_
        exact List.mem_append_left _
          (List.mem_append_right _ List.mem_cons_self)
      omega

/- The items that replace others come from the stream. -/
theorem Accounts.resplit_origin
    (hSpaced : Spaced ins)
    (hAcc : Accounts ins emitted (front ++ seg ++ back))
    (hSplit : Resplit seg seg') :
    ∀ y ∈ seg', Origin ins y := by
  have hMem : ∀ x ∈ seg, x ∈ shown emitted ++ (front ++ seg ++ back) :=
    fun x hx => List.mem_append_right _
      (List.mem_append_left _ (List.mem_append_right _ hx))
  cases hSplit with
  | @retype token token' span hTyped =>
      intro y hy
      rw [List.mem_singleton.1 hy]
      have hOrigin := hAcc.origin _ (hMem _ List.mem_cons_self)
      cases hOrigin with
      | @input i hIn hSame =>
          refine .input hIn ⟨hSame.span, .inr ?_⟩
          rcases hSame.result with hEq | ⟨old, new, hOld, hNew, hOldTyped⟩
          · exact ⟨token, token', hEq.symm, rfl, hTyped⟩
          · cases hNew
            refine ⟨old, token', hOld, rfl, ?_⟩
            rcases hTyped with ⟨f, g, rfl, rfl⟩ | ⟨f, g, rfl, rfl⟩
            · rcases hOldTyped with ⟨e, _, rfl, _⟩ | ⟨_, _, _, hNo⟩
              · exact .inl ⟨e, g, rfl, rfl⟩
              · cases hNo
            · rcases hOldTyped with ⟨_, _, _, hNo⟩ | ⟨e, _, rfl, _⟩
              · cases hNo
              · exact .inr ⟨e, g, rfl, rfl⟩
      | piece hIn hCut hPiece =>
          refine .piece hIn hCut ⟨?_, hPiece.start, hPiece.stop, ?_, ?_⟩
          · refine ⟨token', rfl, ?_⟩
            rcases hTyped with ⟨f, g, -, rfl⟩ | ⟨f, g, -, rfl⟩ <;> rfl
          · rintro text hNo
            rcases hTyped with ⟨f, g, -, rfl⟩ | ⟨f, g, -, rfl⟩ <;>
              cases hNo
          · intro hNo
            rcases hTyped with ⟨f, g, -, rfl⟩ | ⟨f, g, -, rfl⟩ <;>
              cases hNo
      | closer hAdjacent hCut hTouch hCloser hFused hCloses hStart
          hStop =>
          cases hFused
          rcases hTyped with ⟨f, g, rfl, -⟩ | ⟨f, g, rfl, -⟩ <;>
            rcases hCloses with ⟨-, hNo⟩ | ⟨-, hNo⟩ <;> cases hNo
      | elif hAdjacent hElse hIf hElif =>
          cases hElif
          rcases hTyped with ⟨f, g, hNo, -⟩ | ⟨f, g, hNo, -⟩ <;>
            cases hNo
  | tile hCut hTiles hPieces =>
      intro y hy
      have hOrigin := hAcc.origin _ (hMem _ List.mem_cons_self)
      exact hOrigin.ofPiece hCut (hPieces y hy).1
  | @quoteBar x close bar hCut hBar hWide hStart hStop =>
      intro y hy
      have hOrigin := hAcc.origin _ (hMem _ List.mem_cons_self)
      refine hOrigin.ofPiece hCut ?_
      have hBarStart := hBar.start
      have hBarStop := hBar.stop
      rcases List.mem_pair.1 hy with rfl | rfl
      · have hKind : ∃ token, y.result = .ok token ∧
            isPieceToken token = true ∧ (∀ text, token ≠ .Op text) ∧
            token ≠ .RBrack := by
          rcases hBar.close with hQuote | hQuote
          · exact ⟨_, hQuote, rfl, nofun, nofun⟩
          · exact ⟨_, hQuote, rfl, nofun, nofun⟩
        rcases hKind with ⟨token, hToken, hPiece, hOp, hBrack⟩
        refine ⟨⟨token, hToken, hPiece⟩, by omega, by omega, ?_, ?_⟩
        · intro text hText
          rw [hToken] at hText
          cases hText
          exact absurd rfl (hOp text)
        · intro hText
          rw [hToken] at hText
          cases hText
          exact absurd rfl hBrack
      · refine ⟨⟨_, hBar.bar, rfl⟩, by omega, by omega, ?_, ?_⟩
        · intro text hText
          rw [hBar.bar] at hText
          cases hText
        · intro hText
          rw [hBar.bar] at hText
          cases hText
  | @fuse text closer fused mid op close pieces hCloses hTouch hTiles
      hMid hPieces =>
      have hOp := hAcc.origin _ (hMem _ List.mem_cons_self)
      have hClose := hAcc.origin _ (hMem ⟨.ok closer, close⟩
        (List.mem_cons_of_mem _ List.mem_cons_self))
      intro y hy
      rcases List.mem_append.1 hy with hPiece | hLast
      · exact hOp.ofPiece rfl (hPieces y hPiece).1
      · rw [List.mem_singleton.1 hLast]
        have hOpFits := hAcc.fitting _ (hMem _ List.mem_cons_self)
        have hCloseFits := hAcc.fitting _ (hMem ⟨.ok closer, close⟩
          (List.mem_cons_of_mem _ List.mem_cons_self))
        have hIn := Origin.ofCloser hSpaced hCloses hTouch hOp hClose
          hOpFits.nonempty hCloseFits.nonempty
        rcases hOp.ofCut rfl with ⟨i, hi, hCut, hStart, hStop⟩
        dsimp only at hStart hStop
        have hTouches : i.span.stop = close.start := by
          rw [← hStop]
          exact hTouch
        have hLe : op.start ≤ mid := Tiles.le hTiles
        exact .closer (hSpaced.adjacent hi hIn hTouches) hCut hTouches
          rfl rfl hCloses ⟨by dsimp only; omega, by dsimp only; omega⟩
          rfl
  | elif =>
      intro y hy
      rw [List.mem_singleton.1 hy]
      exact .elif (hAcc.elif_adjacent hSpaced) rfl rfl rfl

/- An account survives the replacement of items. -/
theorem Accounts.resplit
    (hSpaced : Spaced ins)
    (hAcc : Accounts ins emitted (front ++ seg ++ back))
    (hSplit : Resplit seg seg') :
    Accounts ins emitted (front ++ seg' ++ back) := by
  have hOrigin := hAcc.resplit_origin hSpaced hSplit
  have hApart := hSplit.apart
  have hEq : ∀ mid : List RawItem,
      shown emitted ++ (front ++ mid ++ back) =
        (shown emitted ++ front) ++ mid ++ back := by
    intro mid
    simp only [List.append_assoc]
  rcases hAcc with ⟨hOrdered, hFits, hOrigins, hComplete⟩
  have hSegOrdered : seg.Pairwise Before := by
    rw [hEq, List.append_assoc] at hOrdered
    have hTail := (List.pairwise_append.1 hOrdered).2.1
    exact (List.pairwise_append.1 hTail).1
  have hSegFits : ∀ x ∈ seg, Fitting x := fun x hx =>
    hFits x (List.mem_append_right _
      (List.mem_append_left _ (List.mem_append_right _ hx)))
  have hShape := hSplit.reshapes hSegOrdered hSegFits
  -- what holds of every item, old or new
  have hEach : ∀ P : RawItem → Prop,
      (∀ x ∈ shown emitted ++ (front ++ seg ++ back), P x) →
      (∀ y ∈ seg', P y) →
      ∀ x ∈ shown emitted ++ (front ++ seg' ++ back), P x := by
    intro P hOld hNew x hx
    rw [hEq, List.mem_append, List.mem_append] at hx
    rcases hx with (hx | hx) | hx
    · refine hOld x ?_
      rw [hEq]
      exact List.mem_append_left _ (List.mem_append_left _ hx)
    · exact hNew x hx
    · refine hOld x ?_
      rw [hEq]
      exact List.mem_append_right _ hx
  refine ⟨?_, ?_, ?_, ?_⟩
  · rw [hEq] at hOrdered ⊢
    refine pairwise_splice hOrdered hShape.ordered ?_ ?_
    · intro x hAll y hy
      refine .inl (hShape.start _ ?_ y hy)
      intro z hz
      exact (hAll z hz).apart_right (hApart z hz)
    · intro z hAll y hy
      refine .inl (hShape.stop _ ?_ y hy)
      intro x hx
      exact (hAll x hx).apart_left (hApart x hx)
  · exact hEach Fitting hFits hShape.fitting
  · exact hEach (Origin ins) hOrigins hOrigin
  · intro i hi b hb
    rcases hComplete i hi b hb with ⟨x, hx, hHolds⟩ | ⟨hHidden, hAhead⟩
    · refine .inl ?_
      rw [hEq, List.mem_append, List.mem_append] at hx
      rcases hx with (hx | hx) | hx
      · refine ⟨x, ?_, hHolds⟩
        rw [hEq]
        exact List.mem_append_left _ (List.mem_append_left _ hx)
      · rcases hShape.covers x hx b hHolds with ⟨y, hy, hyHolds⟩
        refine ⟨y, ?_, hyHolds⟩
        rw [hEq]
        exact List.mem_append_left _ (List.mem_append_right _ hy)
      · refine ⟨x, ?_, hHolds⟩
        rw [hEq]
        exact List.mem_append_right _ hx
    · refine .inr ⟨hHidden, ?_⟩
      intro x hx
      rw [List.mem_append, List.mem_append] at hx
      rcases hx with (hx | hx) | hx
      · exact hAhead x
          (List.mem_append_left _ (List.mem_append_left _ hx))
      · refine hShape.start _ ?_ x hx
        intro z hz
        exact hAhead z
          (List.mem_append_left _ (List.mem_append_right _ hz))
      · exact hAhead x (List.mem_append_right _ hx)

theorem Accounts.recuts
    {waiting waiting' : List RawItem}
    (hSpaced : Spaced ins)
    (hAcc : Accounts ins emitted waiting)
    (hCuts : Recuts waiting waiting') :
    Accounts ins emitted waiting' := by
  induction hCuts with
  | refl xs =>
      exact hAcc
  | step hSplit _ ih =>
      exact ih (hAcc.resplit hSpaced hSplit)

variable {waiting : List RawItem} {x : RawItem}

theorem shown_append
    (emitted more : List FilteredItem) :
    shown (emitted ++ more) = shown emitted ++ shown more :=
  List.filterMap_append

theorem Hidden.mono
    {more : List FilteredItem}
    (hHidden : Hidden emitted x)
    (hMore : ∀ item ∈ emitted, item ∈ more) :
    Hidden more x := by
  rcases hHidden with ⟨token, hToken, hSwallowed | hReplaced⟩
  · exact ⟨token, hToken, .inl hSwallowed⟩
  · rcases hReplaced with ⟨hIn, virt, hVirt, hItem⟩
    exact ⟨token, hToken, .inr ⟨hIn, virt, hVirt, hMore _ hItem⟩⟩

/- Nothing has been emitted. -/
theorem Accounts.initial
    (hSpaced : Spaced ins) :
    Accounts ins [] ins := by
  refine ⟨hSpaced.ordered.imp .inl, hSpaced.fitting, ?_, ?_⟩
  · intro i hi
    exact .input hi ⟨rfl, .inl rfl⟩
  · intro i hi b hb
    exact .inl ⟨i, hi, hb⟩

/- The first waiting item is emitted. -/
theorem Accounts.emit
    {item : FilteredItem}
    (hAcc : Accounts ins emitted (x :: waiting))
    (hItem : item.raw = some x) :
    Accounts ins (emitted ++ [item]) waiting := by
  have hEq : shown (emitted ++ [item]) ++ waiting =
      shown emitted ++ x :: waiting := by
    have hOne : shown [item] = [x] := by
      simp only [shown, List.filterMap_cons, hItem, List.filterMap_nil]
    rw [shown_append, hOne, List.append_assoc, List.singleton_append]
  refine ⟨?_, ?_, ?_, ?_⟩
  · rw [hEq]
    exact hAcc.ordered
  · rw [hEq]
    exact hAcc.fitting
  · rw [hEq]
    exact hAcc.origin
  · intro i hi b hb
    rw [hEq]
    rcases hAcc.complete i hi b hb with hHeld | ⟨hHidden, hAhead⟩
    · exact .inl hHeld
    · refine .inr ⟨hHidden.mono ?_, ?_⟩
      · exact fun other hOther => List.mem_append_left _ hOther
      · exact fun y hy => hAhead y (List.mem_cons_of_mem _ hy)

/- A virtual is emitted. -/
theorem Accounts.virtual
    {item : FilteredItem}
    (hAcc : Accounts ins emitted waiting)
    (hItem : item.raw = none) :
    Accounts ins (emitted ++ [item]) waiting := by
  have hEq : shown (emitted ++ [item]) = shown emitted := by
    have hNone : shown [item] = [] := by
      simp only [shown, List.filterMap_cons, hItem, List.filterMap_nil]
    rw [shown_append, hNone, List.append_nil]
  refine ⟨?_, ?_, ?_, ?_⟩
  · rw [hEq]
    exact hAcc.ordered
  · rw [hEq]
    exact hAcc.fitting
  · rw [hEq]
    exact hAcc.origin
  · intro i hi b hb
    rw [hEq]
    rcases hAcc.complete i hi b hb with hHeld | ⟨hHidden, hAhead⟩
    · exact .inl hHeld
    · refine .inr ⟨hHidden.mono ?_, hAhead⟩
      exact fun other hOther => List.mem_append_left _ hOther

/- The keywords a raw token may be hidden for. -/
theorem hidden_token
    (hMem : token ∈ swallowedTokens ++ replacedTokens) :
    isPieceToken token = false ∧ token ≠ .BarRBrack ∧
      token ≠ .Elif ∧ (∀ token', ¬ Retyped token' token) := by
  have hKind : ∀ other ∈ swallowedTokens ++ replacedTokens,
      isPieceToken other = false ∧ other ≠ .BarRBrack ∧
        other ≠ .Elif ∧ (∀ f, other ≠ .Less f) ∧
        ∀ f, other ≠ .Greater f := by
    decide
  rcases hKind token hMem with ⟨hPiece, hFused, hElif, hLess, hGreater⟩
  refine ⟨hPiece, hFused, hElif, ?_⟩
  rintro token' (⟨f, g, -, hg⟩ | ⟨f, g, -, hg⟩)
  · exact hLess g hg
  · exact hGreater g hg

/- The first waiting item is dropped. -/
theorem Accounts.hide
    (hSpaced : Spaced ins)
    (hAcc : Accounts ins emitted (x :: waiting))
    (hHidden : Hidden emitted x) :
    Accounts ins emitted waiting := by
  have hIn : x ∈ ins ∧ Apart x := by
    have hOrigin := hAcc.origin x
      (List.mem_append_right _ List.mem_cons_self)
    rcases hHidden with ⟨token, hToken, hKind⟩
    have hMem : token ∈ swallowedTokens ++ replacedTokens := by
      rcases hKind with hSwallowed | ⟨hReplaced, -⟩
      · exact List.mem_append_left _ hSwallowed
      · exact List.mem_append_right _ hReplaced
    rcases hidden_token hMem with ⟨hPiece, hFused, hElif, hTypes⟩
    refine ⟨hOrigin.ofInput hToken hTypes hPiece hFused hElif, ?_⟩
    refine apart_of_ne ?_ ?_ ?_ <;>
      · intro hEq
        rw [hToken] at hEq
        cases hEq
        cases hPiece
  have hSub : List.Sublist (shown emitted ++ waiting)
      (shown emitted ++ x :: waiting) :=
    List.Sublist.append (List.Sublist.refl _) (List.sublist_cons_self _ _)
  have hAhead : ∀ y ∈ waiting, x.span.stop ≤ y.span.start := by
    have hPairs := (List.pairwise_append.1 hAcc.ordered).2.1
    intro y hy
    exact ((List.pairwise_cons.1 hPairs).1 y hy).apart_left hIn.2
  refine ⟨hAcc.ordered.sublist hSub, ?_, ?_, ?_⟩
  · exact fun y hy => hAcc.fitting y (hSub.subset hy)
  · exact fun y hy => hAcc.origin y (hSub.subset hy)
  · intro i hi b hb
    rcases hAcc.complete i hi b hb with ⟨y, hy, hHolds⟩ | ⟨hOld, hBefore⟩
    · rcases List.mem_append.1 hy with hShown | hWaits
      · exact .inl ⟨y, List.mem_append_left _ hShown, hHolds⟩
      · rcases List.mem_cons.1 hWaits with rfl | hRest
        · have hSame := hSpaced.eq_of_holds hi hIn.1 hb hHolds
          rw [hSame]
          exact .inr ⟨hHidden, hAhead⟩
        · exact .inl ⟨y, List.mem_append_right _ hRest, hHolds⟩
    · exact .inr ⟨hOld, fun y hy =>
        hBefore y (List.mem_cons_of_mem _ hy)⟩

end Accounts

end LexFilter

end Borzoi
