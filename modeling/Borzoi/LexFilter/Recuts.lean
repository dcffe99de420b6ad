import Borzoi.LexFilter.Moves
import Borzoi.Text.Tiling

/-
  Raw tokens taken apart and put together.
-/

namespace Borzoi

namespace LexFilter

open Lexer
open Text

/- The raw item of a token, if it comes from the stream. -/
def rawOf
    (tt : TokenTup) :
    Option RawItem :=
  match tt.token with
  | .Real token => some ⟨.ok token, tt.span⟩
  | .Err e => some ⟨.error e, tt.span⟩
  | .Eof | .Virtual _ | .Dummy _ _ => none

/- The raw items of queued tokens. -/
def raws
    (pending : List Delayed) :
    List RawItem :=
  pending.filterMap fun d => rawOf d.tup

/- The raw items of a stream, without trivia. -/
def inputs
    (raw : List RawItem) :
    List RawItem :=
  raw.filter fun item => (Core.contentOf item).isSome

/- The raw item among what the iterator yields. -/
def FilteredItem.raw
    (item : FilteredItem) :
    Option RawItem :=
  match item.result with
  | .ok (.Raw token) => some ⟨.ok token, item.span⟩
  | .ok (.Virtual _) => none
  | .error e => some ⟨.error e, item.span⟩

/- The raw items emitted. -/
def shown
    (emitted : List FilteredItem) :
    List RawItem :=
  emitted.filterMap FilteredItem.raw

/- Whether a byte lies in an item. -/
def HoldsByte
    (x : RawItem)
    (b : Nat) :
    Prop :=
  x.span.start ≤ b ∧ b < x.span.stop

/- Items that follow each other without a gap. -/
def TilesSpan
    (lo : Nat)
    (xs : List RawItem)
    (hi : Nat) :
    Prop :=
  Tiles (fun x : RawItem => x.span.start) (fun x => x.span.stop) lo xs hi

/- Whether the filter may cut the item. -/
def isCut
    (x : RawItem) :
    Bool :=
  match x.result with
  | .ok token => (cutLength token).isSome
  | .error _ => false

/- An item that is not empty, and that spans its text if it is cut. -/
structure Fitting
    (x : RawItem) :
    Prop where
  nonempty : x.span.start < x.span.stop
  cut : ∀ token n, x.result = .ok token → cutLength token = some n →
    x.span.stop = x.span.start + n
  digits : ∀ text, x.result = .ok (.IntDotDot text) → 3 ≤ text.length

/-
  Streams with increasing, non-overlapping spans.
-/
structure Spaced
    (raw : List RawItem) :
    Prop where
  ordered : raw.Pairwise fun x y => x.span.stop ≤ y.span.start
  fitting : ∀ x ∈ raw, Fitting x

/- The tokens a cut token falls into. -/
def isPieceToken
    (token : Token) :
    Bool :=
  match token with
  | .Less _ | .Greater _ | .Op _ | .RBrack | .Colon | .Dot | .DotDot
  | .QMark | .QMarkQMark | .ColonEquals | .ColonColon | .Amp
  | .RArrow | .LArrow | .Equals | .Dollar | .Int _ | .RQuote
  | .RQuoteRaw | .BarRBrace => true
  | _ => false

/-
  A piece of an item.  An operator ends where the item ends, and a
  bracket does not start it.
-/
structure Piece
    (i x : RawItem) :
    Prop where
  token : ∃ token, x.result = .ok token ∧ isPieceToken token = true
  start : i.span.start ≤ x.span.start
  stop : x.span.stop ≤ i.span.stop
  tail : ∀ text, x.result = .ok (.Op text) →
    x.span.stop = i.span.stop
  inner : x.result = .ok .RBrack → i.span.start < x.span.start

/- The closing quote and the `|}` of `@>|}`, which overlap. -/
structure QuoteBar
    (x y : RawItem) :
    Prop where
  close : x.result = .ok .RQuote ∨ x.result = .ok .RQuoteRaw
  bar : y.result = .ok .BarRBrace
  start : y.span.start = x.span.start + 1
  stop : y.span.stop = x.span.stop + 2

/- The order of the emitted items. -/
def Before
    (x y : RawItem) :
    Prop :=
  x.span.stop ≤ y.span.start ∨ QuoteBar x y

/- A closer and the token it forms with a `|` in front. -/
def ClosesAs
    (closer fused : Token) :
    Prop :=
  (closer = .RBrack ∧ fused = .BarRBrack) ∨
    (closer = .RBrace ∧ fused = .BarRBrace)

/- An angle bracket before and after it is typed. -/
def Retyped
    (token token' : Token) :
    Prop :=
  (∃ f g, token = .Less f ∧ token' = .Less g) ∨
    ∃ f g, token = .Greater f ∧ token' = .Greater g

/- What the filter does with neighbouring items. -/
inductive Resplit : List RawItem → List RawItem → Prop
  | retype
      {token token' : Token} {span : Span}
      (hTyped : Retyped token token') :
      Resplit [⟨.ok token, span⟩] [⟨.ok token', span⟩]
  | tile
      {x : RawItem} {pieces : List RawItem}
      (hCut : isCut x = true)
      (hTiles : TilesSpan x.span.start pieces x.span.stop)
      (hPieces : ∀ p ∈ pieces, Piece x p ∧ Fitting p) :
      Resplit [x] pieces
  | quoteBar
      {x close bar : RawItem}
      (hCut : isCut x = true)
      (hBar : QuoteBar close bar)
      (hWide : close.span.start + 2 ≤ close.span.stop)
      (hStart : close.span.start = x.span.start)
      (hStop : bar.span.stop = x.span.stop) :
      Resplit [x] [close, bar]
  | fuse
      {text : List Char} {closer fused : Token} {mid : Nat}
      {op close : Span} {pieces : List RawItem}
      (hCloses : ClosesAs closer fused)
      (hTouch : op.stop = close.start)
      (hTiles : TilesSpan op.start pieces mid)
      (hMid : mid < op.stop)
      (hPieces : ∀ p ∈ pieces, Piece ⟨.ok (.Op text), op⟩ p ∧
        Fitting p) :
      Resplit [⟨.ok (.Op text), op⟩, ⟨.ok closer, close⟩]
        (pieces ++ [⟨.ok fused, ⟨mid, close.stop⟩⟩])
  | elif
      {first second : Span} :
      Resplit [⟨.ok .Else, first⟩, ⟨.ok .If, second⟩]
        [⟨.ok .Elif, ⟨first.start, second.stop⟩⟩]

/- The items after some of them were replaced. -/
inductive Recuts : List RawItem → List RawItem → Prop
  | refl (xs : List RawItem) : Recuts xs xs
  | step
      {front seg seg' back ys : List RawItem}
      (hSplit : Resplit seg seg')
      (hRest : Recuts (front ++ seg' ++ back) ys) :
      Recuts (front ++ seg ++ back) ys

theorem Recuts.trans
    {xs ys zs : List RawItem}
    (hFirst : Recuts xs ys)
    (hSecond : Recuts ys zs) :
    Recuts xs zs := by
  induction hFirst with
  | refl xs =>
      exact hSecond
  | step hSplit _ ih =>
      exact .step hSplit (ih hSecond)

theorem Resplit.recuts
    {seg seg' : List RawItem}
    (hSplit : Resplit seg seg') :
    Recuts seg seg' := by
  have hStep : Recuts ([] ++ seg ++ []) seg' := by
    refine .step hSplit ?_
    rw [List.nil_append, List.append_nil]
    exact .refl _
  rwa [List.nil_append, List.append_nil] at hStep

theorem Recuts.append
    {xs xs' : List RawItem}
    (hCuts : Recuts xs xs')
    (front back : List RawItem) :
    Recuts (front ++ xs ++ back) (front ++ xs' ++ back) := by
  induction hCuts with
  | refl xs =>
      exact .refl _
  | @step inner seg seg' outer ys hSplit _ ih =>
      have hEq : ∀ mid : List RawItem,
          front ++ (inner ++ mid ++ outer) ++ back =
            (front ++ inner) ++ mid ++ (outer ++ back) := by
        intro mid
        simp only [List.append_assoc]
      rw [hEq] at ih ⊢
      exact .step hSplit ih

/- Two parts of a list are cut independently. -/
theorem Recuts.both
    {xs xs' ys ys' : List RawItem}
    (hFirst : Recuts xs xs')
    (hSecond : Recuts ys ys') :
    Recuts (xs ++ ys) (xs' ++ ys') := by
  have hLeft := hFirst.append [] ys
  have hRight := hSecond.append xs' []
  rw [List.append_nil, List.append_nil] at hRight
  exact hLeft.trans hRight

/- Items that replace others keep their range. -/
structure Reshapes
    (seg seg' : List RawItem) :
    Prop where
  fitting : ∀ y ∈ seg', Fitting y
  ordered : seg'.Pairwise Before
  start : ∀ n, (∀ x ∈ seg, n ≤ x.span.start) →
    ∀ y ∈ seg', n ≤ y.span.start
  stop : ∀ n, (∀ x ∈ seg, x.span.stop ≤ n) →
    ∀ y ∈ seg', y.span.stop ≤ n
  covers : ∀ x ∈ seg, ∀ b, HoldsByte x b → ∃ y ∈ seg', HoldsByte y b

/- An item outside the overlapping pairs. -/
def Apart
    (x : RawItem) :
    Prop :=
  ∀ y, ¬ QuoteBar x y ∧ ¬ QuoteBar y x

variable {x : RawItem}

theorem apart_of_ne
    (hClose : x.result ≠ .ok .RQuote)
    (hRaw : x.result ≠ .ok .RQuoteRaw)
    (hBar : x.result ≠ .ok .BarRBrace) :
    Apart x := by
  intro y
  constructor
  · intro hPair
    rcases hPair.close with hFirst | hSecond
    · exact hClose hFirst
    · exact hRaw hSecond
  · intro hPair
    exact hBar hPair.bar

theorem apart_of_isCut
    (hCut : isCut x = true) :
    Apart x := by
  refine apart_of_ne ?_ ?_ ?_ <;>
    · intro hResult
      rw [isCut, hResult] at hCut
      cases hCut

section Resplit

variable {seg seg' : List RawItem}

theorem Resplit.apart
    (hSplit : Resplit seg seg') :
    ∀ x ∈ seg, Apart x := by
  cases hSplit with
  | retype hTyped =>
      intro x hMem
      rw [List.mem_singleton.1 hMem]
      rcases hTyped with ⟨f, g, rfl, rfl⟩ | ⟨f, g, rfl, rfl⟩ <;>
        exact apart_of_ne nofun nofun nofun
  | tile hCut hTiles hPieces =>
      intro x hMem
      rw [List.mem_singleton.1 hMem]
      exact apart_of_isCut hCut
  | quoteBar hCut hBar hWide hStart hStop =>
      intro x hMem
      rw [List.mem_singleton.1 hMem]
      exact apart_of_isCut hCut
  | fuse hCloses hTouch hTiles hMid hPieces =>
      intro x hMem
      rcases List.mem_pair.1 hMem with rfl | rfl
      · exact apart_of_isCut rfl
      · rcases hCloses with ⟨rfl, -⟩ | ⟨rfl, -⟩ <;>
          exact apart_of_ne nofun nofun nofun
  | elif =>
      intro x hMem
      rcases List.mem_pair.1 hMem with rfl | rfl <;>
        exact apart_of_ne nofun nofun nofun

theorem Fitting.of_uncut
    {token : Token}
    {span : Span}
    (hLength : span.start < span.stop)
    (hCut : cutLength token = none) :
    Fitting ⟨.ok token, span⟩ := by
  refine ⟨hLength, ?_, ?_⟩
  · intro token' n hToken hSome
    cases hToken
    rw [hCut] at hSome
    cases hSome
  · intro text hToken
    cases hToken
    cases hCut

/- One item replaced by a tiling. -/
theorem Reshapes.tile
    {pieces : List RawItem}
    (hTiles : TilesSpan x.span.start pieces x.span.stop)
    (hFits : ∀ p ∈ pieces, Fitting p) :
    Reshapes [x] pieces := by
  refine ⟨hFits, ?_, ?_, ?_, ?_⟩
  · exact hTiles.pairwise.imp .inl
  · intro n hAll y hMem
    have hIn := hTiles.within y hMem
    have hFrom := hAll x List.mem_cons_self
    exact Nat.le_trans hFrom hIn.1
  · intro n hAll y hMem
    have hIn := hTiles.within y hMem
    have hTo := hAll x List.mem_cons_self
    exact Nat.le_trans hIn.2.2 hTo
  · intro z hMem b hHolds
    rw [List.mem_singleton.1 hMem] at hHolds
    exact hTiles.covers hHolds.1 hHolds.2

theorem Resplit.reshapes
    (hSplit : Resplit seg seg')
    (hOrdered : seg.Pairwise Before)
    (hFits : ∀ x ∈ seg, Fitting x) :
    Reshapes seg seg' := by
  cases hSplit with
  | @retype token token' span hTyped =>
      have hFit := hFits _ List.mem_cons_self
      have hFit' : Fitting ⟨.ok token', span⟩ := by
        rcases hTyped with ⟨f, g, rfl, rfl⟩ | ⟨f, g, rfl, rfl⟩ <;>
          exact .of_uncut hFit.nonempty rfl
      refine Reshapes.tile ⟨rfl, hFit.nonempty, rfl⟩ ?_
      intro p hMem
      rw [List.mem_singleton.1 hMem]
      exact hFit'
  | tile hCut hTiles hPieces =>
      exact .tile hTiles fun p hMem => (hPieces p hMem).2
  | @quoteBar x close bar hCut hBar hWide hStart hStop =>
      have hBarStart := hBar.start
      have hBarStop := hBar.stop
      refine ⟨?_, ?_, ?_, ?_, ?_⟩
      · rcases hBar with ⟨hClose, hBar, -, -⟩
        rcases close with ⟨closeResult, closeSpan⟩
        rcases bar with ⟨barResult, barSpan⟩
        dsimp only at *
        intro y hMem
        rcases List.mem_pair.1 hMem with rfl | rfl
        · have hLength : closeSpan.start < closeSpan.stop := by omega
          rcases hClose with rfl | rfl
          · exact .of_uncut hLength rfl
          · exact .of_uncut hLength rfl
        · rw [hBar]
          exact .of_uncut (by omega) rfl
      · exact List.pairwise_pair.2 (.inr hBar)
      · intro n hAll y hMem
        have hFrom := hAll x List.mem_cons_self
        rcases List.mem_pair.1 hMem with rfl | rfl <;> omega
      · intro n hAll y hMem
        have hTo := hAll x List.mem_cons_self
        rcases List.mem_pair.1 hMem with rfl | rfl <;> omega
      · intro z hMem b hHolds
        rw [List.mem_singleton.1 hMem] at hHolds
        rcases hHolds with ⟨hLo, hHi⟩
        by_cases hIn : b < close.span.stop
        · exact ⟨close, List.mem_cons_self, by omega, hIn⟩
        · exact ⟨bar, List.mem_cons_of_mem _ List.mem_cons_self,
            by omega, by omega⟩
  | @fuse text closer fused mid op close pieces hCloses hTouch hTiles
      hMid hPieces =>
      have hOp : op.start < op.stop :=
        (hFits _ List.mem_cons_self).nonempty
      have hClose : close.start < close.stop :=
        (hFits ⟨.ok closer, close⟩
          (List.mem_cons_of_mem _ List.mem_cons_self)).nonempty
      have hWhole : TilesSpan op.start
          (pieces ++ [⟨.ok fused, ⟨mid, close.stop⟩⟩]) close.stop :=
        Tiles.append hTiles ⟨rfl, by dsimp only; omega, rfl⟩
      -- the two items make up one range
      have hOne : Reshapes [⟨.ok fused, ⟨op.start, close.stop⟩⟩]
          (pieces ++ [⟨.ok fused, ⟨mid, close.stop⟩⟩]) := by
        refine .tile hWhole ?_
        intro p hMem
        rcases List.mem_append.1 hMem with hPiece | hLast
        · exact (hPieces p hPiece).2
        · rw [List.mem_singleton.1 hLast]
          refine .of_uncut ?_ ?_
          · dsimp only
            omega
          · rcases hCloses with ⟨-, rfl⟩ | ⟨-, rfl⟩ <;> rfl
      refine ⟨hOne.fitting, hOne.ordered, ?_, ?_, ?_⟩
      · intro n hAll
        refine hOne.start n ?_
        intro x hMem
        rw [List.mem_singleton.1 hMem]
        exact hAll ⟨.ok (.Op text), op⟩ List.mem_cons_self
      · intro n hAll
        refine hOne.stop n ?_
        intro x hMem
        rw [List.mem_singleton.1 hMem]
        exact hAll ⟨.ok closer, close⟩
          (List.mem_cons_of_mem _ List.mem_cons_self)
      · intro x hMem b hHolds
        refine hOne.covers _ List.mem_cons_self b ?_
        rcases hHolds with ⟨hLo, hHi⟩
        rcases List.mem_pair.1 hMem with rfl | rfl
        · exact ⟨hLo, by dsimp only at *; omega⟩
        · exact ⟨by dsimp only at *; omega, hHi⟩
  | @elif first second =>
      have hElse := (hFits _ List.mem_cons_self).nonempty
      have hIf := (hFits ⟨.ok .If, second⟩
        (List.mem_cons_of_mem _ List.mem_cons_self)).nonempty
      have hOrder : first.stop ≤ second.start := by
        refine (List.pairwise_pair.1 hOrdered).resolve_right ?_
        intro hPair
        cases hPair.bar
      dsimp only at hElse hIf
      refine ⟨?_, List.pairwise_singleton _ _, ?_, ?_, ?_⟩
      · intro y hMem
        rw [List.mem_singleton.1 hMem]
        exact .of_uncut (by dsimp only; omega) rfl
      · intro n hAll y hMem
        rw [List.mem_singleton.1 hMem]
        exact hAll ⟨.ok .Else, first⟩ List.mem_cons_self
      · intro n hAll y hMem
        rw [List.mem_singleton.1 hMem]
        exact hAll ⟨.ok .If, second⟩
          (List.mem_cons_of_mem _ List.mem_cons_self)
      · intro x hMem b hHolds
        refine ⟨_, List.mem_cons_self, ?_⟩
        rcases hHolds with ⟨hLo, hHi⟩
        unfold HoldsByte
        rcases List.mem_pair.1 hMem with rfl | rfl <;>
          · dsimp only at *
            omega

end Resplit

end LexFilter

end Borzoi
