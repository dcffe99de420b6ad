import Borzoi.LexFilter.Refinement.Heads

/-
  The offside pops perform moves.
-/

namespace Borzoi

namespace LexFilter

open Lexer
open FilterM

section OffsidePops

variable {trusted : Prop} {bounded : Pos → Prop} {useBlockRule : Bool}
variable {P : TokenTup → View → Prop} {t : Abs} {tt : TokenTup}

variable {closing : Option Virtual}

/- A pop of a context that is no block. -/
theorem wp_popPlain
    {Q : Prop}
    {ctxt : Context}
    (hReady : t.Ready trusted bounded tt)
    (hHead : t.stack.head? = some ctxt)
    (hPlain : ctxt.isPlain = true)
    (hClosing : closing = none ∨ closing = some .DeclEnd ∨
      closing = some .End) :
    wp trusted bounded (popAndClose closing tt)
      (Decides trusted bounded useBlockRule Q tt t.view) t := by
  have hBlock : ctxt.isBlock = false := by
    simp only [Context.isPlain, Bool.and_eq_true,
      Bool.not_eq_true'] at hPlain
    exact hPlain.2
  refine wp_popAndClose hReady (.pop hHead ?_ ?_)
  · rcases hClosing with rfl | rfl | rfl
    · exact .silent hPlain
    · exact .declEnd hPlain
    · exact .close hPlain
  · intro hIsBlock
    rw [hBlock] at hIsBlock
    cases hIsBlock

theorem vanillaOffsideRule_holds :
    Holds trusted bounded useBlockRule P vanillaOffsideRule := by
  intro tt t hReady _
  rw [vanillaOffsideRule, wp_bind, wp_head]
  intro _
  split
  · next pos isLongIdentEquals hHead =>
      split
      · exact wp_popPlain hReady hHead rfl (.inl rfl)
      · exact hReady.pass trivial
  · exact hReady.pass trivial

/- No grace moves a `BlockBegin` left of its own column. -/
theorem blockGrace_blockBegin
    (pos : Pos)
    (below : Option Context) :
    0 ≤ blockGrace (.Virtual .BlockBegin) pos below := by
  have hInfix : infixGrace (.Virtual .BlockBegin) = 0 := rfl
  have hContinues :
      isTypeSeqBlockElementContinuator (.Virtual .BlockBegin) =
        true := rfl
  unfold blockGrace
  split
  · simp [hContinues, hInfix]
  · simp [hInfix]
  · simp [hInfix]

theorem seqBlockOffsideRule_holds :
    Holds trusted bounded useBlockRule P seqBlockOffsideRule := by
  intro tt t hReady _
  rw [seqBlockOffsideRule, wp_bind, wp_offsideStack]
  intro _
  split
  · next first pos addBlockEnd rest hStack =>
      dsimp only
      split
      · next hOffside =>
          have hHead : t.stack.head? =
              some (.SeqBlock first pos addBlockEnd) :=
            congrArg List.head? hStack
          refine wp_popAndClose hReady (.pop hHead .block ?_)
          intro _ hBegin hStart
          have hPos : pos = tt.start := hStart
          have hGrace := blockGrace_blockBegin tt.start rest.head?
          rw [hBegin, hPos] at hOffside
          rcases hOffside with hSemi | hLeft
          · cases hSemi
          · omega
      · exact hReady.pass trivial
  · exact hReady.pass trivial

theorem firstTokenRule_holds :
    Holds trusted bounded useBlockRule P
      (firstTokenRule useBlockRule) := by
  intro tt t hReady _
  rw [firstTokenRule, wp_bind, wp_head]
  intro hStack
  split
  · next pos addBlockEnd hHead =>
      have hPos : t.GoodPos trusted bounded pos :=
        hStack (.SeqBlock true pos addBlockEnd)
          (List.mem_of_mem_head? hHead)
      simp only [wp_bind, wp_replaceCtxt, wp_delayToken, wp_pure]
      refine ⟨hPos, hReady.good.mono fun _ => id, hReady.fenced, ?_⟩
      exact .restartWithoutBlockRule (.flip rfl hHead)
  · exact hReady.pass trivial

/- The prefix test looks at most one token ahead. -/
theorem wp_adjacentPrefixOp
    {Q : Bool → Abs → Prop}
    (hReady : t.Ready trusted bounded tt)
    (hPost : ∀ b u, t.Peeked trusted bounded tt u → Q b u) :
    wp trusted bounded (adjacentPrefixOp tt) Q t := by
  unfold adjacentPrefixOp
  simp only [wp_bind, wp_core, coreContract]
  split
  · next hCapable =>
      have hToken : tt.token ≠ .Real .SemiSemi := by
        intro hSemi
        rw [hSemi, Bool.and_eq_true] at hCapable
        cases hCapable.2
      rw [wp_bind]
      refine hReady.wp_peek hToken ?_
      intro u hPeek _
      split
      · exact hPost _ u hPeek
      · exact hPost _ u hPeek
  · exact hPost _ t (.refl hReady)

theorem blockSepRule_holds :
    Holds trusted bounded useBlockRule P
      (blockSepRule useBlockRule) := by
  intro tt t hReady _
  rw [blockSepRule, wp_bind, wp_offsideStack]
  intro hStack
  split
  · next pos addBlockEnd rest hShape =>
      split
      · rw [wp_bind]
        refine wp_adjacentPrefixOp hReady ?_
        intro prefixOp u hPeek
        have hHead : u.stack.head? =
            some (.SeqBlock false pos addBlockEnd) := by
          have hSame : u.stack = t.stack :=
            congrArg View.stack hPeek.view
          rw [hSame, hShape]
          rfl
        have hMem : .SeqBlock false pos addBlockEnd ∈ t.stack := by
          rw [hShape]
          exact List.mem_cons_self
        rw [← hPeek.view]
        split
        · exact hPeek.ready.pass trivial
        · simp only [wp_bind, wp_replaceCtxt]
          refine ⟨(hStack _ hMem).mono hPeek.known,
            wp_insertTokenFromPrevToCurrent
              (hPeek.ready.good.mono fun _ => id)
              hPeek.ready.fenced ?_⟩
          intro out hOut
          exact hPeek.ready.emit rfl (.sep rfl hHead hOut)
      · exact hReady.pass trivial
  · exact hReady.pass trivial

theorem blockOffside_holds :
    Holds trusted bounded useBlockRule P
      (blockOffside useBlockRule) := by
  refine Meets.firstOf_all ?_
  simp only [List.forall_mem_cons, List.not_mem_nil]
  exact ⟨vanillaOffsideRule_holds, seqBlockOffsideRule_holds,
    firstTokenRule_holds, blockSepRule_holds, fun _ h => by cases h⟩

/- The dummy stands where the balanced token stood. -/
theorem wp_delayDummy
    {Q : Unit → Abs → Prop}
    {inner : Token}
    (hGood : t.GoodTok trusted bounded tt)
    (hPost : ∀ prevEnd,
      Q () (t.delay ⟨tt.withToken (.Dummy prevEnd inner), false⟩)) :
    wp trusted bounded (delayDummy tt inner) Q t := by
  simp only [delayDummy, wp_bind, wp_core, coreContract,
    wp_delayToken]
  exact ⟨hGood.asDummy _ _, .of_ne (fun h => by cases h), hPost _⟩

theorem inBalancesLetRule_holds :
    Holds trusted bounded useBlockRule P inBalancesLetRule := by
  intro tt t hReady _
  rw [inBalancesLetRule, wp_bind, wp_head]
  intro _
  split
  · next blockLet pos hHead =>
      split
      · next hIn =>
          have hReal : tt.token.isReal = true := by
            rw [hIn]
            rfl
          rw [wp_bind, wp_popCtxt, wp_bind]
          refine wp_delayDummy (hReady.good.mono fun _ => id) ?_
          intro prevEnd
          have hShape : Shape tt t.stack t.parenDepth t.stack.tail
              [tt.withToken (.Dummy prevEnd .In)] t.parenDepth :=
            .balance hHead rfl (by decide)
          split
          · have hVirtual : Output useBlockRule tt
                (.Yield (tt.asVirtual .DeclEnd)) := by
              refine .virtual ?_ (by decide)
              rw [hIn]
              rfl
            rw [wp_bind, wp_setLastRealEnd]
            exact hReady.emit rfl (.shiftTo hReal hShape hVirtual rfl)
          · exact hReady.emit rfl (.shiftTo hReal hShape .asIs rfl)
      · exact hReady.pass trivial
  · exact hReady.pass trivial

theorem doneBalancesDoRule_holds :
    Holds trusted bounded useBlockRule P doneBalancesDoRule := by
  intro tt t hReady _
  rw [doneBalancesDoRule, wp_bind, wp_head]
  intro _
  split
  · next pos hHead =>
      split
      · next hDone =>
          simp only [wp_bind, wp_popCtxt, wp_setLastRealEnd,
            wp_delayToken, wp_pure]
          refine ⟨hReady.good.asVirtual _,
            .of_ne (fun h => by cases h), .restart
            (.shift ?_ (.done hHead) (.swallow ?_))⟩
          · rw [hDone]
            rfl
          · rw [hDone]
            rfl
      · exact hReady.pass trivial
  · exact hReady.pass trivial

theorem inDoneBalances_holds :
    Holds trusted bounded useBlockRule P inDoneBalances := by
  refine Meets.firstOf_all ?_
  simp only [List.forall_mem_cons, List.not_mem_nil]
  exact ⟨inBalancesLetRule_holds, doneBalancesDoRule_holds,
    fun _ h => by cases h⟩

/- A generic pop of the contexts `anchor` selects. -/
theorem offsidePop_meets
    {anchor : Context → Option Pos}
    {slack : TokenContent → Bool}
    (hAnchor : ∀ ctxt pos, anchor ctxt = some pos →
      ctxt.isPlain = true)
    (hClosing : closing = none ∨ closing = some .DeclEnd ∨
      closing = some .End) :
    Meets trusted bounded useBlockRule P
      (fun tt v => ∀ pos, v.stack.head?.bind anchor = some pos →
        pos.col < tt.start.col + (slack tt.token).toNat)
      (offsidePop anchor slack closing) := by
  intro tt t hReady _
  rw [offsidePop, wp_bind, wp_head]
  intro _
  split
  · next pos hSelected =>
      split
      · rcases Option.bind_eq_some_iff.1 hSelected with
          ⟨ctxt, hHead, hPos⟩
        exact wp_popPlain hReady hHead (hAnchor ctxt pos hPos) hClosing
      · next hRight =>
          refine hReady.pass ?_
          intro pos' hSelected'
          have hSame : pos' = pos :=
            Option.some.inj (hSelected'.symm.trans hSelected)
          rw [hSame]
          rw [not_or] at hRight
          exact Nat.lt_of_not_le hRight.2
  · next hOther =>
      refine hReady.pass ?_
      intro pos hSelected
      exact absurd (hSelected.symm.trans hOther) (by simp)

theorem keywordOffsidePops_holds :
    Holds trusted bounded useBlockRule P keywordOffsidePops := by
  refine Meets.firstOf_all ?_
  simp only [List.forall_mem_cons, List.not_mem_nil]
  refine ⟨?_, ?_, ?_, ?_, ?_, ?_, ?_, ?_, ?_, ?_, ?_, ?_, ?_,
    fun _ h => by cases h⟩ <;>
    refine (offsidePop_meets ?_ (by simp)).weaken (fun _ _ _ => trivial) <;>
    intro ctxt pos hAnchor <;>
    cases ctxt <;> first | rfl | cases hAnchor

theorem matchClausesOffsideRule_holds :
    Holds trusted bounded useBlockRule P matchClausesOffsideRule := by
  intro tt t hReady _
  rw [matchClausesOffsideRule, wp_bind, wp_head]
  intro _
  split
  · next leadingBar pos hHead =>
      split
      · exact wp_popPlain hReady hHead rfl (.inr (.inr rfl))
      · exact hReady.pass trivial
  · exact hReady.pass trivial

theorem letDeclOffsideRule_holds :
    Holds trusted bounded useBlockRule P letDeclOffsideRule := by
  intro tt t hReady _
  rw [letDeclOffsideRule, wp_bind, wp_head]
  intro _
  split
  · next blockLet pos hHead =>
      dsimp only
      split
      · refine wp_popPlain hReady hHead rfl ?_
        cases blockLet
        · exact .inl rfl
        · exact .inr (.inl rfl)
      · exact hReady.pass trivial
  · exact hReady.pass trivial

/- What an `end` under an augmentation is right of. -/
def RightOfAugment
    (tt : TokenTup)
    (v : View) :
    Prop :=
  ∀ pos, v.stack.head? = some (.WithAsAugment pos) →
    tt.token = .Real .End → pos.col < tt.start.col + 1

theorem withAsAugmentOffsideRule_meets :
    Meets trusted bounded useBlockRule P RightOfAugment
      withAsAugmentOffsideRule := by
  refine (offsidePop_meets ?_ (.inr (.inl rfl))).weaken ?_
  · intro ctxt pos hAnchor
    cases ctxt <;> first | rfl | cases hAnchor
  · intro tt v hRight pos hHead hEnd
    have hLess := hRight pos (by rw [hHead]; rfl)
    rw [hEnd] at hLess
    exact hLess

/- `clause_offside_pops` leaves an `end` right of its `with`. -/
theorem clauseOffsidePops_meets :
    Meets trusted bounded useBlockRule P RightOfAugment
      clauseOffsidePops := by
  refine matchClausesOffsideRule_holds.firstOf_cons ?_
  refine letDeclOffsideRule_holds.firstOf_cons ?_
  have hWithAsLet : Holds trusted bounded useBlockRule
      (fun tt v => (P tt v ∧ True) ∧ True) withAsLetOffsideRule := by
    refine (offsidePop_meets ?_ (.inr (.inr rfl))).weaken
      fun _ _ _ => trivial
    intro ctxt pos hAnchor
    cases ctxt <;> first | rfl | cases hAnchor
  refine hWithAsLet.firstOf_cons ?_
  refine withAsAugmentOffsideRule_meets.firstOf_cons ?_
  exact fun _ _ hReady hFacts => hReady.pass hFacts.2

/- No `end` is left under an augmentation. -/
def NoAugmentEnd
    (tt : TokenTup)
    (v : View) :
    Prop :=
  ∀ pos, v.stack.head? = some (.WithAsAugment pos) →
    tt.token ≠ .Real .End

theorem endBalancesAugment_meets :
    Meets trusted bounded useBlockRule RightOfAugment NoAugmentEnd
      endBalancesAugment := by
  intro tt t hReady hRight
  rw [endBalancesAugment, wp_bind, wp_head]
  intro _
  split
  · next pos hHead =>
      split
      · next hEnd =>
          have hReal : tt.token.isReal = true := by
            rw [hEnd.1]
            rfl
          have hVirtual : Output useBlockRule tt
              (.Yield (tt.asVirtual .End)) := by
            refine .virtual ?_ (by decide)
            rw [hEnd.1]
            rfl
          rw [wp_bind, wp_popCtxt, wp_bind]
          refine wp_delayDummy (hReady.good.mono fun _ => id) ?_
          intro prevEnd
          rw [wp_bind, wp_setLastRealEnd]
          exact hReady.emit rfl (.shiftTo hReal
            (.balance hHead rfl (by decide)) hVirtual rfl)
      · next hOther =>
          refine hReady.pass ?_
          intro pos' hHead' hEnd
          cases hHead.symm.trans hHead'
          exact hOther ⟨hEnd, hRight pos hHead hEnd⟩
  · next hOther =>
      exact hReady.pass fun pos hHead => absurd hHead (hOther pos)

theorem moduleBodyOffsideRule_holds :
    Holds trusted bounded useBlockRule P moduleBodyOffsideRule := by
  intro tt t hReady _
  rw [moduleBodyOffsideRule, wp_bind, wp_head]
  intro _
  split
  · next pos wholeFile hHead =>
      dsimp only
      split
      · exact wp_popPlain hReady hHead rfl (.inl rfl)
      · exact hReady.pass trivial
  · exact hReady.pass trivial

theorem namespaceBodyOffsideRule_holds :
    Holds trusted bounded useBlockRule P namespaceBodyOffsideRule := by
  intro tt t hReady _
  rw [namespaceBodyOffsideRule, wp_bind, wp_head]
  intro _
  split
  · next pos hHead =>
      dsimp only
      split
      · exact wp_popPlain hReady hHead rfl (.inl rfl)
      · exact hReady.pass trivial
  · exact hReady.pass trivial

theorem memberBodyOffsideRule_holds :
    Holds trusted bounded useBlockRule P memberBodyOffsideRule := by
  intro tt t hReady _
  rw [memberBodyOffsideRule, wp_bind, wp_head]
  intro _
  split
  · next pos hHead =>
      split
      · exact wp_popPlain hReady hHead rfl (.inl rfl)
      · split
        · exact wp_popPlain hReady hHead rfl (.inr (.inl rfl))
        · exact hReady.pass trivial
  · exact hReady.pass trivial

theorem declOffsidePops_holds :
    Holds trusted bounded useBlockRule P declOffsidePops := by
  refine Meets.firstOf_all ?_
  simp only [List.forall_mem_cons, List.not_mem_nil]
  refine ⟨?_, moduleBodyOffsideRule_holds,
    namespaceBodyOffsideRule_holds, memberBodyOffsideRule_holds, ?_,
    fun _ h => by cases h⟩ <;>
    refine (offsidePop_meets ?_ (.inl rfl)).weaken (fun _ _ _ => trivial) <;>
    intro ctxt pos hAnchor <;>
    cases ctxt <;> first | rfl | cases hAnchor

end OffsidePops

end LexFilter

end Borzoi
