import Borzoi.LexFilter.Undentation
import Borzoi.Program.Effects

/-
  The operations the rules of the filter are made of.

  Most operations act on the `Core` alone.  The language version is
  consulted by `tryPushCtxt`, which may refuse a push, and by the two
  diagnostics.
-/

namespace Borzoi

namespace LexFilter

open Lexer
open Program

namespace Core

/- `byte_offset`: the binary search for a line's start. -/
def byteOffset
    (s : Core)
    (pos : Pos) :
    Except Panic Nat :=
  match s.lineStarts.find? fun entry => entry.1 == pos.line with
  | some entry => .ok (entry.2 + pos.col)
  | none => .error .LineStartMissing

/- `utf16_col`. -/
def utf16Col
    (s : Core)
    (pos : Pos) :
    Except Panic Nat :=
  match s.byteOffset ⟨pos.line, 0⟩ with
  | .error e => .error e
  | .ok lineStart =>
      match sliceSource s.source lineStart (lineStart + pos.col) with
      | .error e => .error e
      | .ok bytes => .ok (utf16Length bytes)

/- Contexts that are never offside. -/
def ignoresIndent
    (ctxt : Context) :
    Bool :=
  match ctxt with
  | .Vanilla _ _ => true
  | .Paren _ .InterpFill => true
  | _ => false

/-
  `is_correct_indent`: `none` when the context may start here, else
  the message of the diagnostic.
-/
def isCorrectIndent
    (s : Core)
    (ignoreIndent anchorIsEof : Bool)
    (ctxt : Context) :
    Except Panic (Option OffsideMessage) :=
  if ignoreIndent || ignoresIndent ctxt then
    .ok none
  else
    match undentationLimit true ctxt s.offsideStack
        s.undentationSkip with
    | .error e => .error e
    | .ok limit =>
        let c2 : Int :=
          ctxt.startPos.col - (if anchorIsEof then 1 else 0)
        if limit.col ≤ c2 then
          .ok none
        else
          match s.utf16Col limit.pos with
          | .error e => .error e
          | .ok col =>
              .ok (some (.Undentation limit.pos.line (col + 1)))

/- The record of a push, when the caller asked for it. -/
def recordPush
    (s : Core)
    (ctxt : Context) :
    Except Panic (Option (List ContextPush)) :=
  match s.pushes with
  | none => .ok none
  | some pushes =>
      match s.byteOffset ctxt.startPos with
      | .error e => .error e
      | .ok anchor =>
          .ok (some (pushes ++
            [⟨.of ctxt, anchor, s.offsideStack.length⟩]))

/- Push a context and its skip link. -/
def pushContext
    (s : Core)
    (ctxt : Context) :
    Except Panic Core :=
  match s.recordPush ctxt with
  | .error e => .error e
  | .ok pushes =>
      match skipEntry ctxt s.offsideStack.length
          s.undentationSkip with
      | .error e => .error e
      | .ok entry =>
          .ok { s with
            pushes := pushes
            offsideStack := ctxt :: s.offsideStack
            undentationSkip := entry :: s.undentationSkip }

/- `pop_ctxt`. -/
def popCtxt
    (s : Core) :
    Option Context × Core :=
  match s.offsideStack with
  | [] => (none, s)
  | ctxt :: rest =>
      (some ctxt,
        { s with
          offsideStack := rest
          undentationSkip := s.undentationSkip.tail })

end Core

namespace Filter

/- Report an indentation fault at the trigger. -/
def reportFault
    (s : Filter)
    (trigger : Span)
    (fault : Option OffsideMessage) :
    Filter :=
  match fault with
  | none => s
  | some message =>
      let severity :=
        if s.strictIndentationIsError then .Error else .Warning
      { s with
        diagnostics := s.diagnostics ++ [⟨message, trigger, severity⟩] }

/- Raise the shape flag at an offside version-gated push. -/
def raiseShapeFlag
    (s : Filter)
    (strictness : PushStrictness)
    (fault : Option OffsideMessage) :
    Filter :=
  match strictness, fault with
  | .VersionGated, some _ =>
      { s with shapeDependsOnLanguageVersion := true }
  | _, _ => s

/- Whether an offside push of this strictness is refused. -/
def refusesOffside
    (s : Filter)
    (strictness : PushStrictness) :
    Bool :=
  match strictness with
  | .AlwaysLenient => false
  | .VersionGated => s.strictIndentationIsError

/- `try_push_ctxt`. -/
def tryPushCtxt
    (s : Filter)
    (strictness : PushStrictness)
    (ignoreIndent anchorIsEof : Bool)
    (trigger : Span)
    (ctxt : Context) :
    Except Panic (Bool × Filter) :=
  match s.isCorrectIndent ignoreIndent anchorIsEof ctxt with
  | .error e => .error e
  | .ok fault =>
      let s₁ := (s.reportFault trigger fault).raiseShapeFlag
        strictness fault
      if s.refusesOffside strictness && fault.isSome then
        .ok (false, s₁)
      else
        match s₁.pushContext ctxt with
        | .error e => .error e
        | .ok core => .ok (true, { s₁ with toCore := core })

/- A push is refused or goes through. -/
theorem tryPushCtxt_cases
    {s t : Filter}
    {strictness : PushStrictness}
    {ignoreIndent anchorIsEof : Bool}
    {trigger : Span}
    {ctxt : Context}
    {pushed : Bool}
    (hPush : s.tryPushCtxt strictness ignoreIndent anchorIsEof trigger
      ctxt = .ok (pushed, t)) :
    ∃ fault, s.isCorrectIndent ignoreIndent anchorIsEof ctxt =
        .ok fault ∧
      let s₁ := (s.reportFault trigger fault).raiseShapeFlag
        strictness fault
      (pushed = false ∧ s.refusesOffside strictness = true ∧
          fault.isSome = true ∧ t = s₁) ∨
        (pushed = true ∧
          (s.refusesOffside strictness && fault.isSome) = false ∧
          ∃ core, s₁.pushContext ctxt = .ok core ∧
            t = { s₁ with toCore := core }) := by
  unfold tryPushCtxt at hPush
  cases hIndent : s.isCorrectIndent ignoreIndent anchorIsEof ctxt with
  | error e =>
      rw [hIndent] at hPush
      cases hPush
  | ok fault =>
      rw [hIndent] at hPush
      refine ⟨fault, rfl, ?_⟩
      dsimp only at hPush ⊢
      split at hPush
      · next hRefused =>
          simp only [Except.ok.injEq, Prod.mk.injEq] at hPush
          simp only [Bool.and_eq_true] at hRefused
          exact .inl ⟨hPush.1.symm, hRefused.1, hRefused.2,
            hPush.2.symm⟩
      · next hGoes =>
          split at hPush
          · cases hPush
          · next core hCore =>
              simp only [Except.ok.injEq, Prod.mk.injEq] at hPush
              exact .inr ⟨hPush.1.symm, by simpa using hGoes, core,
                hCore, hPush.2.symm⟩

/- Reporting a fault leaves the core alone. -/
@[simp] theorem reportFault_toCore
    (s : Filter)
    (trigger : Span)
    (fault : Option OffsideMessage) :
    (s.reportFault trigger fault).toCore = s.toCore := by
  cases fault <;> rfl

end Filter

/- `has_paren_context`. -/
def hasParenContext
    (stack : List Context) :
    Bool :=
  match stack with
  | .Paren _ _ :: _ => true
  | .SeqBlock _ _ _ :: rest => hasParenContext rest
  | .Vanilla _ _ :: rest => hasParenContext rest
  | _ => false

/- `is_in_member_context`. -/
def isInMemberContext
    (stack : List Context) :
    Bool :=
  match stack with
  | .MemberHead _ :: _ => true
  | .MemberBody _ :: _ => true
  | .WithAsAugment _ :: _ => true
  | .SeqBlock _ _ _ :: rest => isInMemberContext rest
  | .Vanilla _ _ :: rest => isInMemberContext rest
  | _ => false

/- `check_nesting`. -/
def checkNesting
    (tok : Pos)
    (typeDefnsSeen : Bool)
    (stack : List Context) :
    Bool :=
  match stack with
  | [] => false
  | ctxt :: rest =>
      match ctxt with
      | .ModuleBody _ _ | .NamespaceBody _ => false
      | .TypeDefns typePos _ =>
          if typePos.line < tok.line && typePos.col < tok.col then
            !isInMemberContext (ctxt :: rest)
          else
            checkNesting tok true rest
      | .SeqBlock _ _ _ | .Vanilla _ _ | .Paren _ _ =>
          checkNesting tok typeDefnsSeen rest
      | .MemberHead _ | .MemberBody _ =>
          if typeDefnsSeen then
            false
          else
            checkNesting tok typeDefnsSeen rest
      | _ => checkNesting tok typeDefnsSeen rest

/- `is_invalid_decl_in_type_defn`. -/
def isInvalidDeclInTypeDefn
    (stack : List Context)
    (tok : Pos) :
    Bool :=
  !hasParenContext stack && checkNesting tok false stack

/- `check_invalid_decl_in_type_defn`. -/
def Filter.checkInvalidDeclInTypeDefn
    (s : Filter)
    (keyword : NestedDeclKeyword)
    (tok : TokenTup) :
    Filter :=
  if s.reportsInvalidDeclsInType &&
      isInvalidDeclInTypeDefn s.offsideStack tok.start then
    { s with
      diagnostics := s.diagnostics ++
        [⟨.NestedDecl keyword, tok.span, .Error⟩] }
  else
    s

/- Operations on the part no language version decides. -/
inductive CoreOp : Type → Type
  | offsideStack : CoreOp (List Context)
  | parenDepth : CoreOp Nat
  | lastRealEnd : CoreOp Nat
  | lastRealWasAtomicEnd : CoreOp Bool
  | tokensThatNeedNoProcessing : CoreOp Nat
  | sourceByte (i : Nat) : CoreOp (Option UInt8)
  | tokensLeft : CoreOp Nat
  | pullRaw : CoreOp (Option TokenTup)
  | peekNextTokenTup : CoreOp (Option TokenTup)
  | popNextTokenTup : CoreOp (Option TokenTup)
  | delayToken (tt : TokenTup) : CoreOp Unit
  | delayTokenNoProcessing (tt : TokenTup) : CoreOp Unit
  | popCtxt : CoreOp (Option Context)
  | setLastRealEnd (n : Nat) : CoreOp Unit
  | setLastRealWasAtomicEnd (b : Bool) : CoreOp Unit
  | setParenDepth (n : Nat) : CoreOp Unit
  | setTokensThatNeedNoProcessing (n : Nat) : CoreOp Unit
  | setInitialized (b : Bool) : CoreOp Unit
  | panic (p : Panic) : CoreOp Empty

/- Operations that consult the language version. -/
inductive VersionOp : Type → Type
  | tryPushCtxt
      (strictness : PushStrictness)
      (ignoreIndent anchorIsEof : Bool)
      (trigger : Span)
      (ctxt : Context) :
      VersionOp Bool
  | checkInvalidDeclInTypeDefn
      (keyword : NestedDeclKeyword)
      (tok : TokenTup) :
      VersionOp Unit

/- The operations of the filter. -/
inductive Op
    (β : Type)
  | core (o : CoreOp β)
  | version (o : VersionOp β)

/- The effect of an operation on the core. -/
def CoreOp.exec
    {β : Type}
    (o : CoreOp β)
    (s : Core) :
    Except Panic (β × Core) :=
  match o with
  | .offsideStack => .ok (s.offsideStack, s)
  | .parenDepth => .ok (s.parenDepth, s)
  | .lastRealEnd => .ok (s.lastRealEnd, s)
  | .lastRealWasAtomicEnd => .ok (s.lastRealWasAtomicEnd, s)
  | .tokensThatNeedNoProcessing =>
      .ok (s.tokensThatNeedNoProcessing, s)
  | .sourceByte i => .ok (s.source[i]?, s)
  | .tokensLeft => .ok (s.tokensLeft, s)
  | .pullRaw => s.pullRaw
  | .peekNextTokenTup => s.peekNextTokenTup
  | .popNextTokenTup => s.popNextTokenTup
  | .delayToken tt => .ok ((), s.delayToken tt)
  | .delayTokenNoProcessing tt =>
      .ok ((), s.delayTokenNoProcessing tt)
  | .popCtxt => .ok s.popCtxt
  | .setLastRealEnd n => .ok ((), { s with lastRealEnd := n })
  | .setLastRealWasAtomicEnd b =>
      .ok ((), { s with lastRealWasAtomicEnd := b })
  | .setParenDepth n => .ok ((), { s with parenDepth := n })
  | .setTokensThatNeedNoProcessing n =>
      .ok ((), { s with tokensThatNeedNoProcessing := n })
  | .setInitialized b => .ok ((), { s with initialized := b })
  | .panic p => .error p

/- The effect of a version-dependent operation. -/
def VersionOp.exec
    {β : Type}
    (o : VersionOp β)
    (s : Filter) :
    Except Panic (β × Filter) :=
  match o with
  | .tryPushCtxt strictness ignoreIndent anchorIsEof trigger ctxt =>
      s.tryPushCtxt strictness ignoreIndent anchorIsEof trigger ctxt
  | .checkInvalidDeclInTypeDefn keyword tok =>
      .ok ((), s.checkInvalidDeclInTypeDefn keyword tok)

/- The effect of an operation on the filter. -/
def Op.exec : Handler Op Filter Panic := fun _ o s =>
  match o with
  | .core o =>
      match o.exec s.toCore with
      | .ok (b, t) => .ok (b, { s with toCore := t })
      | .error e => .error e
  | .version o => o.exec s

/- Programs over the operations of the filter. -/
abbrev FilterM := Prog Op

namespace FilterM

/- Perform an operation on the core. -/
def core
    {β : Type}
    (o : CoreOp β) :
    FilterM β :=
  Prog.perform (.core o)

def offsideStack : FilterM (List Context) := core .offsideStack

/- `head`. -/
def head : FilterM (Option Context) := do
  return (← offsideStack).head?

def peekNextTokenTup : FilterM (Option TokenTup) :=
  core .peekNextTokenTup

def popNextTokenTup : FilterM (Option TokenTup) :=
  core .popNextTokenTup

def delayToken
    (tt : TokenTup) :
    FilterM Unit :=
  core (.delayToken tt)

def delayTokenNoProcessing
    (tt : TokenTup) :
    FilterM Unit :=
  core (.delayTokenNoProcessing tt)

def popCtxt : FilterM (Option Context) := core .popCtxt

def setLastRealEnd
    (n : Nat) :
    FilterM Unit :=
  core (.setLastRealEnd n)

def panic
    {α : Type}
    (p : Panic) :
    FilterM α := do
  let impossible ← core (.panic p)
  return impossible.elim

/- Unsigned subtraction. -/
def sub
    (a b : Nat) :
    FilterM Nat :=
  if b ≤ a then return a - b else panic .SubtractOverflow

/- `expect` on an optional value. -/
def expect
    {α : Type}
    (value : Option α) :
    FilterM α :=
  match value with
  | some a => return a
  | none => panic .ExpectFailed

def tryPushCtxt
    (strictness : PushStrictness)
    (ignoreIndent anchorIsEof : Bool)
    (trigger : Span)
    (ctxt : Context) :
    FilterM Bool :=
  Prog.perform (.version
    (.tryPushCtxt strictness ignoreIndent anchorIsEof trigger ctxt))

/- `push_ctxt`. -/
def pushCtxt
    (trigger : Span)
    (ctxt : Context) :
    FilterM Unit := do
  let _ ← tryPushCtxt .AlwaysLenient false false trigger ctxt
  return ()

def checkInvalidDeclInTypeDefn
    (keyword : NestedDeclKeyword)
    (tok : TokenTup) :
    FilterM Unit :=
  Prog.perform (.version (.checkInvalidDeclInTypeDefn keyword tok))

/- `insert_token`: delay the token behind a virtual in its place. -/
def insertToken
    (virt : Virtual)
    (tt : TokenTup) :
    FilterM TokenTup := do
  delayToken tt
  return tt.asVirtual virt

/-
  `insert_token_from_prev_to_current`: the virtual fills the gap
  after the previous token.
-/
def insertTokenFromPrevToCurrent
    (virt : Virtual)
    (tt : TokenTup) :
    FilterM TokenTup := do
  let prevEnd ←
    match tt.token with
    | .Dummy prevEnd _ => pure prevEnd
    | _ => core .lastRealEnd
  let spanStart := min (prevEnd + 1) tt.span.start
  delayToken tt
  return ⟨.Virtual virt, ⟨spanStart, tt.span.start⟩, tt.start, tt.start⟩

/- The `BlockBegin` virtual in front of an anchor. -/
def delayBlockBegin
    (addBlockEnd : AddBlockEnd)
    (anchor : TokenTup) :
    FilterM Unit :=
  match addBlockEnd with
  | .Yes => delayToken (anchor.asVirtual .BlockBegin)
  | .No | .OneSided => return ()

/- `push_ctxt_seq_block_at`. -/
def pushCtxtSeqBlockAt
    (strictness : PushStrictness)
    (useFallback : Bool)
    (fallback : TokenTup)
    (addBlockEnd : AddBlockEnd) :
    FilterM Unit := do
  let target ← peekNextTokenTup
  let pushed ←
    match target with
    | some t =>
        tryPushCtxt strictness false (t.token == .Eof) t.span
          (.SeqBlock true t.start addBlockEnd)
    | none => pure false
  if pushed then
    delayBlockBegin addBlockEnd (← expect target)
  else if useFallback then
    pushCtxt fallback.span (.SeqBlock false fallback.start addBlockEnd)
    delayBlockBegin addBlockEnd fallback
  else
    return ()

/- `push_ctxt_seq_block`. -/
def pushCtxtSeqBlock
    (fallback : TokenTup)
    (addBlockEnd : AddBlockEnd) :
    FilterM Unit :=
  pushCtxtSeqBlockAt .VersionGated true fallback addBlockEnd

/- `try_push_ctxt_seq_block`. -/
def tryPushCtxtSeqBlock
    (fallback : TokenTup)
    (addBlockEnd : AddBlockEnd) :
    FilterM Unit :=
  pushCtxtSeqBlockAt .VersionGated false fallback addBlockEnd

end FilterM

end LexFilter

end Borzoi
