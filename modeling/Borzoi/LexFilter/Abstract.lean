import Borzoi.LexFilter.Fetch

/-
  The abstract filter.

  The abstract state forgets the cursor.  Its `pending` list is the
  delayed stack followed by all tokens the raw stream will still
  yield, so looking ahead does not change it.

  `trusted` says that the token stream was lexed from the source.  An
  untrusted stream may panic in slices and subtractions, and nowhere
  else.
-/

namespace Borzoi

namespace LexFilter

open Lexer
open Program

/-
  `pulled` counts the pending tokens already taken from the raw
  stream.  `known` are the lines with a recorded start.
-/
structure Abs where
  pending : List Delayed
  pulled : Nat
  stack : List Context
  parenDepth : Nat
  lastRealEnd : Nat
  lastRealWasAtomicEnd : Bool
  noProcessing : Nat
  initialized : Bool
  known : Nat → Prop

/- The number of bytes of the tokens the filter cuts. -/
def cutLength
    (token : Token) :
    Option Nat :=
  match token with
  | .LQuote | .GreaterRBrack => some 2
  | .RQuoteDot | .DotDotHat => some 3
  | .RQuoteRawDot | .RQuoteBarRBrace => some 4
  | .RQuoteRawBarRBrace => some 5
  | .IntDotDot text => some text.length
  | .Op text => some text.length
  | _ => none

/-
  A token whose positions are character boundaries.  A token the
  filter cuts lies on one line and covers its text, with a boundary
  at each byte.
-/
structure Sound
    (bounded : Pos → Prop)
    (tt : TokenTup) :
    Prop where
  start : bounded tt.start
  stop : bounded tt.stop
  cut : ∀ token n, tt.token = .Real token →
    cutLength token = some n →
    tt.stop = ⟨tt.start.line, tt.start.col + n⟩ ∧
      tt.span.stop = tt.span.start + n ∧
      ∀ i ≤ n, bounded ⟨tt.start.line, tt.start.col + i⟩
  digits : ∀ text, tt.token = .Real (.IntDotDot text) →
    2 ≤ text.length

namespace Abs

variable (trusted : Prop) (bounded : Pos → Prop)

/- A position the filter may record. -/
def GoodPos
    (t : Abs)
    (pos : Pos) :
    Prop :=
  t.known pos.line ∧ (trusted → bounded pos)

/- A token the filter may queue. -/
def GoodTok
    (t : Abs)
    (tt : TokenTup) :
    Prop :=
  t.known tt.start.line ∧ t.known tt.stop.line ∧
    (trusted → Sound bounded tt)

/-
  A token the filter may put back: nothing behind `;;` has been
  pulled.
-/
def Fenced
    (t : Abs)
    (tt : TokenTup) :
    Prop :=
  tt.token = .Real .SemiSemi → t.pulled = 0

/- The state after more lines have been recorded. -/
def grow
    (t : Abs)
    (known : Nat → Prop) :
    Abs :=
  { t with known := known }

/- The state after looking at the next token. -/
def look
    (t : Abs)
    (known : Nat → Prop) :
    Abs :=
  { t with pulled := max 1 t.pulled, known := known }

/- The state after taking the next token. -/
def take
    (t : Abs)
    (rest : List Delayed)
    (known : Nat → Prop) :
    Abs :=
  { t with
    pending := rest
    pulled := t.pulled - 1
    known := known }

/- Queue a token. -/
def delay
    (t : Abs)
    (d : Delayed) :
    Abs :=
  { t with pending := d :: t.pending, pulled := t.pulled + 1 }

/- Push a context. -/
def push
    (t : Abs)
    (ctxt : Context) :
    Abs :=
  { t with stack := ctxt :: t.stack }

end Abs

section Contracts

variable (trusted : Prop) (bounded : Pos → Prop)

/- Taking the next token from the queue. -/
def takeContract
    (Q : Option TokenTup → Abs → Prop)
    (t : Abs) :
    Prop :=
  match t.pending with
  | [] => ∀ known, (∀ l, t.known l → known l) → Q none (t.grow known)
  | d :: rest =>
      ∀ known, (∀ l, t.known l → known l) →
        (t.grow known).GoodTok trusted bounded d.tup →
        (d.tup.token = .Real .SemiSemi → t.pulled - 1 = 0) →
        Q (some d.tup) (t.take rest known)

/- Looking at the next token. -/
def lookContract
    (Q : Option TokenTup → Abs → Prop)
    (t : Abs) :
    Prop :=
  match t.pending with
  | [] => ∀ known, (∀ l, t.known l → known l) → Q none (t.grow known)
  | d :: _ =>
      ∀ known, (∀ l, t.known l → known l) →
        (t.grow known).GoodTok trusted bounded d.tup →
        Q (some d.tup) (t.look known)

/- The operations on the core. -/
def coreContract
    {β : Type}
    (o : CoreOp β)
    (Q : β → Abs → Prop)
    (t : Abs) :
    Prop :=
  match o with
  | .offsideStack =>
      (∀ c ∈ t.stack, t.GoodPos trusted bounded c.startPos) →
        Q t.stack t
  | .parenDepth => Q t.parenDepth t
  | .lastRealEnd => Q t.lastRealEnd t
  | .lastRealWasAtomicEnd => Q t.lastRealWasAtomicEnd t
  | .tokensThatNeedNoProcessing => Q t.noProcessing t
  | .sourceByte _ => ∀ b, Q b t
  | .tokensLeft => ∀ n, t.pending.length < n → Q n t
  | .pullRaw =>
      t.pulled = 0 ∧ takeContract trusted bounded Q t
  | .peekNextTokenTup => lookContract trusted bounded Q t
  | .popNextTokenTup => takeContract trusted bounded Q t
  | .delayToken tt =>
      t.GoodTok trusted bounded tt ∧ t.Fenced tt ∧
        Q () (t.delay ⟨tt, false⟩)
  | .delayTokenNoProcessing tt =>
      t.GoodTok trusted bounded tt ∧ t.Fenced tt ∧
        Q () { t.delay ⟨tt, true⟩ with
          noProcessing := t.noProcessing + 1 }
  | .popCtxt => Q t.stack.head? { t with stack := t.stack.tail }
  | .setLastRealEnd n => Q () { t with lastRealEnd := n }
  | .setLastRealWasAtomicEnd b =>
      Q () { t with lastRealWasAtomicEnd := b }
  | .setParenDepth n => Q () { t with parenDepth := n }
  | .setTokensThatNeedNoProcessing n =>
      Q () { t with noProcessing := n }
  | .setInitialized b => Q () { t with initialized := b }
  | .panic p => ¬ trusted ∧ p = .SubtractOverflow

/-
  The operations that consult the version.  A version-gated push may
  go either way.
-/
def versionContract
    {β : Type}
    (o : VersionOp β)
    (Q : β → Abs → Prop)
    (t : Abs) :
    Prop :=
  match o with
  | .tryPushCtxt strictness _ _ _ ctxt =>
      t.GoodPos trusted bounded ctxt.startPos ∧ Q true (t.push ctxt) ∧
        (strictness = .VersionGated → Q false t)
  | .checkInvalidDeclInTypeDefn _ _ => Q () t

/- The abstract effect of the operations. -/
def contract : Contract Op Abs := fun _ o Q t =>
  match o with
  | .core o => coreContract trusted bounded o Q t
  | .version o => versionContract trusted bounded o Q t

variable {trusted bounded}

variable {t : Abs} {Q R : Option TokenTup → Abs → Prop}

theorem takeContract_mono
    (hQR : ∀ a u, Q a u → R a u)
    (hTake : takeContract trusted bounded Q t) :
    takeContract trusted bounded R t := by
  unfold takeContract at *
  split at hTake
  · intro known hKnown
    exact hQR _ _ (hTake known hKnown)
  · intro known hKnown hGood hSemi
    exact hQR _ _ (hTake known hKnown hGood hSemi)

theorem lookContract_mono
    (hQR : ∀ a u, Q a u → R a u)
    (hLook : lookContract trusted bounded Q t) :
    lookContract trusted bounded R t := by
  unfold lookContract at *
  split at hLook
  · intro known hKnown
    exact hQR _ _ (hLook known hKnown)
  · intro known hKnown hGood
    exact hQR _ _ (hLook known hKnown hGood)

theorem contract_monotone :
    Prog.Monotone (contract trusted bounded) := by
  intro β o Q R t hQR hQ
  cases o with
  | core o =>
      cases o with
      | pullRaw =>
          exact ⟨hQ.1, takeContract_mono hQR hQ.2⟩
      | peekNextTokenTup =>
          exact lookContract_mono hQR hQ
      | popNextTokenTup =>
          exact takeContract_mono hQR hQ
      | offsideStack =>
          exact fun hGood => hQR _ _ (hQ hGood)
      | sourceByte i =>
          exact fun b => hQR _ _ (hQ b)
      | tokensLeft =>
          exact fun n hn => hQR _ _ (hQ n hn)
      | delayToken tt =>
          exact ⟨hQ.1, hQ.2.1, hQR _ _ hQ.2.2⟩
      | delayTokenNoProcessing tt =>
          exact ⟨hQ.1, hQ.2.1, hQR _ _ hQ.2.2⟩
      | panic p =>
          exact hQ
      | _ =>
          exact hQR _ _ hQ
  | version o =>
      cases o with
      | tryPushCtxt strictness ignoreIndent anchorIsEof trigger ctxt =>
          exact ⟨hQ.1, hQR _ _ hQ.2.1,
            fun hGated => hQR _ _ (hQ.2.2 hGated)⟩
      | checkInvalidDeclInTypeDefn keyword tok =>
          exact hQR _ _ hQ

end Contracts

section Rules

variable {trusted : Prop} {bounded : Pos → Prop} {t : Abs}

/- The weakest precondition of a program of the filter. -/
def FilterM.wp
    (trusted : Prop)
    (bounded : Pos → Prop)
    {α : Type}
    (p : FilterM α)
    (Q : α → Abs → Prop)
    (t : Abs) :
    Prop :=
  Prog.wp (contract trusted bounded) p Q t

namespace FilterM

variable {α β : Type}

@[simp] theorem wp_pure
    (a : α)
    (Q : α → Abs → Prop) :
    wp trusted bounded (pure a : FilterM α) Q t ↔ Q a t :=
  Iff.rfl

@[simp] theorem wp_bind
    (p : FilterM α)
    (f : α → FilterM β)
    (Q : β → Abs → Prop) :
    wp trusted bounded (p >>= f) Q t ↔
      wp trusted bounded p
        (fun a u => wp trusted bounded (f a) Q u) t :=
  Prog.wp_bind p f Q t

/- The consequence rule. -/
theorem wp_mono
    {p : FilterM α}
    {Q R : α → Abs → Prop}
    (hWp : wp trusted bounded p Q t)
    (hQR : ∀ a u, Q a u → R a u) :
    wp trusted bounded p R t :=
  Prog.wp_mono contract_monotone hQR hWp

@[simp] theorem wp_core
    (o : CoreOp α)
    (Q : α → Abs → Prop) :
    wp trusted bounded (core o) Q t ↔
      coreContract trusted bounded o Q t :=
  Iff.rfl

@[simp] theorem wp_offsideStack
    (Q : List Context → Abs → Prop) :
    wp trusted bounded offsideStack Q t ↔
      ((∀ c ∈ t.stack, t.GoodPos trusted bounded c.startPos) →
        Q t.stack t) :=
  Iff.rfl

@[simp] theorem wp_head
    (Q : Option Context → Abs → Prop) :
    wp trusted bounded head Q t ↔
      ((∀ c ∈ t.stack, t.GoodPos trusted bounded c.startPos) →
        Q t.stack.head? t) := by
  simp [head]

@[simp] theorem wp_peekNextTokenTup
    (Q : Option TokenTup → Abs → Prop) :
    wp trusted bounded peekNextTokenTup Q t ↔
      lookContract trusted bounded Q t :=
  Iff.rfl

@[simp] theorem wp_popNextTokenTup
    (Q : Option TokenTup → Abs → Prop) :
    wp trusted bounded popNextTokenTup Q t ↔
      takeContract trusted bounded Q t :=
  Iff.rfl

@[simp] theorem wp_delayToken
    (tt : TokenTup)
    (Q : Unit → Abs → Prop) :
    wp trusted bounded (delayToken tt) Q t ↔
      t.GoodTok trusted bounded tt ∧ t.Fenced tt ∧
        Q () (t.delay ⟨tt, false⟩) :=
  Iff.rfl

@[simp] theorem wp_delayTokenNoProcessing
    (tt : TokenTup)
    (Q : Unit → Abs → Prop) :
    wp trusted bounded (delayTokenNoProcessing tt) Q t ↔
      t.GoodTok trusted bounded tt ∧ t.Fenced tt ∧
        Q () { t.delay ⟨tt, true⟩ with
          noProcessing := t.noProcessing + 1 } :=
  Iff.rfl

@[simp] theorem wp_popCtxt
    (Q : Option Context → Abs → Prop) :
    wp trusted bounded popCtxt Q t ↔
      Q t.stack.head? { t with stack := t.stack.tail } :=
  Iff.rfl

@[simp] theorem wp_setLastRealEnd
    (n : Nat)
    (Q : Unit → Abs → Prop) :
    wp trusted bounded (setLastRealEnd n) Q t ↔
      Q () { t with lastRealEnd := n } :=
  Iff.rfl

@[simp] theorem wp_panic
    (p : Panic)
    (Q : α → Abs → Prop) :
    wp trusted bounded (panic p : FilterM α) Q t ↔
      ¬ trusted ∧ p = .SubtractOverflow :=
  Iff.rfl

/- Subtraction fails on untrusted streams only. -/
@[simp] theorem wp_sub
    (a b : Nat)
    (Q : Nat → Abs → Prop) :
    wp trusted bounded (sub a b) Q t ↔
      (b ≤ a → Q (a - b) t) ∧ (trusted → b ≤ a) := by
  unfold sub
  split
  · next hLe =>
      simp [hLe]
  · next hGt =>
      simp [hGt]

@[simp] theorem wp_expect_some
    (a : α)
    (Q : α → Abs → Prop) :
    wp trusted bounded (expect (some a)) Q t ↔ Q a t :=
  Iff.rfl

@[simp] theorem wp_tryPushCtxt
    (strictness : PushStrictness)
    (ignoreIndent anchorIsEof : Bool)
    (trigger : Span)
    (ctxt : Context)
    (Q : Bool → Abs → Prop) :
    wp trusted bounded
        (tryPushCtxt strictness ignoreIndent anchorIsEof trigger ctxt)
        Q t ↔
      t.GoodPos trusted bounded ctxt.startPos ∧
        Q true (t.push ctxt) ∧
        (strictness = .VersionGated → Q false t) :=
  Iff.rfl

@[simp] theorem wp_pushCtxt
    (trigger : Span)
    (ctxt : Context)
    (Q : Unit → Abs → Prop) :
    wp trusted bounded (pushCtxt trigger ctxt) Q t ↔
      t.GoodPos trusted bounded ctxt.startPos ∧
        Q () (t.push ctxt) := by
  simp [pushCtxt]

@[simp] theorem wp_checkInvalidDeclInTypeDefn
    (keyword : NestedDeclKeyword)
    (tok : TokenTup)
    (Q : Unit → Abs → Prop) :
    wp trusted bounded (checkInvalidDeclInTypeDefn keyword tok) Q t ↔
      Q () t :=
  Iff.rfl

@[simp] theorem wp_insertToken
    (virt : Virtual)
    (tt : TokenTup)
    (Q : TokenTup → Abs → Prop) :
    wp trusted bounded (insertToken virt tt) Q t ↔
      t.GoodTok trusted bounded tt ∧ t.Fenced tt ∧
        Q (tt.asVirtual virt) (t.delay ⟨tt, false⟩) := by
  simp [insertToken]

end FilterM

end Rules

end LexFilter

end Borzoi
