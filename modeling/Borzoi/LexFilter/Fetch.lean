import Borzoi.LexFilter.Rules.Parens
import Borzoi.Program.Machine

/-
  The fetch loop and the iterator.

  A configuration is the filter between two iterations of the fetch
  loop, or between two calls of the iterator, with what the iterator
  has yielded so far.
-/

namespace Borzoi

namespace LexFilter

open Lexer
open Program
open FilterM

/- The rules of one iteration, in order. -/
def dispatch
    (useBlockRule : Bool) :
    Rule :=
  firstOf
    [predispatch, joinInRewrite, headTransitions,
      blockOffside useBlockRule, inDoneBalances, keywordOffsidePops,
      clauseOffsidePops, endBalancesAugment, declOffsidePops,
      moduleTypePushes, bindingMemberPushes, equalsPushes,
      exprKeywordPushes, withDispatch, tryFinallyWhenPushes,
      structInterfacePushes, infixRhsPushes, interpAndParen]

/- How an iteration of `hw_token_fetch` ends. -/
inductive Fetched
  | Again (useBlockRule : Bool)
  | Yield (tt : TokenTup)
  | Exhausted

/- One iteration of `hw_token_fetch`. -/
def fetchIteration
    (useBlockRule : Bool) :
    FilterM Fetched := do
  match ← popNextTokenTup with
  | none => return .Exhausted
  | some tt =>
      match ← dispatch useBlockRule tt with
      | .Pass tt => return .Yield tt
      | .Restart => return .Again useBlockRule
      | .RestartWithoutBlockRule => return .Again false
      | .Emit tt => return .Yield tt

/- `peek_initial`. -/
def peekInitial : FilterM Unit := do
  core (.setInitialized true)
  match ← core .pullRaw with
  | none => return ()
  | some first =>
      delayToken first
      pushCtxt first.span (.SeqBlock true first.start .No)

/- What the iterator yields. -/
structure FilteredItem where
  result : Except LexError FilteredToken
  span : Span

/- The end of `Iterator::next`: `none` ends the iteration. -/
def finishNext
    (tt : TokenTup) :
    FilterM (Option FilteredItem) := do
  match tt.token with
  | .Real token =>
      setLastRealEnd tt.span.stop
      core (.setLastRealWasAtomicEnd (isAtomicExprEnd token))
      return some ⟨.ok (.Raw token), tt.span⟩
  | .Virtual virt => return some ⟨.ok (.Virtual virt), tt.span⟩
  | .Err e => return some ⟨.error e, tt.span⟩
  | .Eof => return none
  | .Dummy _ _ => panic .DummyEscaped

/- Where the iterator is. -/
inductive Phase
  | Next
  | Fetching (useBlockRule : Bool)
  | Finished
  deriving DecidableEq, Repr

/- A configuration of the iterator. -/
structure Config where
  phase : Phase
  filter : Filter
  emitted : List FilteredItem

/- Run a program on the filter of a configuration. -/
def runFilter
    {α : Type}
    (p : FilterM α)
    (s : Filter) :
    Except Panic (α × Filter) :=
  p.run Op.exec s

/- The head of `Iterator::next`. -/
def startNext : Filter → Except Panic Filter := fun s =>
  if s.initialized then
    .ok s
  else
    match runFilter peekInitial s with
    | .ok (_, t) => .ok t
    | .error e => .error e

/- What follows an iteration of the fetch loop. -/
def afterIteration
    (emitted : List FilteredItem)
    (fetched : Fetched)
    (s : Filter) :
    Except Panic Config :=
  match fetched with
  | .Again useBlockRule => .ok ⟨.Fetching useBlockRule, s, emitted⟩
  | .Exhausted => .ok ⟨.Finished, s, emitted⟩
  | .Yield tt =>
      match runFilter (finishNext tt) s with
      | .ok (some item, t) => .ok ⟨.Next, t, emitted ++ [item]⟩
      | .ok (none, t) => .ok ⟨.Finished, t, emitted⟩
      | .error e => .error e

/- One step of the iterator. -/
def Config.step
    (c : Config) :
    Except Panic Config :=
  match c.phase with
  | .Next =>
      match startNext c.filter with
      | .ok s => .ok ⟨.Fetching true, s, c.emitted⟩
      | .error e => .error e
  | .Fetching useBlockRule =>
      match runFilter (fetchIteration useBlockRule) c.filter with
      | .ok (fetched, s) => afterIteration c.emitted fetched s
      | .error e => .error e
  | .Finished => .ok c

/- The iterator as a machine. -/
def filterMachine : Machine Config Panic where
  step := Config.step
  done := fun c => c.phase == .Finished

/- The configuration before the first token. -/
def Config.initial
    (source : List UInt8)
    (lang : LanguageVersion)
    (raw : List RawItem) :
    Config :=
  ⟨.Next, Filter.new source lang raw, []⟩

/- What a completed run returns. -/
structure FilterRun where
  tokens : List FilteredItem
  diagnostics : List OffsideDiagnostic
  shapeDependsOnLanguageVersion : Bool

def Config.result
    (c : Config) :
    FilterRun :=
  ⟨c.emitted, c.filter.diagnostics,
    c.filter.shapeDependsOnLanguageVersion⟩

/-
  `filter_collect`, given a bound on the steps: `none` when the bound
  is reached before the iterator ends.
-/
def filterCollect
    (fuel : Nat)
    (source : List UInt8)
    (lang : LanguageVersion)
    (raw : List RawItem) :
    Except Panic (Option FilterRun) :=
  match filterMachine.runFor fuel (.initial source lang raw) with
  | .error e => .error e
  | .ok c =>
      if c.phase = .Finished then .ok (some c.result) else .ok none

end LexFilter

end Borzoi
