import Borzoi.LexFilter.Moves

/-
  Runs of the abstract filter.

  A stage is a view between two iterations of the fetch loop, or
  between two calls of the iterator, with the tokens yielded so far.
  `Tidy` says how the pending tokens are laid out: a prefix of
  pass-through tokens, then at most one token that the filter itself
  put in front, then the rest of the stream.
-/

namespace Borzoi

namespace LexFilter

open Lexer

structure Stage where
  phase : Phase
  view : View
  out : List TokenTup

/- The view after the first token was seen. -/
def View.begin
    (v : View)
    (d : Delayed)
    (rest : List Delayed) :
    View :=
  { v with
    pending := fresh d.tup :: rest
    stack := .SeqBlock true d.tup.start .No :: v.stack
    initialized := true }

/- One step of a run. -/
inductive Stage.Steps
    (g : Stage) :
    Stage → Prop
  | start
      (hPhase : g.phase = .Next)
      (hInit : g.view.initialized = true) :
      Steps g ⟨.Fetching true, g.view, g.out⟩
  | begin
      {d : Delayed} {rest : List Delayed}
      (hPhase : g.phase = .Next)
      (hInit : g.view.initialized = false)
      (hPending : g.view.pending = d :: rest) :
      Steps g ⟨.Fetching true, g.view.begin d rest, g.out⟩
  | beginEmpty
      (hPhase : g.phase = .Next)
      (hInit : g.view.initialized = false)
      (hPending : g.view.pending = []) :
      Steps g
        ⟨.Fetching true, { g.view with initialized := true }, g.out⟩
  | again
      {useBlockRule again : Bool} {v : View}
      (hPhase : g.phase = .Fetching useBlockRule)
      (hMove : Iterates useBlockRule g.view (.Again again) v) :
      Steps g ⟨.Fetching again, v, g.out⟩
  | emit
      {useBlockRule : Bool} {tt : TokenTup} {v : View}
      (hPhase : g.phase = .Fetching useBlockRule)
      (hMove : Iterates useBlockRule g.view (.Yield tt) v)
      (hMore : tt.token ≠ .Eof) :
      Steps g ⟨.Next, v, g.out ++ [tt]⟩
  | finish
      {useBlockRule : Bool} {tt : TokenTup} {v : View}
      (hPhase : g.phase = .Fetching useBlockRule)
      (hMove : Iterates useBlockRule g.view (.Yield tt) v)
      (hEof : tt.token = .Eof) :
      Steps g ⟨.Finished, v, g.out⟩
  | exhausted
      {useBlockRule : Bool} {v : View}
      (hPhase : g.phase = .Fetching useBlockRule)
      (hMove : Iterates useBlockRule g.view .Exhausted v) :
      Steps g ⟨.Finished, v, g.out⟩

/- A token of the stream. -/
structure Quiet
    (d : Delayed) :
    Prop where
  unmarked : d.passThrough = false
  notDummy : d.tup.token.isDummy = false
  notBegin : d.tup.token ≠ .Virtual .BlockBegin
  notEnd : d.tup.token ≠ .Virtual .BlockEnd

/- A token of the pass-through prefix. -/
structure Passing
    (d : Delayed) :
    Prop where
  marked : d.passThrough = true
  notDummy : d.tup.token.isDummy = false
  notBegin : d.tup.token ≠ .Virtual .BlockBegin
  notEof : d.tup.token ≠ .Eof

/- The end of file comes last, and only there. -/
def EndsInEof : List Delayed → Prop
  | [] => False
  | d :: rest =>
      if d.tup.token = .Eof then rest = [] else EndsInEof rest

/- The token `tt` is next, and `rest` are the pending ones behind it. -/
structure Upfront
    (stack : List Context)
    (tt : TokenTup)
    (rest : List Delayed) :
    Prop where
  notEnd : tt.token ≠ .Virtual .BlockEnd
  dummy : ∀ prevEnd inner, tt.token = .Dummy prevEnd inner →
    inner ∈ dummyTokens ∧ topIsHead stack = false
  opens : tt.token = .Virtual .BlockBegin →
    ∃ first below, stack = .SeqBlock first tt.start .Yes :: below
  quiet : ∀ d ∈ rest, Quiet d
  eof : EndsInEof (fresh tt :: rest)

/- The head of a declaration is on top of the stack. -/
def HeadsOnTop
    (stack : List Context) :
    Prop :=
  ∀ c ∈ stack.tail, c.isHead = false

structure Tidy
    (v : View) :
    Prop where
  heads : HeadsOnTop v.stack
  layout :
    (v.noProcessing = 0 ∧ ∃ tt rest, v.pending = fresh tt :: rest ∧
        Upfront v.stack tt rest) ∨
      ∃ marked rest, v.pending = marked ++ rest ∧
        marked.length = v.noProcessing ∧
        (∀ d ∈ marked, Passing d) ∧ (∀ d ∈ rest, Quiet d) ∧
        EndsInEof rest
  reset : v.initialized = false →
    v.noProcessing = 0 ∧ v.stack = [] ∧ ∀ d ∈ v.pending, Quiet d

/- What holds at every stage of a run. -/
structure Stage.Valid
    (g : Stage) :
    Prop where
  fetching : ∀ useBlockRule, g.phase = .Fetching useBlockRule →
    g.view.initialized = true
  tidy : g.phase ≠ .Finished → Tidy g.view
  finished : g.phase = .Finished →
    g.view.pending = [] ∧ g.view.stack = [] ∧ g.view.noProcessing = 0
  out : ∀ tt ∈ g.out, tt.token.isDummy = false ∧ tt.token ≠ .Eof

end LexFilter

end Borzoi
