import Borzoi.Directives.Line
import Mathlib.Algebra.Ring.Int.Defs

/-
  The record of `#line` directives in active branches.
-/

namespace Borzoi

namespace Directives

structure LineDirective where
  generatedLine : Nat
  virtualLine : Nat
  file : Option (List UInt8)
  deriving DecidableEq, Repr

/- The directives, in source order. -/
structure LineDirectiveStore where
  directives : List LineDirective
  deriving DecidableEq, Repr

namespace LineDirectiveStore

def new : LineDirectiveStore := ⟨[]⟩

def push
    (store : LineDirectiveStore)
    (directive : LineDirective) :
    LineDirectiveStore :=
  ⟨store.directives ++ [directive]⟩

end LineDirectiveStore

/- The line breaks of a text, with `\r\n` as one. -/
def lineBreaks : List UInt8 → Nat
  | [] => 0
  | b :: rest =>
      if b = byte '\n' then
        lineBreaks rest + 1
      else if b = byte '\r' then
        -- the `\n` behind a `\r` is counted with it
        if rest.head? = some (byte '\n') then
          lineBreaks rest
        else
          lineBreaks rest + 1
      else
        lineBreaks rest

/- `line_index`. -/
def lineIndex
    (source : List UInt8)
    (offset : Nat) :
    Nat :=
  lineBreaks (source.take offset)

/- The virtual coordinates of a line. -/
structure Remapped where
  file : Option (List UInt8)
  line : Nat
  deriving DecidableEq, Repr

/- How the query could fail. -/
inductive RemapFault
  | ArithmeticOverflow
  | IndexOutOfBounds
  deriving DecidableEq, Repr

/- The result of an `i64` operation. -/
def checkedI64
    (x : Int) :
    Except RemapFault Int :=
  if -2 ^ 63 ≤ x ∧ x < 2 ^ 63 then
    .ok x
  else
    .error .ArithmeticOverflow

/- `slice::partition_point`, on a slice that the predicate parts. -/
def partitionPoint
    {α : Type}
    (p : α → Bool)
    (xs : List α) :
    Nat :=
  (xs.takeWhile p).length

/- `LineDirectiveStore::remap`. -/
def LineDirectiveStore.remap
    (store : LineDirectiveStore)
    (generatedLine : Nat) :
    Except RemapFault (Option Remapped) :=
  let count := partitionPoint (fun d => d.generatedLine < generatedLine)
    store.directives
  match count with
  | 0 => .ok none
  | last + 1 =>
      match store.directives[last]? with
      | none => .error .IndexOutOfBounds
      | some directive => do
          let sum ← checkedI64 (generatedLine + directive.virtualLine)
          let shifted ← checkedI64 (sum - directive.generatedLine)
          let line ← checkedI64 (shifted - 2)
          .ok (some ⟨directive.file,
            (min (max line 0) (2 ^ 32 - 1)).toNat⟩)

end Directives

end Borzoi
