import Mathlib.Tactic.Common

/-
  The type unifier.

  An inference table is a union-find over type variables: every
  variable has a root, and a root may be bound to a type.  The table is
  modelled by its observable state.  Which of two roots stays when they
  are merged is left open, as `pick`.
-/

namespace Borzoi

namespace Unify

inductive Ty
  | Named (path : List String) (args : List Ty)
  | Project (path : List String) (args : List Ty)
  | Array (elem : Ty) (rank : Nat)
  | Tuple (elems : List Ty)
  | Fun (arg ret : Ty)
  | Param (i : Nat)
  | Var (v : Nat)

/- Syntactic equality of types. -/
mutual
def Ty.beq : Ty → Ty → Bool
  | .Named p xs, .Named q ys => p == q && beqAll xs ys
  | .Project p xs, .Project q ys => p == q && beqAll xs ys
  | .Array x m, .Array y n => Ty.beq x y && m == n
  | .Tuple xs, .Tuple ys => beqAll xs ys
  | .Fun x r, .Fun y s => Ty.beq x y && Ty.beq r s
  | .Param i, .Param j => i == j
  | .Var v, .Var w => v == w
  | _, _ => false

def beqAll : List Ty → List Ty → Bool
  | [], [] => true
  | x :: xs, y :: ys => Ty.beq x y && beqAll xs ys
  | _, _ => false
end

inductive UnifyError
  | Mismatch
  | Occurs
  deriving DecidableEq, Repr

/- How a call stops without a result. -/
inductive Fault
  | OutOfFuel
  | Panic
  deriving DecidableEq, Repr

/- The observable state of an `ena` unification table. -/
structure Table where
  len : Nat
  root : Nat → Nat
  value : Nat → Option Ty

namespace Table

def empty : Table :=
  ⟨0, id, fun _ => none⟩

/- `new_key(None)`. -/
def newKey
    (t : Table) :
    Nat × Table :=
  (t.len,
    { len := t.len + 1
      root := Function.update t.root t.len t.len
      value := Function.update t.value t.len none })

def find
    (t : Table)
    (v : Nat) :
    Nat :=
  t.root v

/- `probe_value`. -/
def probeValue
    (t : Table)
    (v : Nat) :
    Option Ty :=
  t.value (t.root v)

def unioned
    (t : Table)
    (v w : Nat) :
    Bool :=
  t.root v == t.root w

/- Merge the values of two classes, `none` for a conflict. -/
def unifyValues
    (a b : Option Ty) :
    Option (Option Ty) :=
  match a, b with
  | none, none => some none
  | some x, none => some (some x)
  | none, some y => some (some y)
  | some x, some y => if x.beq y then some (some x) else none

/- Redirect two roots to one of them, with a value. -/
def redirect
    (t : Table)
    (a b kept : Nat)
    (value : Option Ty) :
    Table :=
  { t with
    root := fun v =>
      if t.root v = a ∨ t.root v = b then kept else t.root v
    value := Function.update t.value kept value }

/- `unify_var_var`. -/
def unifyVarVar
    (pick : Table → Nat → Nat → Bool)
    (t : Table)
    (v w : Nat) :
    Option Table :=
  let a := t.root v
  let b := t.root w
  if a = b then
    some t
  else
    match unifyValues (t.value a) (t.value b) with
    | none => none
    | some value =>
        some (t.redirect a b (if pick t a b then a else b) value)

/- `unify_var_value`. -/
def unifyVarValue
    (t : Table)
    (v : Nat)
    (value : Option Ty) :
    Option Table :=
  match unifyValues (t.value (t.root v)) value with
  | none => none
  | some merged =>
      some { t with value := Function.update t.value (t.root v) merged }

end Table

namespace InferTable

/- `shallow_resolve`. -/
def shallowResolve
    (fuel : Nat)
    (t : Table)
    (ty : Ty) :
    Except Fault Ty :=
  match fuel with
  | 0 => .error .OutOfFuel
  | fuel + 1 =>
      match ty with
      | .Var v =>
          match t.probeValue v with
          | some bound => shallowResolve fuel t bound
          | none => .ok (.Var (t.find v))
      | other => .ok other

/- Map over the arguments of a type. -/
def mapTypes
    (f : Ty → Except Fault Ty) :
    List Ty → Except Fault (List Ty)
  | [] => .ok []
  | x :: xs =>
      match f x with
      | .error e => .error e
      | .ok y =>
          match mapTypes f xs with
          | .error e => .error e
          | .ok ys => .ok (y :: ys)

/- Map over the arguments of a type that is resolved one level. -/
def mapArgs
    (f : Ty → Except Fault Ty)
    (resolved : Ty) :
    Except Fault Ty :=
  match resolved with
  | .Array elem rank => (f elem).map fun elem => .Array elem rank
  | .Tuple elems => (mapTypes f elems).map .Tuple
  | .Fun arg ret =>
      match f arg with
      | .error e => .error e
      | .ok arg => (f ret).map (.Fun arg)
  | .Named path args => (mapTypes f args).map (.Named path)
  | .Project path args => (mapTypes f args).map (.Project path)
  | other => .ok other

/- `resolve`. -/
def resolve
    (fuel : Nat)
    (t : Table)
    (ty : Ty) :
    Except Fault Ty :=
  match fuel with
  | 0 => .error .OutOfFuel
  | fuel + 1 =>
      match shallowResolve fuel t ty with
      | .error e => .error e
      | .ok resolved => mapArgs (resolve fuel t) resolved

/- `Iterator::any`. -/
def anyType
    (test : Ty → Except Fault Bool) :
    List Ty → Except Fault Bool
  | [] => .ok false
  | x :: xs =>
      match test x with
      | .ok true => .ok true
      | .ok false => anyType test xs
      | .error e => .error e

/- Test a type that is resolved one level. -/
def occursIn
    (test : Ty → Except Fault Bool)
    (t : Table)
    (v : Nat)
    (resolved : Ty) :
    Except Fault Bool :=
  match resolved with
  | .Var w => .ok (t.unioned v w)
  | .Param _ => .ok false
  | .Named _ args => anyType test args
  | .Project _ args => anyType test args
  | .Array elem _ => test elem
  | .Tuple elems => anyType test elems
  | .Fun arg ret => anyType test [arg, ret]

/- `occurs`. -/
def occurs
    (fuel : Nat)
    (t : Table)
    (v : Nat)
    (ty : Ty) :
    Except Fault Bool :=
  match fuel with
  | 0 => .error .OutOfFuel
  | fuel + 1 =>
      match shallowResolve fuel t ty with
      | .error e => .error e
      | .ok resolved => occursIn (occurs fuel t v) t v resolved

/- What unification leaves: its result and the table. -/
abbrev Unified :=
  Except Fault (Except UnifyError Unit × Table)

/- The table after a call that the code expects to succeed. -/
def expect
    (result : Option Table) :
    Unified :=
  match result with
  | some t => .ok (.ok (), t)
  | none => .error .Panic

/- Bind a variable to a term. -/
def bindVar
    (fuel : Nat)
    (t : Table)
    (v : Nat)
    (term : Ty) :
    Unified :=
  match occurs fuel t v term with
  | .error e => .error e
  | .ok true => .ok (.error .Occurs, t)
  | .ok false => expect (t.unifyVarValue v (some term))

/- The loop over paired arguments, which stops at an error. -/
def unifyPairs
    (step : Table → Ty → Ty → Unified)
    (t : Table)
    (pairs : List (Ty × Ty)) :
    Unified :=
  match pairs with
  | [] => .ok (.ok (), t)
  | (x, y) :: rest =>
      match step t x y with
      | .ok (.ok (), t') => unifyPairs step t' rest
      | stop => stop

/- Unify types that are resolved one level. -/
def unifyRoots
    (step : Table → Ty → Ty → Unified)
    (pick : Table → Nat → Nat → Bool)
    (fuel : Nat)
    (t : Table)
    (a b : Ty) :
    Unified :=
  match a, b with
  | .Var v, .Var w => expect (t.unifyVarVar pick v w)
  | .Var v, term => bindVar fuel t v term
  | term, .Var v => bindVar fuel t v term
  | .Named p xs, .Named q ys =>
      if p ≠ q ∨ xs.length ≠ ys.length then
        .ok (.error .Mismatch, t)
      else
        unifyPairs step t (xs.zip ys)
  | .Project p xs, .Project q ys =>
      if p ≠ q ∨ xs.length ≠ ys.length then
        .ok (.error .Mismatch, t)
      else
        unifyPairs step t (xs.zip ys)
  | .Array x m, .Array y n =>
      if m ≠ n then
        .ok (.error .Mismatch, t)
      else
        step t x y
  | .Tuple xs, .Tuple ys =>
      if xs.length ≠ ys.length then
        .ok (.error .Mismatch, t)
      else
        unifyPairs step t (xs.zip ys)
  | .Fun x r, .Fun y s => unifyPairs step t [(x, y), (r, s)]
  | .Param i, .Param j =>
      if i = j then
        .ok (.ok (), t)
      else
        .ok (.error .Mismatch, t)
  | _, _ => .ok (.error .Mismatch, t)

/- `unify`. -/
def unify
    (pick : Table → Nat → Nat → Bool)
    (fuel : Nat)
    (t : Table)
    (a b : Ty) :
    Unified :=
  match fuel with
  | 0 => .error .OutOfFuel
  | fuel + 1 =>
      match shallowResolve fuel t a with
      | .error e => .error e
      | .ok a' =>
          match shallowResolve fuel t b with
          | .error e => .error e
          | .ok b' => unifyRoots (unify pick fuel) pick fuel t a' b'

/- `probe`, with the snapshot as a copy of the table. -/
def probe
    (f : Table → Unified)
    (t : Table) :
    Unified :=
  match f t with
  | .ok (.ok (), t') => .ok (.ok (), t')
  | .ok (.error e, _) => .ok (.error e, t)
  | .error e => .error e

/- `unify_atomic`. -/
def unifyAtomic
    (pick : Table → Nat → Nat → Bool)
    (fuel : Nat)
    (t : Table)
    (a b : Ty) :
    Unified :=
  probe (fun t => unify pick fuel t a b) t

end InferTable

end Unify

end Borzoi
