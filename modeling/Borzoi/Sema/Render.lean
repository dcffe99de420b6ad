import Borzoi.Sema.Unify

/-
  The canonical text of a type.

  An operand that is a tuple or a function stands in parentheses under
  an array and in a tuple; in front of an arrow only a function does.
-/

namespace Borzoi

namespace Unify

/- `typar_name`. -/
def typarName
    (i : Nat) :
    List Char :=
  if i < 26 then
    ['\'', Char.ofNat ('a'.toNat + i)]
  else
    '\'' :: 't' :: Nat.toDigits 10 i

/- `path.join(".")`. -/
def joinPath
    (path : List String) :
    List Char :=
  List.intercalate ['.'] (path.map String.toList)

/- `render_named`, of the rendered arguments. -/
def renderNamed
    (head : List Char)
    (args : List (List Char)) :
    List Char :=
  if args = [] then
    head
  else
    head ++ '<' :: List.intercalate [',', ' '] args ++ ['>']

def parenthesized
    (text : List Char) :
    List Char :=
  '(' :: text ++ [')']

/- The text of an array element or a tuple element. -/
def operandText
    (ty : Ty)
    (text : List Char) :
    List Char :=
  match ty with
  | .Tuple _ | .Fun _ _ => parenthesized text
  | _ => text

/- The text in front of an arrow. -/
def domainText
    (ty : Ty)
    (text : List Char) :
    List Char :=
  match ty with
  | .Fun _ _ => parenthesized text
  | _ => text

/- `",".repeat(rank.saturating_sub(1))` in brackets. -/
def arraySuffix
    (rank : Nat) :
    List Char :=
  '[' :: List.replicate (rank - 1) ',' ++ [']']

def star :
    List Char :=
  [' ', '*', ' ']

def arrow :
    List Char :=
  [' ', '-', '>', ' ']

mutual

/- `Ty::render`. -/
def Ty.render
    (ty : Ty) :
    List Char :=
  match ty with
  | .Named path args => renderNamed (joinPath path) (renderAll args)
  | .Project path args => renderNamed (joinPath path) (renderAll args)
  | .Array elem rank =>
      operandText elem elem.render ++ arraySuffix rank
  | .Tuple elems => List.intercalate star (renderOperands elems)
  | .Fun arg ret => domainText arg arg.render ++ (arrow ++ ret.render)
  | .Param i => typarName i
  | .Var _ => ['\'', '_']

def renderAll
    (tys : List Ty) :
    List (List Char) :=
  match tys with
  | [] => []
  | ty :: rest => ty.render :: renderAll rest

def renderOperands
    (tys : List Ty) :
    List (List Char) :=
  match tys with
  | [] => []
  | ty :: rest => operandText ty ty.render :: renderOperands rest

end

/- A segment without the signs of the printed form, and no typar. -/
def IsIdentifier
    (name : List Char) :
    Prop :=
  name ≠ [] ∧
    name.head? ≠ some '\'' ∧
      ∀ c ∈ name, c ∉ ['.', ' ', ',', '<', '>', '(', ')', '[', ']']

def NamesIdentifiers
    (path : List String) :
    Prop :=
  ∀ segment ∈ path, IsIdentifier segment.toList

mutual

/- No inference variable, and the parts as a type's. -/
def Ty.Printable
    (ty : Ty) :
    Prop :=
  match ty with
  | .Named path args => NamesIdentifiers path ∧ AllPrintable args
  | .Project path args => NamesIdentifiers path ∧ AllPrintable args
  | .Array elem rank => elem.Printable ∧ 1 ≤ rank
  | .Tuple elems => AllPrintable elems ∧ 2 ≤ elems.length
  | .Fun arg ret => arg.Printable ∧ ret.Printable
  | .Param _ => True
  | .Var _ => False

def AllPrintable
    (tys : List Ty) :
    Prop :=
  match tys with
  | [] => True
  | ty :: rest => ty.Printable ∧ AllPrintable rest

end

mutual

/- A project type as the referenced type at its path. -/
def Ty.erase
    (ty : Ty) :
    Ty :=
  match ty with
  | .Named path args => .Named path (eraseAll args)
  | .Project path args => .Named path (eraseAll args)
  | .Array elem rank => .Array elem.erase rank
  | .Tuple elems => .Tuple (eraseAll elems)
  | .Fun arg ret => .Fun arg.erase ret.erase
  | .Param i => .Param i
  | .Var v => .Var v

def eraseAll
    (tys : List Ty) :
    List Ty :=
  match tys with
  | [] => []
  | ty :: rest => ty.erase :: eraseAll rest

end

theorem operandText_erase
    (ty : Ty)
    (text : List Char) :
    operandText ty.erase text = operandText ty text := by
  cases ty <;> rfl

theorem domainText_erase
    (ty : Ty)
    (text : List Char) :
    domainText ty.erase text = domainText ty text := by
  cases ty <;> rfl

/- The text does not say where a path is declared. -/
theorem render_erase
    (ty : Ty) :
    ty.erase.render = ty.render := by
  refine @Ty.rec (fun ty => ty.erase.render = ty.render)
    (fun tys => renderAll (eraseAll tys) = renderAll tys ∧
      renderOperands (eraseAll tys) = renderOperands tys)
    ?_ ?_ ?_ ?_ ?_ ?_ ?_ ?_ ?_ ty
  · intro path args ih
    simp only [Ty.erase, Ty.render, ih.1]
  · intro path args ih
    simp only [Ty.erase, Ty.render, ih.1]
  · intro elem rank ih
    simp only [Ty.erase, Ty.render, operandText_erase, ih]
  · intro elems ih
    simp only [Ty.erase, Ty.render, ih.2]
  · intro arg ret ihArg ihRet
    simp only [Ty.erase, Ty.render, domainText_erase, ihArg, ihRet]
  · intro i
    rfl
  · intro v
    rfl
  · exact ⟨rfl, rfl⟩
  · intro ty tys ih ihs
    simp only [eraseAll, renderAll, renderOperands, operandText_erase,
      ih, ihs.1, ihs.2, and_self]

end Unify

end Borzoi
