import Borzoi.Assembly.TypeEnc
import Borzoi.Text.Nesting
import Mathlib

/-
  Documentation ids of members, and the keys recorded for them.

  A key is a head and, in parentheses, the encodings of the parameters.
  A recorded key is cut again at its top-level commas and compared with
  the encodings; arrays may differ by one dimension.
-/

namespace Borzoi

namespace Assembly

namespace DocId

open Text (Mark cutLoop)

inductive EntityKind
  | Class
  | Struct
  | Interface
  | Enum
  | Delegate
  | Module
  | Union
  | Record
  | Abbreviation
  | Exception
  | Measure
deriving DecidableEq

/- A type of the image; of its generic parameters the number counts. -/
structure Entity where
  space : List (List Char)
  name : List Char
  genericParameters : Nat
  kind : EntityKind

structure TypeDocName where
  full : List Char
  cumulativeArity : Nat
  kind : EntityKind

structure Parameter (w : PointerWidth) where
  ty : MachineType w
  isByref : Bool

/- The list of the generic parameters fits in memory. -/
structure MethodLike (w : PointerWidth) where
  name : List Char
  genericParameters : Nat
  generic_le : genericParameters ≤ w.isizeMax
  parameters : List (Parameter w)
  returnType : MachineType w
  moduleValue : Bool

structure Property (w : PointerWidth) where
  name : List Char
  ty : MachineType w
  parameters : List (MachineType w)

structure Field where
  name : List Char
  isStatic : Bool

structure Event where
  name : List Char

inductive Member (w : PointerWidth)
  | Method (m : MethodLike w)
  | Field (f : DocId.Field)
  | Property (p : DocId.Property w)
  | Event (e : DocId.Event)

/- A tick and the arity, where there is one. -/
def aritySuffix
    (arity : Nat) :
    List Char :=
  if 0 < arity then
    '\x60' :: natText arity
  else
    []

def typeDocName
    (entity : Entity)
    (enclosing : Option TypeDocName) :
    TypeDocName :=
  let cumulativeArity := entity.genericParameters
  let (leading, parentArity) :=
    match enclosing with
    | some parent => (parent.full, parent.cumulativeArity)
    | none => (joined '.' entity.space, 0)
  -- the subtraction saturates, as that of `Nat` does
  let ownArity := cumulativeArity - parentArity
  let name := demangleSegment entity.name ++ aritySuffix ownArity
  let full :=
    if leading = [] then
      name
    else
      leading ++ '.' :: name
  ⟨full, cumulativeArity, entity.kind⟩

def escapeChar
    (c : Char) :
    Char :=
  if c = '.' then
    '#'
  else if c = '<' then
    '{'
  else if c = '>' then
    '}'
  else
    c

def escapeMemberName
    (name : List Char) :
    List Char :=
  name.map escapeChar

def isConversionOperator
    (name : List Char) :
    Bool :=
  ["op_Implicit".toList, "op_Explicit".toList,
    "op_CheckedImplicit".toList, "op_CheckedExplicit".toList].contains name

def fieldKeysAsProperty
    (kind : EntityKind)
    (field : Field) :
    Bool :=
  match kind with
  | .Record => !field.isStatic
  | .Module => true
  | _ => false

variable (w : PointerWidth)

def paramEnc
    (p : Parameter w) :
    Option (List Char) :=
  (typeEnc w p.ty.ty).map fun s =>
    if p.isByref then
      s ++ ['@']
    else
      s

def parenthesized
    (parts : List (List Char)) :
    List Char :=
  '(' :: joined ',' parts ++ [')']

def argsEnc
    (parameters : List (Parameter w)) :
    Option (List Char) :=
  if parameters = [] then
    some []
  else
    (parameters.mapM (paramEnc w)).map parenthesized

/- Two ticks and the number of the parameters of a generic method. -/
def genericArity
    (n : Nat) :
    List Char :=
  if n = 0 then
    []
  else
    '\x60' :: '\x60' :: natText n

/- `{kind}:{full}.{name}`. -/
def memberName
    (kind : Char)
    (decl : TypeDocName)
    (name : List Char) :
    List Char :=
  kind :: ':' :: decl.full ++ '.' :: escapeMemberName name

/- What stands in front of the parameters of a method. -/
def methodHead
    (decl : TypeDocName)
    (m : MethodLike w) :
    List Char :=
  memberName (if m.moduleValue then 'P' else 'M') decl m.name ++
    genericArity m.genericParameters

def computedMemberDocId
    (decl : TypeDocName) :
    Member w → Option (List Char)
  | .Method m => do
      let args ← argsEnc w m.parameters
      let conversion ←
        if isConversionOperator m.name then
          (typeEnc w m.returnType.ty).map ('~' :: ·)
        else
          some []
      some (methodHead w decl m ++ args ++ conversion)
  | .Field f =>
      let kind := if fieldKeysAsProperty decl.kind f then 'P' else 'F'
      some (memberName kind decl f.name)
  | .Property p => do
      let args ←
        if p.parameters = [] then
          some []
        else
          (p.parameters.mapM fun ip => typeEnc w ip.ty).map parenthesized
      some (memberName 'P' decl p.name ++ args)
  | .Event e => some (memberName 'E' decl e.name)

def markOf
    (c : Char) :
    Mark :=
  if c = '{' ∨ c = '[' then
    .opens
  else if c = '}' ∨ c = ']' then
    .closes
  else if c = ',' then
    .separates
  else
    .plain

def splitTopLevel
    (list : List Char) :
    List (List Char) :=
  cutLoop markOf 0 [] list

/- The text in front of the first such character, and behind it. -/
def splitAtFirst
    (c : Char)
    (text : List Char) :
    Option (List Char × List Char) :=
  if c ∈ text then
    some (text.takeWhile (· != c), (text.dropWhile (· != c)).tail)
  else
    none

def stripSuffix
    (c : Char)
    (text : List Char) :
    Option (List Char) :=
  if text.getLast? = some c then
    some text.dropLast
  else
    none

def splitKey
    (key : List Char) :
    Option (List Char × List (List Char)) :=
  match splitAtFirst '(' key with
  | none => some (key, [])
  | some (head, behind) =>
      (stripSuffix ')' behind).map fun inner =>
        (head, splitTopLevel inner)

/- `char::is_whitespace`. -/
def isWhitespace
    (c : Char) :
    Bool :=
  let n := c.toNat
  (0x09 ≤ n && n ≤ 0x0D) || (0x2000 ≤ n && n ≤ 0x200A) ||
    n ∈ [0x20, 0x85, 0xA0, 0x1680, 0x2028, 0x2029, 0x202F, 0x205F,
      0x3000]

/- The number of dimensions a suffix lists. -/
def specs
    (dims : List Char) :
    Nat :=
  if dims.all isWhitespace then
    0
  else
    dims.count ',' + 1

/- A key's dimensions fit as many, or one more. -/
def dimensionsFit
    (d r : Nat) :
    Bool :=
  if d = 0 ∨ r = 0 then
    d == r
  else
    d == r || d + 1 == r

theorem splitAtFirst_length
    {c : Char}
    {text before behind : List Char}
    (hSplit : splitAtFirst c text = some (before, behind)) :
    behind.length < text.length := by
  unfold splitAtFirst at hSplit
  split_ifs at hSplit with hMem
  cases hSplit
  have hSuffix := (List.dropWhile_suffix (l := text) (· != c)).length_le
  cases hDrop : text.dropWhile (· != c) with
  | nil =>
      have hNone := List.dropWhile_eq_nil_iff.1 hDrop c hMem
      simp at hNone
  | cons a rest =>
      rw [hDrop, List.length_cons] at hSuffix
      rw [List.tail_cons]
      omega

def arraysFit
    (key il : List Char) :
    Bool :=
  match _ : splitAtFirst '[' key, splitAtFirst '[' il with
  | none, none => key == il
  | some (keyBefore, keyFrom), some (ilBefore, ilFrom) =>
      if keyBefore != ilBefore then
        false
      else
        match _ : splitAtFirst ']' keyFrom,
            splitAtFirst ']' ilFrom with
        | some (keyDims, keyRest), some (ilDims, ilRest) =>
            if dimensionsFit (specs keyDims) (specs ilDims) then
              arraysFit keyRest ilRest
            else
              false
        | _, _ => false
  | _, _ => false
termination_by key.length
decreasing_by
  exact Nat.lt_trans (splitAtFirst_length (by assumption))
    (splitAtFirst_length (by assumption))

/- The text behind `first`, in front of a closing brace. -/
def abbrevArgs
    (first key : List Char) :
    Option (List Char) :=
  if first.isPrefixOf key then
    stripSuffix '}' (key.drop first.length)
  else
    none

/- The first argument of an abbreviation. -/
def firstArg
    (first key : List Char) :
    Option (List Char) :=
  (abbrevArgs first key).map fun inner =>
    (splitTopLevel inner).headD inner

theorem cutLoop_headD_length
    {mark : Char → Mark}
    (list : List Char)
    (depth : Int)
    (current inner : List Char) :
    ((cutLoop mark depth current list).headD inner).length ≤
      current.length + list.length := by
  induction list generalizing depth current with
  | nil =>
      rw [cutLoop]
      exact Nat.le_refl _
  | cons c rest ih =>
      have hGrown : ∀ d,
          ((cutLoop mark d (current ++ [c]) rest).headD inner).length ≤
            current.length + (c :: rest).length := by
        intro d
        apply Nat.le_trans (ih d (current ++ [c]))
        rw [List.length_append, List.length_cons, List.length_cons]
        exact Nat.le_of_eq (by simp; omega)
      rw [cutLoop]
      cases mark c with
      | opens => exact hGrown (depth + 1)
      | closes => exact hGrown (depth - 1)
      | plain => exact hGrown depth
      | separates =>
          show ((if depth = 0 then _ else _ : List (List Char)).headD
            inner).length ≤ _
          split_ifs
          · exact Nat.le_add_right _ _
          · exact hGrown depth

theorem firstArg_length
    {first key arg : List Char}
    (hFirst : first ≠ [])
    (hArg : firstArg first key = some arg) :
    arg.length < key.length := by
  unfold firstArg at hArg
  rcases Option.map_eq_some_iff.1 hArg with ⟨inner, hInner, rfl⟩
  have hHead := @cutLoop_headD_length markOf inner 0 [] inner
  unfold abbrevArgs at hInner
  split_ifs at hInner with hHas
  unfold stripSuffix at hInner
  split_ifs at hInner
  cases hInner
  have hPos := List.length_pos_iff.2 hFirst
  have hLe := (List.isPrefixOf_iff_prefix.1 hHas).length_le
  rw [List.length_nil, Nat.zero_add, List.length_dropLast,
    List.length_drop] at hHead
  unfold splitTopLevel
  omega

def ilsigptrText :
    List Char :=
  "Microsoft.FSharp.Core.ilsigptr\x7b".toList

def byrefText :
    List Char :=
  "Microsoft.FSharp.Core.byref\x7b".toList

def inrefText :
    List Char :=
  "Microsoft.FSharp.Core.inref\x7b".toList

def outrefText :
    List Char :=
  "Microsoft.FSharp.Core.outref\x7b".toList

/- The argument of the first byref abbreviation the key is. -/
def byrefArg
    (key : List Char) :
    Option (List Char) :=
  (firstArg byrefText key).or
    ((firstArg inrefText key).or (firstArg outrefText key))

theorem byrefArg_length
    {key arg : List Char}
    (hArg : byrefArg key = some arg) :
    arg.length < key.length := by
  unfold byrefArg at hArg
  rcases Option.or_eq_some_iff.1 hArg with hByref | ⟨-, hRest⟩
  · exact firstArg_length (by decide) hByref
  · rcases Option.or_eq_some_iff.1 hRest with hInref | ⟨-, hOutref⟩
    · exact firstArg_length (by decide) hInref
    · exact firstArg_length (by decide) hOutref

def paramFits
    (key il : List Char) :
    Bool :=
  if arraysFit key il then
    true
  else if il = "System.IntPtr".toList ∧ key.getLast? = some '*' then
    true
  else if key = "Microsoft.FSharp.Core.voidptr".toList ∧
      il = "System.Void*".toList then
    true
  else
    match _ : firstArg ilsigptrText key with
    | some t =>
        match stripSuffix '*' il with
        | some i => paramFits t i
        | none => false
    | none =>
        match _ : byrefArg key with
        | some t =>
            match stripSuffix '@' il with
            | some i => paramFits t i
            | none => false
        | none => false
termination_by key.length
decreasing_by
  · have hMark : ilsigptrText ≠ [] := by
      decide
    exact firstArg_length hMark ‹_›
  · exact byrefArg_length ‹_›

/- The text behind the last two ticks. -/
def behindTicks :
    List Char → Option (List Char)
  | [] => none
  | c :: rest =>
      match behindTicks rest with
      | some behind => some behind
      | none =>
          if c = '\x60' ∧ rest.head? = some '\x60' then
            some rest.tail
          else
            none

/- `n.parse::<usize>()`. -/
def parseUsize
    (text : List Char) :
    Option Nat :=
  let digits := if text.head? = some '+' then text.tail else text
  if digits ≠ [] ∧ digits.all isDigit ∧
      Nat.ofDigitChars 10 digits 0 ≤ w.usizeMax then
    some (Nat.ofDigitChars 10 digits 0)
  else
    none

def keyGenericArity
    (name : List Char) :
    Nat :=
  ((behindTicks name).bind (parseUsize w)).getD 0

def witnessText :
    List Char :=
  "Microsoft.FSharp.Core.FSharpFunc\x7b".toList

/- `key_fits`, or nothing where the sum of the arities overflows. -/
def keyFits
    (key : List Char)
    (ilParams : List (List Char))
    (ilGenericArity erasedTypars : Nat)
    (isMethod : Bool) :
    Option Bool :=
  match splitKey key with
  | none => some false
  | some (name, keyParams) =>
      let arity := keyGenericArity w name
      if arity < ilGenericArity then
        some false
      else
        (checkedAdd w ilGenericArity erasedTypars).map fun most =>
          if most < arity ∨ keyParams.length < ilParams.length then
            false
          else
            let witnesses :=
              keyParams.take (keyParams.length - ilParams.length)
            let own :=
              keyParams.drop (keyParams.length - ilParams.length)
            if witnesses ≠ [] ∧
                ¬ (isMethod = true ∧
                  witnesses.all (witnessText.isPrefixOf ·)) then
              false
            else
              (own.zip ilParams).all fun pair =>
                paramFits pair.1 pair.2

inductive KeyedAs
  | Member
  | Setter
deriving DecidableEq

def recordedMethodKeyFits
    (key : List Char)
    (method : MethodLike w)
    (erasedTypars : Nat) :
    Option Bool :=
  (method.parameters.mapM (paramEnc w)).bind fun params =>
    keyFits w key params method.genericParameters erasedTypars true

def recordedKeyFits
    (key : List Char)
    (member : Member w)
    (keyedAs : KeyedAs)
    (erasedTypars : Nat) :
    Option Bool :=
  match member, keyedAs with
  | .Method m, .Member => recordedMethodKeyFits w key m erasedTypars
  | .Property p, keyedAs => do
      let params ← p.parameters.mapM fun ip => typeEnc w ip.ty
      let last ←
        if keyedAs = .Setter then
          (typeEnc w p.ty.ty).map ([·])
        else
          some []
      keyFits w key (params ++ last) 0 0 false
  | .Event _, .Member => keyFits w key [] 0 0 false
  | .Field _, .Member => keyFits w key [] 0 0 false
  | _, .Setter => some false

end DocId

end Assembly

end Borzoi
