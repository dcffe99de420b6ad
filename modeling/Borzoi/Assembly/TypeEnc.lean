import Borzoi.Assembly.Metadata

/-
  Types of the projected metadata and their encoding in documentation ids.

  The arities of a type name come from the image as they are.  Adding them
  up saturates, so the encoding never leaves the list of the arguments,
  and it is the one that exact sums give.
-/

namespace Borzoi

namespace Assembly

namespace DocId

inductive Primitive
  | Void
  | Bool
  | Char
  | I1
  | U1
  | I2
  | U2
  | I4
  | U4
  | I8
  | U8
  | R4
  | R8
  | IntPtr
  | UIntPtr
  | Object
  | String
  deriving DecidableEq, Repr

/- `VoidPtr` is a pointer without a pointee. -/
inductive TypeRef
  | Primitive (p : DocId.Primitive)
  | Named (space : List (List Char)) (name : List Char)
      (typeArgs : List TypeRef) (segmentArities : List Nat)
  | Var (index : Nat) (isMethod : Bool)
  | Array (element : TypeRef) (rank : Nat) (sizes : List Nat)
      (lowerBounds : List Int)
  | Ptr (pointee : TypeRef)
  | VoidPtr
  | ByRef (inner : TypeRef)

namespace TypeRef

/- Induction over a type and its arguments. -/
@[elab_as_elim, induction_eliminator]
theorem ind
    {P : TypeRef → Prop}
    (Primitive : ∀ p, P (.Primitive p))
    (Named : ∀ space name typeArgs segmentArities,
      (∀ a ∈ typeArgs, P a) → P (.Named space name typeArgs segmentArities))
    (Var : ∀ index isMethod, P (.Var index isMethod))
    (Array : ∀ element rank sizes lowerBounds, P element →
      P (.Array element rank sizes lowerBounds))
    (Ptr : ∀ pointee, P pointee → P (.Ptr pointee))
    (VoidPtr : P .VoidPtr)
    (ByRef : ∀ inner, P inner → P (.ByRef inner))
    (ty : TypeRef) :
    P ty := by
  refine @TypeRef.rec P (fun l => ∀ a ∈ l, P a)
    Primitive Named Var Array Ptr VoidPtr ByRef ?_ ?_ ty
  · exact fun _ hMem => absurd hMem List.not_mem_nil
  · intro a l ha hl b hb
    rcases List.mem_cons.1 hb with rfl | hb
    · exact ha
    · exact hl b hb

/- The arities are words, and the arguments fit in memory. -/
inductive Fits (w : PointerWidth) : TypeRef → Prop
  | Primitive (p : DocId.Primitive) :
      Fits w (.Primitive p)
  | Named (space : List (List Char)) (name : List Char)
      (typeArgs : List TypeRef) (segmentArities : List Nat)
      (hArities : ∀ arity ∈ segmentArities, arity ≤ w.usizeMax)
      (hLength : typeArgs.length ≤ w.isizeMax)
      (hArgs : ∀ a ∈ typeArgs, Fits w a) :
      Fits w (.Named space name typeArgs segmentArities)
  | Var (index : Nat) (isMethod : Bool) :
      Fits w (.Var index isMethod)
  | Array (element : TypeRef) (rank : Nat) (sizes : List Nat)
      (lowerBounds : List Int) (hElement : Fits w element) :
      Fits w (.Array element rank sizes lowerBounds)
  | Ptr (pointee : TypeRef) (hPointee : Fits w pointee) :
      Fits w (.Ptr pointee)
  | VoidPtr :
      Fits w .VoidPtr
  | ByRef (inner : TypeRef) (hInner : Fits w inner) :
      Fits w (.ByRef inner)

end TypeRef

/- A type as the machine holds it. -/
structure MachineType (w : PointerWidth) where
  ty : TypeRef
  fits : ty.Fits w

/- A sum that must not overflow. -/
def checkedAdd
    (w : PointerWidth)
    (a b : Nat) :
    Option Nat :=
  if a + b ≤ w.usizeMax then some (a + b) else none

/- `usize::saturating_add`. -/
def saturatingAdd
    (w : PointerWidth)
    (a b : Nat) :
    Nat :=
  min (a + b) w.usizeMax

/- `&list[start..stop]`. -/
def slice
    {α : Type}
    (list : List α)
    (start stop : Nat) :
    Option (List α) :=
  if start ≤ stop ∧ stop ≤ list.length then
    some ((list.take stop).drop start)
  else
    none

def joined
    (separator : Char)
    (parts : List (List Char)) :
    List Char :=
  List.intercalate [separator] parts

def braced
    (parts : List (List Char)) :
    List Char :=
  '{' :: joined ',' parts ++ ['}']

def natText
    (n : Nat) :
    List Char :=
  Nat.toDigits 10 n

def intText :
    Int → List Char
  | .ofNat n => natText n
  | .negSucc n => '-' :: natText (n + 1)

def primitiveName :
    Primitive → List Char
  | .Void => "System.Void".toList
  | .Bool => "System.Boolean".toList
  | .Char => "System.Char".toList
  | .I1 => "System.SByte".toList
  | .U1 => "System.Byte".toList
  | .I2 => "System.Int16".toList
  | .U2 => "System.UInt16".toList
  | .I4 => "System.Int32".toList
  | .U4 => "System.UInt32".toList
  | .I8 => "System.Int64".toList
  | .U8 => "System.UInt64".toList
  | .R4 => "System.Single".toList
  | .R8 => "System.Double".toList
  | .IntPtr => "System.IntPtr".toList
  | .UIntPtr => "System.UIntPtr".toList
  | .Object => "System.Object".toList
  | .String => "System.String".toList

def isDigit
    (c : Char) :
    Bool :=
  '0' ≤ c && c ≤ '9'

/- What stands before the last tick of a segment and behind it. -/
def splitLastTick
    (segment : List Char) :
    Option (List Char × List Char) :=
  if '\x60' ∈ segment then
    let behind := (segment.reverse.takeWhile (· != '\x60')).reverse
    some (segment.take (segment.length - behind.length - 1), behind)
  else
    none

def demangleSegment
    (segment : List Char) :
    List Char :=
  match splitLastTick segment with
  | some (before, suffix) =>
      if suffix != [] && suffix.all isDigit then before else segment
  | none => segment

/- One dimension of an array. -/
def dimension
    (sizes : List Nat)
    (lowerBounds : List Int)
    (i : Nat) :
    List Char :=
  let lo := (lowerBounds[i]?).getD 0
  match sizes[i]? with
  | some size => intText lo ++ ':' :: natText size
  | none => intText lo ++ [':']

def arraySuffix
    (rank : Nat)
    (sizes : List Nat)
    (lowerBounds : List Int) :
    List Char :=
  if rank ≤ 1 ∧ sizes = [] ∧ lowerBounds = [] then
    "[]".toList
  else
    '[' :: joined ',' ((List.range rank).map (dimension sizes lowerBounds)) ++
      [']']

/- The segments with the encodings of their arguments, from `next` on. -/
def distribute
    (w : PointerWidth)
    (encodings : List (List Char)) :
    Nat → List (List Char × Nat) → Option (List (List Char))
  | _, [] => some []
  | next, (segment, arity) :: rest =>
      if 0 < arity then do
        let stop ← checkedAdd w next arity
        let inner ← slice encodings next stop
        let parts ← distribute w encodings stop rest
        some ((demangleSegment segment ++ braced inner) :: parts)
      else do
        let parts ← distribute w encodings next rest
        some (demangleSegment segment :: parts)

/- The namespace of a name, each segment with its dot. -/
def spaceText
    (space : List (List Char)) :
    List Char :=
  space.flatMap fun segment => segment ++ ['.']

/- A name with its arguments behind its last segment. -/
def naiveName
    (segments : List (List Char))
    (encodings : List (List Char)) :
    List Char :=
  joined '.' (segments.map demangleSegment) ++
    if encodings = [] then [] else braced encodings

/- A type parameter of a type or of a method. -/
def varText
    (index : Nat) :
    Bool → List Char
  | false => '\x60' :: natText index
  | true => '\x60' :: '\x60' :: natText index

def voidPtrText :
    List Char :=
  "System.Void*".toList

/- A name with the encodings of its arguments. -/
def namedEnc
    (w : PointerWidth)
    (space : List (List Char))
    (name : List Char)
    (segmentArities : List Nat)
    (encodings : List (List Char)) :
    Option (List Char) :=
  let segments := name.splitOn '/'
  let arityTotal := segmentArities.foldl (saturatingAdd w) 0
  if segmentArities.length = segments.length ∧
      arityTotal = encodings.length then do
    let parts ← distribute w encodings 0 (segments.zip segmentArities)
    some (spaceText space ++ joined '.' parts)
  else
    some (spaceText space ++ naiveName segments encodings)

mutual

/- `type_enc`, or nothing where it panics. -/
def typeEnc
    (w : PointerWidth)
    (ty : TypeRef) :
    Option (List Char) :=
  match ty with
  | .Primitive p => some (primitiveName p)
  | .Var index isMethod => some (varText index isMethod)
  | .Named space name typeArgs segmentArities => do
      let encodings ← typeEncs w typeArgs
      namedEnc w space name segmentArities encodings
  | .Array element rank sizes lowerBounds => do
      let element ← typeEnc w element
      some (element ++ arraySuffix rank sizes lowerBounds)
  | .Ptr pointee => do
      let pointee ← typeEnc w pointee
      some (pointee ++ ['*'])
  | .VoidPtr => some voidPtrText
  | .ByRef inner => do
      let inner ← typeEnc w inner
      some (inner ++ ['@'])

def typeEncs
    (w : PointerWidth)
    (types : List TypeRef) :
    Option (List (List Char)) :=
  match types with
  | [] => some []
  | ty :: rest => do
      let encoding ← typeEnc w ty
      let encodings ← typeEncs w rest
      some (encoding :: encodings)

end

/- The segments with the texts of their arguments. -/
def distributed :
    List (List Char) → List (List Char × Nat) → List (List Char)
  | _, [] => []
  | texts, (segment, arity) :: rest =>
      (if 0 < arity then
        demangleSegment segment ++ braced (texts.take arity)
      else
        demangleSegment segment) :: distributed (texts.drop arity) rest

/- A name with the texts of its arguments. -/
def namedText
    (space : List (List Char))
    (name : List Char)
    (segmentArities : List Nat)
    (texts : List (List Char)) :
    List Char :=
  let segments := name.splitOn '/'
  spaceText space ++
    if segmentArities.length = segments.length ∧
        segmentArities.sum = texts.length then
      joined '.' (distributed texts (segments.zip segmentArities))
    else
      naiveName segments texts

mutual

/- The encoding of a type, with the arities added up exactly. -/
def typeText
    (ty : TypeRef) :
    List Char :=
  match ty with
  | .Primitive p => primitiveName p
  | .Var index isMethod => varText index isMethod
  | .Named space name typeArgs segmentArities =>
      namedText space name segmentArities (typeTexts typeArgs)
  | .Array element rank sizes lowerBounds =>
      typeText element ++ arraySuffix rank sizes lowerBounds
  | .Ptr pointee => typeText pointee ++ ['*']
  | .VoidPtr => voidPtrText
  | .ByRef inner => typeText inner ++ ['@']

def typeTexts
    (types : List TypeRef) :
    List (List Char) :=
  match types with
  | [] => []
  | ty :: rest => typeText ty :: typeTexts rest

end

section Exact

variable {w : PointerWidth}

@[simp] theorem typeTexts_eq
    (types : List TypeRef) :
    typeTexts types = types.map typeText := by
  induction types with
  | nil => rw [typeTexts, List.map_nil]
  | cons ty rest ih => rw [typeTexts, ih, List.map_cons]

theorem typeEncs_eq
    {types : List TypeRef}
    (hEach : ∀ ty ∈ types, typeEnc w ty = some (typeText ty)) :
    typeEncs w types = some (types.map typeText) := by
  induction types with
  | nil => rw [typeEncs, List.map_nil]
  | cons ty rest ih =>
      rw [typeEncs, hEach ty List.mem_cons_self,
        ih fun t ht => hEach t (List.mem_cons_of_mem _ ht)]
      rfl

/- Saturating along the way is saturating the sum. -/
theorem foldl_saturatingAdd
    (arities : List Nat)
    (start : Nat)
    (hStart : start ≤ w.usizeMax) :
    arities.foldl (saturatingAdd w) start =
      min (start + arities.sum) w.usizeMax := by
  induction arities generalizing start with
  | nil =>
      rw [List.foldl_nil, List.sum_nil]
      omega
  | cons arity rest ih =>
      have hNext : saturatingAdd w start arity ≤ w.usizeMax :=
        Nat.min_le_right _ _
      rw [List.foldl_cons, ih _ hNext, List.sum_cons, saturatingAdd]
      omega

theorem isizeMax_lt_usizeMax
    (w : PointerWidth) :
    w.isizeMax < w.usizeMax := by
  cases w <;> decide

/- The saturated sum of the arities is the number of the arguments only
   where the exact one is. -/
theorem arityTotal_eq_iff
    (arities : List Nat)
    {length : Nat}
    (hLength : length ≤ w.isizeMax) :
    arities.foldl (saturatingAdd w) 0 = length ↔ arities.sum = length := by
  have hLess := isizeMax_lt_usizeMax w
  rw [foldl_saturatingAdd arities 0 (Nat.zero_le _)]
  omega

/- With enough arguments left, each segment takes its own. -/
theorem distribute_eq
    {encodings : List (List Char)}
    (hLength : encodings.length ≤ w.usizeMax)
    (segments : List (List Char × Nat))
    (next : Nat)
    (hEnough : next + (segments.map Prod.snd).sum ≤ encodings.length) :
    distribute w encodings next segments =
      some (distributed (encodings.drop next) segments) := by
  induction segments generalizing next with
  | nil => rw [distribute, distributed]
  | cons head rest ih =>
      rcases head with ⟨segment, arity⟩
      rw [List.map_cons, List.sum_cons] at hEnough
      have hRest := ih (next + arity) (by omega)
      rw [distribute, distributed]
      by_cases hArity : 0 < arity
      · have hAdd : checkedAdd w next arity = some (next + arity) :=
          if_pos (by omega)
        have hSlice : slice encodings next (next + arity) =
            some ((encodings.take (next + arity)).drop next) :=
          if_pos (by omega)
        rw [if_pos hArity, if_pos hArity, hAdd, List.drop_drop]
        simp only [Option.bind_eq_bind, Option.bind_some, hSlice, hRest]
        rw [List.drop_take, Nat.add_sub_cancel_left]
      · have hZero : arity = 0 := Nat.eq_zero_of_not_pos hArity
        rw [hZero, Nat.add_zero] at hRest
        rw [if_neg hArity, if_neg hArity, hRest, hZero, List.drop_zero]
        rfl

theorem namedEnc_eq
    (space : List (List Char))
    (name : List Char)
    (segmentArities : List Nat)
    {texts : List (List Char)}
    (hLength : texts.length ≤ w.isizeMax) :
    namedEnc w space name segmentArities texts =
      some (namedText space name segmentArities texts) := by
  have hTotal := arityTotal_eq_iff segmentArities hLength
  have hLess := isizeMax_lt_usizeMax w
  simp only [namedEnc, namedText, hTotal]
  by_cases hExact : segmentArities.length = (name.splitOn '/').length ∧
      segmentArities.sum = texts.length
  · have hSum : (((name.splitOn '/').zip segmentArities).map
        Prod.snd).sum = texts.length := by
      rw [List.map_snd_zip (Nat.le_of_eq hExact.1), hExact.2]
    rw [if_pos hExact, if_pos hExact,
      distribute_eq (by omega) _ 0 (by omega), List.drop_zero]
    rfl
  · rw [if_neg hExact, if_neg hExact]

/- The encoding of a type the machine holds is the one with exact sums. -/
theorem typeEnc_eq
    {ty : TypeRef}
    (hFits : ty.Fits w) :
    typeEnc w ty = some (typeText ty) := by
  induction ty with
  | Primitive p => rw [typeEnc, typeText]
  | Var index isMethod => rw [typeEnc, typeText]
  | VoidPtr => rw [typeEnc, typeText]
  | Array element rank sizes lowerBounds ih =>
      cases hFits with
      | Array _ _ _ _ hElement =>
          rw [typeEnc, typeText, ih hElement]
          rfl
  | Ptr pointee ih =>
      cases hFits with
      | Ptr _ hPointee =>
          rw [typeEnc, typeText, ih hPointee]
          rfl
  | ByRef inner ih =>
      cases hFits with
      | ByRef _ hInner =>
          rw [typeEnc, typeText, ih hInner]
          rfl
  | Named space name typeArgs segmentArities ih =>
      cases hFits with
      | Named _ _ _ _ hArities hLength hArgs =>
          have hEach : ∀ a ∈ typeArgs, typeEnc w a = some (typeText a) :=
            fun a ha => ih a ha (hArgs a ha)
          have hTexts : (typeArgs.map typeText).length ≤ w.isizeMax := by
            rw [List.length_map]
            exact hLength
          rw [typeEnc, typeText, typeEncs_eq hEach, typeTexts_eq]
          exact namedEnc_eq space name segmentArities hTexts

end Exact

end DocId

end Assembly

end Borzoi
