import Borzoi.Assembly.Cursor

/-
  The signature decoder.

  A position is a run of modifiers and a type.  Every child of a type
  is a position.  Nesting and modifiers are charged to one depth.
-/

namespace Borzoi

namespace Assembly

open Program

inductive Primitive
  | Boolean
  | Char
  | Int8
  | UInt8
  | Int16
  | UInt16
  | Int32
  | UInt32
  | Int64
  | UInt64
  | Float32
  | Float64
  | IntPtr
  | UIntPtr
  | String
  | Object
  deriving DecidableEq, Repr

inductive NamedKind
  | Class
  | ValueType
  deriving DecidableEq, Repr

/- A type of this image, or of another, by its row. -/
inductive TypeScope
  | Definition (id : Nat)
  | Reference (id : Nat)
  deriving DecidableEq, Repr

structure CustomMod where
  required : Bool
  modifier : TypeScope
  deriving DecidableEq, Repr

mutual

inductive ModifiedType
  | mk (mods : List CustomMod) (ty : TypeSig)

inductive TypeSig
  | Primitive (primitive : Primitive)
  | Named (kind : Option NamedKind) (scope : TypeScope)
  | Generic
      (kind : Option NamedKind)
      (scope : TypeScope)
      (args : List ModifiedType)
  | TypeVar (index : Nat)
  | MethodVar (index : Nat)
  | SzArray (element : ModifiedType)
  | Array
      (element : ModifiedType)
      (rank : Nat)
      (sizes : List Nat)
      (lowerBounds : List Int)
  | Ptr (pointee : Option ModifiedType)
  | ByRef (referent : ModifiedType)
  | TypedByRef

end

inductive SigError
  | UnsupportedElement (byte : UInt8)
  | UnexpectedVoid
  | Truncated
  | BadToken
  | TooDeep
  deriving DecidableEq, Repr

/-
  How a decoder ends without a value: with an error of the source, or
  with more nested calls than the model gives it.
-/
inductive Halt
  | refused (e : SigError)
  | outOfLevels
  deriving DecidableEq, Repr

def maxDepth : Nat := 128

structure ImageTables where
  typeDefRows : Nat
  typeRefRows : Nat

abbrev Decoder := Step UInt8 Halt

namespace Elem

def VOID : UInt8 := 0x01
def BOOLEAN : UInt8 := 0x02
def CHAR : UInt8 := 0x03
def I1 : UInt8 := 0x04
def U1 : UInt8 := 0x05
def I2 : UInt8 := 0x06
def U2 : UInt8 := 0x07
def I4 : UInt8 := 0x08
def U4 : UInt8 := 0x09
def I8 : UInt8 := 0x0a
def U8 : UInt8 := 0x0b
def R4 : UInt8 := 0x0c
def R8 : UInt8 := 0x0d
def STRING : UInt8 := 0x0e
def PTR : UInt8 := 0x0f
def BYREF : UInt8 := 0x10
def VALUETYPE : UInt8 := 0x11
def CLASS : UInt8 := 0x12
def VAR : UInt8 := 0x13
def ARRAY : UInt8 := 0x14
def GENERICINST : UInt8 := 0x15
def TYPEDBYREF : UInt8 := 0x16
def I : UInt8 := 0x18
def U : UInt8 := 0x19
def OBJECT : UInt8 := 0x1c
def SZARRAY : UInt8 := 0x1d
def MVAR : UInt8 := 0x1e
def CMOD_REQD : UInt8 := 0x1f
def CMOD_OPT : UInt8 := 0x20

end Elem

namespace Conv

def DEFAULT : UInt8 := 0x00
def VARARG : UInt8 := 0x05
def FIELD : UInt8 := 0x06
def PROPERTY : UInt8 := 0x08
def GENERIC : UInt8 := 0x10
def HASTHIS : UInt8 := 0x20
def EXPLICITTHIS : UInt8 := 0x40
def CONV_MASK : UInt8 := 0x1F

end Conv

/- The built-in types, each with its byte. -/
def primitives : List (UInt8 × Primitive) :=
  [(Elem.BOOLEAN, .Boolean), (Elem.CHAR, .Char), (Elem.I1, .Int8),
    (Elem.U1, .UInt8), (Elem.I2, .Int16), (Elem.U2, .UInt16),
    (Elem.I4, .Int32), (Elem.U4, .UInt32), (Elem.I8, .Int64),
    (Elem.U8, .UInt64), (Elem.R4, .Float32), (Elem.R8, .Float64),
    (Elem.I, .IntPtr), (Elem.U, .UIntPtr), (Elem.STRING, .String),
    (Elem.OBJECT, .Object)]

def refuse
    {α : Type}
    (e : SigError) :
    Decoder α :=
  fun _ => .error (.refused e)

/- A read of the cursor, refused as truncated where it fails. -/
def orTruncated
    {α : Type}
    (read : Cursor → Option (α × Cursor)) :
    Decoder α :=
  fun c =>
    match read c with
    | some r => .ok r
    | none => .error (.refused .Truncated)

def peek : Decoder (Option UInt8) :=
  fun c => .ok (Cursor.peekU8 c, c)

def readByte : Decoder UInt8 :=
  orTruncated Cursor.readU8

def readU32 : Decoder Nat :=
  orTruncated Cursor.readCompressedU32

def readI32 : Decoder Int :=
  orTruncated Cursor.readCompressedI32

/- `resolve_token`. -/
def resolveToken
    (token : Nat)
    (tables : ImageTables) :
    Except SigError TypeScope :=
  let tag := token &&& 3
  let rid := token >>> 2
  if rid = 0 then
    .error .BadToken
  else
    let index := rid - 1
    if tag = 0 ∧ index < tables.typeDefRows then
      .ok (.Definition index)
    else if tag = 1 ∧ index < tables.typeRefRows then
      .ok (.Reference index)
    else
      .error .BadToken

section Decode

variable (tables : ImageTables)

def readScope : Decoder TypeScope := do
  let token ← readU32
  match resolveToken token tables with
  | .ok scope => return scope
  | .error e => refuse e

/- Whether a modifier starts with the byte. -/
def startsMod
    (next : Option UInt8) :
    Bool :=
  next == some Elem.CMOD_REQD || next == some Elem.CMOD_OPT

/-
  The loop of `read_mods`.  `room` is what the modifiers read so far
  leave of the depth.
-/
def readModsLoop :
    Nat → Decoder (List CustomMod)
  | 0 => do
      let next ← peek
      if startsMod next then
        refuse .TooDeep
      else
        return []
  | room + 1 => do
      let next ← peek
      if startsMod next then
        let byte ← readByte
        let modifier ← readScope tables
        let mods ← readModsLoop room
        return ⟨byte == Elem.CMOD_REQD, modifier⟩ :: mods
      else
        return []

def readMods
    (depth : Nat) :
    Decoder (List CustomMod) :=
  readModsLoop tables (maxDepth - depth)

/- `decode`, with the decoder of the type behind the modifiers. -/
def decodeWith
    (element : Nat → Decoder TypeSig)
    (depth : Nat) :
    Decoder ModifiedType := do
  let mods ← readMods tables depth
  let ty ← element (depth + mods.length)
  return .mk mods ty

/- The shape of an array and its element type. -/
def decodeArray
    (element : Decoder ModifiedType) :
    Decoder TypeSig := do
  let ty ← element
  let rank ← readU32
  if rank = 0 then
    refuse .BadToken
  else
    let numSizes ← readU32
    if numSizes > rank then
      refuse .BadToken
    else
      let sizes ← times readU32 numSizes
      let numLoBounds ← readU32
      if numLoBounds > rank then
        refuse .BadToken
      else
        let lowerBounds ← times readI32 numLoBounds
        return .Array ty rank sizes lowerBounds

def decodePtr
    (pointee : Decoder ModifiedType) :
    Decoder TypeSig := do
  let next ← peek
  if next = some Elem.VOID then
    let _ ← readByte
    return .Ptr none
  else
    let ty ← pointee
    return .Ptr (some ty)

def decodeGenericInst
    (arg : Decoder ModifiedType) :
    Decoder TypeSig := do
  let byte ← readByte
  if byte ≠ Elem.CLASS ∧ byte ≠ Elem.VALUETYPE then
    refuse .BadToken
  else
    let kind := if byte = Elem.CLASS then .Class else .ValueType
    let scope ← readScope tables
    let count ← readU32
    let args ← times arg count
    return .Generic (some kind) scope args

/- The payload behind the element byte. -/
def decodePayload
    (child : Decoder ModifiedType)
    (byte : UInt8) :
    Decoder TypeSig :=
  match primitives.lookup byte with
  | some primitive => return .Primitive primitive
  | none =>
      if byte = Elem.TYPEDBYREF then
        return .TypedByRef
      else if byte = Elem.VOID then
        refuse .UnexpectedVoid
      else if byte = Elem.CLASS then do
        let scope ← readScope tables
        return .Named (some .Class) scope
      else if byte = Elem.VALUETYPE then do
        let scope ← readScope tables
        return .Named (some .ValueType) scope
      else if byte = Elem.VAR then do
        let index ← readU32
        return .TypeVar index
      else if byte = Elem.MVAR then do
        let index ← readU32
        return .MethodVar index
      else if byte = Elem.SZARRAY then do
        let element ← child
        return .SzArray element
      else if byte = Elem.ARRAY then
        decodeArray child
      else if byte = Elem.PTR then
        decodePtr child
      else if byte = Elem.BYREF then do
        let referent ← child
        return .ByRef referent
      else if byte = Elem.GENERICINST then
        decodeGenericInst tables child
      else
        refuse (.UnsupportedElement byte)

/- `decode_element`.  `levels` bounds the calls inside each other. -/
def decodeElement :
    Nat → Nat → Decoder TypeSig
  | 0, _ => fun _ => .error .outOfLevels
  | levels + 1, depth =>
      if depth ≥ maxDepth then
        refuse .TooDeep
      else do
        let byte ← readByte
        decodePayload tables
          (decodeWith tables (decodeElement levels) (depth + 1)) byte

/- The calls a decoder makes inside each other, the refused one too. -/
def decodeLevels : Nat := maxDepth + 1

def decode
    (depth : Nat) :
    Decoder ModifiedType :=
  decodeWith tables (decodeElement tables decodeLevels) depth

inductive CallConv
  | Default
  | VarArg
  | Generic (count : Nat)
  deriving DecidableEq, Repr

inductive RetType
  | Void (mods : List CustomMod)
  | Type (ty : ModifiedType)

structure DecodedMethodSig where
  hasThis : Bool
  explicitThis : Bool
  callingConvention : CallConv
  returnType : RetType
  paramTypes : List ModifiedType

def decodeRetType : Decoder RetType := do
  let mods ← readMods tables 0
  let next ← peek
  if next = some Elem.VOID then
    let _ ← readByte
    return .Void mods
  else
    let ty ← decodeElement tables decodeLevels mods.length
    return .Type (.mk mods ty)

def readCallConv
    (first : UInt8) :
    Decoder CallConv :=
  if first &&& Conv.CONV_MASK = Conv.DEFAULT then
    return .Default
  else if first &&& Conv.CONV_MASK = Conv.VARARG then
    return .VarArg
  else if first &&& Conv.CONV_MASK = Conv.GENERIC then do
    let count ← readU32
    return .Generic count
  else
    refuse (.UnsupportedElement first)

def methodSig : Decoder DecodedMethodSig := do
  let first ← readByte
  let callingConvention ← readCallConv first
  let paramCount ← readU32
  let returnType ← decodeRetType tables
  let paramTypes ← times (decode tables 0) paramCount
  return ⟨first &&& Conv.HASTHIS != 0, first &&& Conv.EXPLICITTHIS != 0,
    callingConvention, returnType, paramTypes⟩

def fieldSig : Decoder ModifiedType := do
  let tag ← readByte
  if tag ≠ Conv.FIELD then
    refuse .BadToken
  else
    decode tables 0

def propertySig : Decoder ModifiedType := do
  let first ← readByte
  if first &&& Conv.CONV_MASK ≠ Conv.PROPERTY then
    refuse .BadToken
  else
    let _ ← readU32
    decode tables 0

def propertyIndexParams : Decoder (List ModifiedType) := do
  let first ← readByte
  if first &&& Conv.CONV_MASK ≠ Conv.PROPERTY then
    refuse .BadToken
  else
    let count ← readU32
    let _ ← decode tables 0
    times (decode tables 0) count

/- The value that a decoder reads from the front of a blob. -/
def decodeBlob
    {α : Type}
    (decoder : Decoder α)
    (blob : List UInt8) :
    Except Halt α :=
  match decoder (Cursor.new blob) with
  | .ok (x, _) => .ok x
  | .error e => .error e

def decodeType
    (blob : List UInt8) :
    Except Halt ModifiedType :=
  decodeBlob (decode tables 0) blob

def decodeMethodSig
    (blob : List UInt8) :
    Except Halt DecodedMethodSig :=
  decodeBlob (methodSig tables) blob

def decodeFieldSig
    (blob : List UInt8) :
    Except Halt ModifiedType :=
  decodeBlob (fieldSig tables) blob

def decodePropertySig
    (blob : List UInt8) :
    Except Halt ModifiedType :=
  decodeBlob (propertySig tables) blob

def decodePropertyIndexParams
    (blob : List UInt8) :
    Except Halt (List ModifiedType) :=
  decodeBlob (propertyIndexParams tables) blob

/- `property_sig_has_this`. -/
def propertySigHasThis
    (blob : List UInt8) :
    Option Bool :=
  blob.head?.map fun first => first &&& Conv.HASTHIS != 0

end Decode

end Assembly

end Borzoi
