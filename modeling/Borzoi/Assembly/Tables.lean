import Borzoi.Assembly.Metadata

/-
  The layout of the metadata tables.

  A row is its columns one behind the other, and a table its rows.  The
  width of a column follows from the row counts and the heap sizes.
-/

namespace Borzoi

namespace Assembly

open Program

namespace table

def MODULE : TableId := 0x00
def TYPE_REF : TableId := 0x01
def TYPE_DEF : TableId := 0x02
def FIELD_PTR : TableId := 0x03
def FIELD : TableId := 0x04
def METHOD_PTR : TableId := 0x05
def METHOD_DEF : TableId := 0x06
def PARAM_PTR : TableId := 0x07
def PARAM : TableId := 0x08
def INTERFACE_IMPL : TableId := 0x09
def MEMBER_REF : TableId := 0x0A
def CONSTANT : TableId := 0x0B
def CUSTOM_ATTRIBUTE : TableId := 0x0C
def FIELD_MARSHAL : TableId := 0x0D
def DECL_SECURITY : TableId := 0x0E
def CLASS_LAYOUT : TableId := 0x0F
def FIELD_LAYOUT : TableId := 0x10
def STANDALONE_SIG : TableId := 0x11
def EVENT_MAP : TableId := 0x12
def EVENT_PTR : TableId := 0x13
def EVENT : TableId := 0x14
def PROPERTY_MAP : TableId := 0x15
def PROPERTY_PTR : TableId := 0x16
def PROPERTY : TableId := 0x17
def METHOD_SEMANTICS : TableId := 0x18
def METHOD_IMPL : TableId := 0x19
def MODULE_REF : TableId := 0x1A
def TYPE_SPEC : TableId := 0x1B
def IMPL_MAP : TableId := 0x1C
def FIELD_RVA : TableId := 0x1D
def ENC_LOG : TableId := 0x1E
def ENC_MAP : TableId := 0x1F
def ASSEMBLY : TableId := 0x20
def ASSEMBLY_PROCESSOR : TableId := 0x21
def ASSEMBLY_OS : TableId := 0x22
def ASSEMBLY_REF : TableId := 0x23
def ASSEMBLY_REF_PROCESSOR : TableId := 0x24
def ASSEMBLY_REF_OS : TableId := 0x25
def FILE : TableId := 0x26
def EXPORTED_TYPE : TableId := 0x27
def MANIFEST_RESOURCE : TableId := 0x28
def NESTED_CLASS : TableId := 0x29
def GENERIC_PARAM : TableId := 0x2A
def METHOD_SPEC : TableId := 0x2B
def GENERIC_PARAM_CONSTRAINT : TableId := 0x2C

end table

inductive Coded
  | TypeDefOrRef
  | HasConstant
  | HasCustomAttribute
  | HasFieldMarshal
  | HasDeclSecurity
  | MemberRefParent
  | HasSemantics
  | MethodDefOrRef
  | MemberForwarded
  | Implementation
  | CustomAttributeType
  | ResolutionScope
  | TypeOrMethodDef
  deriving DecidableEq, Repr

namespace Coded

def tagBits
    (c : Coded) :
    Nat :=
  match c with
  | .HasFieldMarshal
  | .HasSemantics
  | .MethodDefOrRef
  | .MemberForwarded
  | .TypeOrMethodDef => 1
  | .TypeDefOrRef
  | .HasConstant
  | .HasDeclSecurity
  | .Implementation
  | .ResolutionScope => 2
  | .MemberRefParent
  | .CustomAttributeType => 3
  | .HasCustomAttribute => 5

open table in
/- The table of each tag, if it is not reserved. -/
def slots
    (c : Coded) :
    List (Option TableId) :=
  match c with
  | .TypeDefOrRef => [some TYPE_DEF, some TYPE_REF, some TYPE_SPEC]
  | .HasConstant => [some FIELD, some PARAM, some PROPERTY]
  | .HasCustomAttribute =>
      [some METHOD_DEF, some FIELD, some TYPE_REF, some TYPE_DEF, some PARAM,
        some INTERFACE_IMPL, some MEMBER_REF, some MODULE, some DECL_SECURITY,
        some PROPERTY, some EVENT, some STANDALONE_SIG, some MODULE_REF,
        some TYPE_SPEC, some ASSEMBLY, some ASSEMBLY_REF, some FILE,
        some EXPORTED_TYPE, some MANIFEST_RESOURCE, some GENERIC_PARAM,
        some GENERIC_PARAM_CONSTRAINT, some METHOD_SPEC]
  | .HasFieldMarshal => [some FIELD, some PARAM]
  | .HasDeclSecurity => [some TYPE_DEF, some METHOD_DEF, some ASSEMBLY]
  | .MemberRefParent =>
      [some TYPE_DEF, some TYPE_REF, some MODULE_REF, some METHOD_DEF,
        some TYPE_SPEC]
  | .HasSemantics => [some EVENT, some PROPERTY]
  | .MethodDefOrRef => [some METHOD_DEF, some MEMBER_REF]
  | .MemberForwarded => [some FIELD, some METHOD_DEF]
  | .Implementation => [some FILE, some ASSEMBLY_REF, some EXPORTED_TYPE]
  | .CustomAttributeType => [none, none, some METHOD_DEF, some MEMBER_REF, none]
  | .ResolutionScope =>
      [some MODULE, some MODULE_REF, some ASSEMBLY_REF, some TYPE_REF]
  | .TypeOrMethodDef => [some TYPE_DEF, some METHOD_DEF]

def width
    (c : Coded)
    (rows : TableId → UInt32) :
    Run Error Nat := do
  let largest := ((c.slots.filterMap id).map rows).max?.getD 0
  let spare ← sub 16 c.tagBits
  let shift ← shiftBy 64 spare
  return if largest.toNat < 1 <<< shift then 2 else 4

end Coded

inductive Col
  | U16
  | U32
  | Str
  | Guid
  | Blob
  | Simple (t : TableId)
  | Coded (c : Coded)
  deriving DecidableEq, Repr

/- The widths of the heap indices. -/
structure Widths where
  str : Nat
  guid : Nat
  blob : Nat
  deriving DecidableEq, Repr

def Col.width
    (col : Col)
    (widths : Widths)
    (rows : TableId → UInt32) :
    Run Error Nat :=
  match col with
  | .U16 => .ok 2
  | .U32 => .ok 4
  | .Str => .ok widths.str
  | .Guid => .ok widths.guid
  | .Blob => .ok widths.blob
  | .Simple t => .ok (if (rows t).toNat < 1 <<< 16 then 2 else 4)
  | .Coded c => c.width rows

open table in
def schemas : List (TableId × List Col) :=
  [(MODULE, [.U16, .Str, .Guid, .Guid, .Guid]),
    (TYPE_REF, [.Coded .ResolutionScope, .Str, .Str]),
    (TYPE_DEF,
      [.U32, .Str, .Str, .Coded .TypeDefOrRef, .Simple FIELD,
        .Simple METHOD_DEF]),
    (FIELD_PTR, [.Simple FIELD]),
    (FIELD, [.U16, .Str, .Blob]),
    (METHOD_PTR, [.Simple METHOD_DEF]),
    (METHOD_DEF, [.U32, .U16, .U16, .Str, .Blob, .Simple PARAM]),
    (PARAM_PTR, [.Simple PARAM]),
    (PARAM, [.U16, .U16, .Str]),
    (INTERFACE_IMPL, [.Simple TYPE_DEF, .Coded .TypeDefOrRef]),
    (MEMBER_REF, [.Coded .MemberRefParent, .Str, .Blob]),
    (CONSTANT, [.U16, .Coded .HasConstant, .Blob]),
    (CUSTOM_ATTRIBUTE,
      [.Coded .HasCustomAttribute, .Coded .CustomAttributeType, .Blob]),
    (FIELD_MARSHAL, [.Coded .HasFieldMarshal, .Blob]),
    (DECL_SECURITY, [.U16, .Coded .HasDeclSecurity, .Blob]),
    (CLASS_LAYOUT, [.U16, .U32, .Simple TYPE_DEF]),
    (FIELD_LAYOUT, [.U32, .Simple FIELD]),
    (STANDALONE_SIG, [.Blob]),
    (EVENT_MAP, [.Simple TYPE_DEF, .Simple EVENT]),
    (EVENT_PTR, [.Simple EVENT]),
    (EVENT, [.U16, .Str, .Coded .TypeDefOrRef]),
    (PROPERTY_MAP, [.Simple TYPE_DEF, .Simple PROPERTY]),
    (PROPERTY_PTR, [.Simple PROPERTY]),
    (PROPERTY, [.U16, .Str, .Blob]),
    (METHOD_SEMANTICS, [.U16, .Simple METHOD_DEF, .Coded .HasSemantics]),
    (METHOD_IMPL,
      [.Simple TYPE_DEF, .Coded .MethodDefOrRef, .Coded .MethodDefOrRef]),
    (MODULE_REF, [.Str]),
    (TYPE_SPEC, [.Blob]),
    (IMPL_MAP, [.U16, .Coded .MemberForwarded, .Str, .Simple MODULE_REF]),
    (FIELD_RVA, [.U32, .Simple FIELD]),
    (ENC_LOG, [.U32, .U32]),
    (ENC_MAP, [.U32]),
    (ASSEMBLY, [.U32, .U16, .U16, .U16, .U16, .U32, .Blob, .Str, .Str]),
    (ASSEMBLY_PROCESSOR, [.U32]),
    (ASSEMBLY_OS, [.U32, .U32, .U32]),
    (ASSEMBLY_REF, [.U16, .U16, .U16, .U16, .U32, .Blob, .Str, .Str, .Blob]),
    (ASSEMBLY_REF_PROCESSOR, [.U32, .Simple ASSEMBLY_REF]),
    (ASSEMBLY_REF_OS, [.U32, .U32, .U32, .Simple ASSEMBLY_REF]),
    (FILE, [.U32, .Str, .Blob]),
    (EXPORTED_TYPE, [.U32, .U32, .Str, .Str, .Coded .Implementation]),
    (MANIFEST_RESOURCE, [.U32, .U32, .Str, .Coded .Implementation]),
    (NESTED_CLASS, [.Simple TYPE_DEF, .Simple TYPE_DEF]),
    (GENERIC_PARAM, [.U16, .U16, .Coded .TypeOrMethodDef, .Str]),
    (METHOD_SPEC, [.Coded .MethodDefOrRef, .Blob]),
    (GENERIC_PARAM_CONSTRAINT, [.Simple GENERIC_PARAM, .Coded .TypeDefOrRef])]

/- `schema`: the columns of a table, if it is defined. -/
def schema
    (t : TableId) :
    Option (List Col) :=
  schemas.lookup t

/- The widths of columns added up, onto a first value. -/
def sumWidths
    (w : PointerWidth)
    (widths : Widths)
    (rows : TableId → UInt32) :
    List Col → Nat → Run Error Nat
  | [], total => .ok total
  | col :: rest, total => do
      let width ← col.width widths rows
      let next ← add w.usizeMax total width
      sumWidths w widths rows rest next

structure Tables where
  md : MetadataFile
  widths : Widths
  stride : TableId → Nat
  offset : TableId → Nat

/- The size of a row, or zero for a table without rows. -/
def strideOf
    (w : PointerWidth)
    (widths : Widths)
    (rows : TableId → UInt32)
    (t : TableId) :
    Run Error Nat :=
  if rows t = 0 then
    .ok 0
  else do
    let cols ← orFail .UnsupportedTableStream (schema t)
    sumWidths w widths rows cols 0

def layStrides
    (w : PointerWidth)
    (widths : Widths)
    (rows : TableId → UInt32) :
    List TableId → Run Error (TableId → Nat)
  | [] => .ok fun _ => 0
  | t :: rest => do
      let size ← strideOf w widths rows t
      let strides ← layStrides w widths rows rest
      return Function.update strides t size

/- Each table starts at the running total; the total is returned too. -/
def layOffsets
    (w : PointerWidth)
    (rows : TableId → UInt32)
    (stride : TableId → Nat) :
    List TableId → Nat → Run Error ((TableId → Nat) × Nat)
  | [], running => .ok (fun _ => 0, running)
  | t :: rest, running => do
      let bytes ← orFail .TableIndexOutOfRange
        (checkedMul w.usizeMax (rows t).toNat (stride t))
      let next ← orFail .TableIndexOutOfRange
        (checkedAdd w.usizeMax running bytes)
      let laid ← layOffsets w rows stride rest next
      return (Function.update laid.1 t running, laid.2)

def widthsOf
    (heapSizes : HeapSizes) :
    Widths where
  str := if heapSizes.wideStrings then 4 else 2
  guid := if heapSizes.wideGuid then 4 else 2
  blob := if heapSizes.wideBlob then 4 else 2

/- A row of a table. -/
structure Row where
  table : TableId
  bytes : List UInt8
  deriving DecidableEq, Repr

namespace Tables

def new
    (w : PointerWidth)
    (md : MetadataFile) :
    Run Error Tables := do
  let widths := widthsOf md.heapSizes
  let stride ← layStrides w widths md.rows (List.finRange 64)
  let laid ← layOffsets w md.rows stride (List.finRange 64) 0
  if md.tables.length < laid.2 then
    refuseWith .TableIndexOutOfRange
  else
    return ⟨md, widths, stride, laid.1⟩

def rowCount
    (tables : Tables)
    (t : TableId) :
    UInt32 :=
  tables.md.rows t

def row
    (w : PointerWidth)
    (tables : Tables)
    (t : TableId)
    (i : UInt32) :
    Run Error Row := do
  if tables.md.rows t ≤ i then
    refuseWith .TableIndexOutOfRange
  else
    let stride := tables.stride t
    let before ← orFail .TableIndexOutOfRange
      (checkedMul w.usizeMax i.toNat stride)
    let start ← orFail .TableIndexOutOfRange
      (checkedAdd w.usizeMax (tables.offset t) before)
    let stop ← orFail .TableIndexOutOfRange
      (checkedAdd w.usizeMax start stride)
    let bytes ← orFail .TableIndexOutOfRange
      (slice tables.md.tables start stop)
    return ⟨t, bytes⟩

/- The offset of a column in a row, and its width. -/
def colSpan
    (w : PointerWidth)
    (tables : Tables)
    (t : TableId)
    (i : Nat) :
    Run Error (Nat × Nat) := do
  let cols ← orPanic .Expectation (schema t)
  let before ← sliceAt cols 0 i
  let off ← sumWidths w tables.widths tables.md.rows before 0
  let col ← orPanic .SliceOutOfRange cols[i]?
  let width ← col.width tables.widths tables.md.rows
  return (off, width)

end Tables

/- Each byte goes to its place in the value. -/
def gather :
    List UInt8 → Nat → UInt32 → Run Error UInt32
  | [], _, value => .ok value
  | b :: rest, i, value => do
      let shift ← shiftBy 32 (8 * i)
      gather rest (i + 1) (value ||| (b.toUInt32 <<< UInt32.ofNat shift))

def Row.uint
    (w : PointerWidth)
    (tables : Tables)
    (row : Row)
    (i : Nat) :
    Run Error UInt32 := do
  let span ← tables.colSpan w row.table i
  let stop ← add w.usizeMax span.1 span.2
  let bytes ← sliceAt row.bytes span.1 stop
  gather bytes 0 0

/- `MetadataFile::read`, then `Tables::new`. -/
def readTables
    (w : PointerWidth)
    (image : Image w) :
    Run Error Tables := do
  let md ← MetadataFile.read w image.bytes
  Tables.new w md

end Assembly

end Borzoi
