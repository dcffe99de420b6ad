import Borzoi.Assembly.Cursor
import Borzoi.Program.Panic
import Mathlib.Algebra.GroupWithZero.Nat

/-
  The metadata container.

  The reader follows the headers of the image to the metadata root, its
  streams and the row counts of the tables.  Every slice is taken from
  the region that declares it.
-/

namespace Borzoi

namespace Assembly

open Program

/- The targets on which every `u32` is a `usize`. -/
inductive PointerWidth
  | w32
  | w64
  deriving DecidableEq, Repr

namespace PointerWidth

def bits
    (w : PointerWidth) :
    Nat :=
  match w with
  | .w32 => 32
  | .w64 => 64

def usizeMax
    (w : PointerWidth) :
    Nat :=
  2 ^ w.bits - 1

/- No slice is longer. -/
def isizeMax
    (w : PointerWidth) :
    Nat :=
  2 ^ (w.bits - 1) - 1

end PointerWidth

/- A byte slice. -/
structure Image (w : PointerWidth) where
  bytes : List UInt8
  length_le : bytes.length ≤ w.isizeMax

/- The number of the bytes, lowest first. -/
def fromLeBytes
    (bytes : List UInt8) :
    Nat :=
  bytes.foldr (fun b n => b.toNat + 256 * n) 0

namespace Cursor

/- `Cursor::at`. -/
def «at»
    (data : List UInt8)
    (pos : Nat) :
    Cursor :=
  ⟨data, pos⟩

def readU16
    (c : Cursor) :
    Option (UInt16 × Cursor) :=
  (take c 2).map fun r => (UInt16.ofNat (fromLeBytes r.1), r.2)

def readU32
    (c : Cursor) :
    Option (UInt32 × Cursor) :=
  (take c 4).map fun r => (UInt32.ofNat (fromLeBytes r.1), r.2)

def readU64
    (c : Cursor) :
    Option (UInt64 × Cursor) :=
  (take c 8).map fun r => (UInt64.ofNat (fromLeBytes r.1), r.2)

end Cursor

inductive Error
  | NotPortableExecutable
  | NoCliHeader
  | UnreadableCliHeader
  | BadMetadataRoot
  | MissingHeap (name : String)
  | HeapOffsetOutOfRange
  | TableIndexOutOfRange
  | UnsupportedTableStream
  deriving DecidableEq, Repr

abbrev Reader := Step UInt8 (Fail Error)

/- A read of the cursor, refused with the error where it fails. -/
def need
    {α : Type}
    (e : Error)
    (read : Cursor → Option (α × Cursor)) :
    Reader α :=
  fun c => orFail e (read c)

def skip
    (e : Error)
    (n : Nat) :
    Reader Unit := do
  let _ ← need e fun c => Cursor.take c n
  return ()

/- The cursor's position. -/
def position : Reader Nat :=
  fun c => .ok (c.pos, c)

/- What a reader returns from a place of the data. -/
def readAt
    {α : Type}
    (data : List UInt8)
    (pos : Nat)
    (reader : Reader α) :
    Run Error α := do
  let r ← reader (Cursor.at data pos)
  return r.1

structure «Section» where
  virtualAddress : UInt32
  virtualSize : UInt32
  rawDataPtr : UInt32
  rawDataSize : UInt32
  deriving DecidableEq, Repr

def u32Max : Nat := 2 ^ 32 - 1

/- `checked_add` of two `u32`. -/
def checkedAdd32
    (a b : UInt32) :
    Option Nat :=
  checkedAdd u32Max a.toNat b.toNat

/-
  `rva_to_slice`.  The first section that holds the address decides,
  and a section whose end overflows ends the search.
-/
def rvaToSlice
    (image : List UInt8) :
    List «Section» → UInt32 → Run Error (Option (List UInt8))
  | [], _ => .ok none
  | s :: rest, rva =>
      let span := if s.virtualSize = 0 then s.rawDataSize else s.virtualSize
      match checkedAdd32 s.virtualAddress span with
      | none => .ok none
      | some stop =>
          if s.virtualAddress ≤ rva ∧ rva.toNat < stop then do
            let delta ← sub rva.toNat s.virtualAddress.toNat
            if s.rawDataSize.toNat ≤ delta then
              return none
            else
              match checkedAdd u32Max s.rawDataPtr.toNat delta with
              | none => return none
              | some start =>
                  match checkedAdd32 s.rawDataPtr s.rawDataSize with
                  | none => return none
                  | some rawEnd => return slice image start rawEnd
          else
            rvaToSlice image rest rva

/- "MZ", and "PE" with two zero bytes. -/
def dosMagic : List UInt8 := [0x4D, 0x5A]
def peSignature : List UInt8 := [0x50, 0x45, 0, 0]

def CLI_HEADER_DIRECTORY : Nat := 14
def METADATA_SIGNATURE : UInt32 := 0x424A5342

/- What the COFF and the optional header say. -/
structure PeHeader where
  numSections : Nat
  sizeOptional : Nat
  optionalStart : Nat
  dataDirsAt : Nat
  deriving DecidableEq, Repr

/- From the PE signature to the start of the optional header. -/
def readCoff : Reader (Nat × Nat) := do
  let signature ← need .NotPortableExecutable fun c => Cursor.take c 4
  if signature ≠ peSignature then
    lift (refuseWith .NotPortableExecutable)
  else
    skip .NotPortableExecutable 2
    let numSections ← need .NotPortableExecutable Cursor.readU16
    skip .NotPortableExecutable (4 + 4 + 4)
    let sizeOptional ← need .NotPortableExecutable Cursor.readU16
    skip .NotPortableExecutable 2
    return (numSections.toNat, sizeOptional.toNat)

/- Where the data directories start in the optional header. -/
def dataDirsOf
    (magic : UInt16) :
    Run Error Nat :=
  if magic = 0x10B then
    .ok 96
  else if magic = 0x20B then
    .ok 112
  else
    refuseWith .NotPortableExecutable

def readPe
    (image : List UInt8) :
    Run Error PeHeader := do
  if slice image 0 2 ≠ some dosMagic then
    refuseWith .NotPortableExecutable
  else
    let eLfanew ←
      readAt image 0x3C (need .NotPortableExecutable Cursor.readU32)
    let coff ← readCoff (Cursor.at image eLfanew.toNat)
    let optionalStart := coff.2.pos
    let magic ←
      readAt image optionalStart (need .NotPortableExecutable Cursor.readU16)
    let dataDirsAt ← dataDirsOf magic
    return ⟨coff.1.1, coff.1.2, optionalStart, dataDirsAt⟩

/- The address and the size of the CLI directory. -/
def readCliDirectory : Reader UInt32 := do
  let cliRva ← need .NotPortableExecutable Cursor.readU32
  if cliRva = 0 then
    lift (refuseWith .NoCliHeader)
  else
    let _ ← need .UnreadableCliHeader Cursor.readU32
    return cliRva

/- The address of the CLI header, and the end of the optional header. -/
def readCliRva
    (w : PointerWidth)
    (image : List UInt8)
    (pe : PeHeader) :
    Run Error (UInt32 × Nat) := do
  let optionalEnd ← orFail .NotPortableExecutable
    (checkedAdd w.usizeMax pe.optionalStart pe.sizeOptional)
  let dirs ← add w.usizeMax pe.optionalStart pe.dataDirsAt
  let countAt ← sub dirs 4
  let countEnd ← orFail .NotPortableExecutable
    (checkedAdd w.usizeMax countAt 4)
  if optionalEnd < countEnd then
    refuseWith .NotPortableExecutable
  else
    let numRvaAndSizes ←
      readAt image countAt (need .NotPortableExecutable Cursor.readU32)
    if numRvaAndSizes.toNat ≤ CLI_HEADER_DIRECTORY then
      refuseWith .NoCliHeader
    else
      let cliDir ← add w.usizeMax dirs (CLI_HEADER_DIRECTORY * 8)
      let cliEnd ← orFail .NotPortableExecutable
        (checkedAdd w.usizeMax cliDir 8)
      if optionalEnd < cliEnd then
        refuseWith .NotPortableExecutable
      else
        let cliRva ← readAt image cliDir readCliDirectory
        let sectionsAt ← add w.usizeMax pe.optionalStart pe.sizeOptional
        return (cliRva, sectionsAt)

def readSection : Reader «Section» := do
  skip .NotPortableExecutable 8
  let virtualSize ← need .NotPortableExecutable Cursor.readU32
  let virtualAddress ← need .NotPortableExecutable Cursor.readU32
  let rawDataSize ← need .NotPortableExecutable Cursor.readU32
  let rawDataPtr ← need .NotPortableExecutable Cursor.readU32
  skip .NotPortableExecutable 16
  return ⟨virtualAddress, virtualSize, rawDataPtr, rawDataSize⟩

/- What is read of the CLI header. -/
structure CliHeader where
  metadataRva : UInt32
  metadataSize : UInt32
  resourcesRva : UInt32
  resourcesSize : UInt32
  deriving DecidableEq, Repr

def readCliHeader : Reader CliHeader := do
  skip .UnreadableCliHeader (4 + 2 + 2)
  let metadataRva ← need .UnreadableCliHeader Cursor.readU32
  let metadataSize ← need .UnreadableCliHeader Cursor.readU32
  skip .UnreadableCliHeader (4 + 4)
  let resourcesRva ← need .UnreadableCliHeader Cursor.readU32
  let resourcesSize ← need .UnreadableCliHeader Cursor.readU32
  return ⟨metadataRva, metadataSize, resourcesRva, resourcesSize⟩

/-
  `read_stream_name`, four bytes at a time up to a zero.  `rounds`
  bounds the loop.
-/
def readStreamName :
    Nat → List UInt8 → Reader (List UInt8)
  | 0, _ => lift (.error (.panic .OutOfRounds))
  | rounds + 1, name => do
      let chunk ← need .BadMetadataRoot fun c => Cursor.take c 4
      match chunk.findIdx? (· == 0) with
      | some nul =>
          let front ← lift (sliceAt chunk 0 nul)
          return name ++ front
      | none =>
          if 32 < (name ++ chunk).length then
            lift (refuseWith .BadMetadataRoot)
          else
            readStreamName rounds (name ++ chunk)

/- A name is given up after nine rounds. -/
def nameRounds : Nat := 9

/- The regions found so far. -/
structure Streams where
  strings : Option (List UInt8)
  blobs : Option (List UInt8)
  guids : Option (List UInt8)
  tilde : Option (List UInt8)
  deriving DecidableEq, Repr

def Streams.none : Streams := ⟨.none, .none, .none, .none⟩

/- "#Strings", "#Blob", "#GUID" and "#~". -/
def stringsName : List UInt8 :=
  [0x23, 0x53, 0x74, 0x72, 0x69, 0x6E, 0x67, 0x73]
def blobName : List UInt8 := [0x23, 0x42, 0x6C, 0x6F, 0x62]
def guidName : List UInt8 := [0x23, 0x47, 0x55, 0x49, 0x44]
def tildeName : List UInt8 := [0x23, 0x7E]

/- A later stream of a name takes the place of an earlier one. -/
def Streams.put
    (streams : Streams)
    (name region : List UInt8) :
    Streams :=
  if name = stringsName then
    { streams with strings := some region }
  else if name = blobName then
    { streams with blobs := some region }
  else if name = guidName then
    { streams with guids := some region }
  else if name = tildeName then
    { streams with tilde := some region }
  else
    streams

def readStream
    (w : PointerWidth)
    (metadata : List UInt8) :
    Reader (List UInt8 × List UInt8) := do
  let streamOffset ← need .BadMetadataRoot Cursor.readU32
  let streamSize ← need .BadMetadataRoot Cursor.readU32
  let name ← readStreamName nameRounds []
  let streamEnd ← lift (orFail .BadMetadataRoot
    (checkedAdd w.usizeMax streamOffset.toNat streamSize.toNat))
  let region ← lift (orFail .BadMetadataRoot
    (slice metadata streamOffset.toNat streamEnd))
  return (name, region)

def readStreams
    (w : PointerWidth)
    (metadata : List UInt8) :
    Nat → Streams → Reader Streams
  | 0, streams => return streams
  | n + 1, streams => do
      let found ← readStream w metadata
      readStreams w metadata n (streams.put found.1 found.2)

/- The metadata root and its streams. -/
def readRoot
    (w : PointerWidth)
    (metadata : List UInt8) :
    Reader Streams := do
  let signature ← need .BadMetadataRoot Cursor.readU32
  if signature ≠ METADATA_SIGNATURE then
    lift (refuseWith .BadMetadataRoot)
  else
    skip .BadMetadataRoot (2 + 2 + 4)
    let versionLen ← need .BadMetadataRoot Cursor.readU32
    let versionEnd ← lift (orFail .BadMetadataRoot
      (checkedAdd w.usizeMax versionLen.toNat 3))
    -- `& !3`
    skip .BadMetadataRoot (versionEnd - versionEnd % 4)
    skip .BadMetadataRoot 2
    let streamCount ← need .BadMetadataRoot Cursor.readU16
    readStreams w metadata streamCount.toNat Streams.none

structure HeapSizes where
  wideStrings : Bool
  wideGuid : Bool
  wideBlob : Bool
  deriving DecidableEq, Repr

abbrev TableId := Fin 64

/- The row counts of the tables in the bitmap, in order. -/
def readRows
    (valid : UInt64) :
    List TableId → Reader (TableId → UInt32)
  | [] => return fun _ => 0
  | t :: rest => do
      if valid &&& (1 <<< UInt64.ofNat t.val) ≠ 0 then
        let count ← need .BadMetadataRoot Cursor.readU32
        let rows ← readRows valid rest
        return Function.update rows t count
      else
        readRows valid rest

/- The header of the table stream, up to its rows. -/
structure TableHeader where
  heapSizes : HeapSizes
  rows : TableId → UInt32
  rowsAt : Nat

def readTableHeader : Reader TableHeader := do
  skip .BadMetadataRoot (4 + 1 + 1)
  let heapSizesByte ← need .BadMetadataRoot Cursor.readU8
  if heapSizesByte &&& 0x40 ≠ 0 then
    lift (refuseWith .UnsupportedTableStream)
  else
    skip .BadMetadataRoot 1
    let valid ← need .BadMetadataRoot Cursor.readU64
    skip .BadMetadataRoot 8
    let rows ← readRows valid (List.finRange 64)
    let rowsAt ← position
    return {
      heapSizes := {
        wideStrings := heapSizesByte &&& 0x01 != 0
        wideGuid := heapSizesByte &&& 0x02 != 0
        wideBlob := heapSizesByte &&& 0x04 != 0
      }
      rows
      rowsAt
    }

structure MetadataFile where
  image : List UInt8
  strings : List UInt8
  blobs : List UInt8
  guids : List UInt8
  tables : List UInt8
  rows : TableId → UInt32
  heapSizes : HeapSizes
  sections : List «Section»
  resourcesRva : UInt32
  resourcesSize : UInt32

namespace MetadataFile

/- From the streams on. -/
def ofStreams
    (image : List UInt8)
    (sections : List «Section»)
    (cli : CliHeader)
    (streams : Streams) :
    Run Error MetadataFile := do
  let tilde ← orFail (.MissingHeap "#~") streams.tilde
  let header ← readAt tilde 0 readTableHeader
  let tables ← orFail .BadMetadataRoot (sliceFrom tilde header.rowsAt)
  let strings ← orFail (.MissingHeap "#Strings") streams.strings
  let blobs ← orFail (.MissingHeap "#Blob") streams.blobs
  let guids ← orFail (.MissingHeap "#GUID") streams.guids
  return {
    image
    strings
    blobs
    guids
    tables
    rows := header.rows
    heapSizes := header.heapSizes
    sections
    resourcesRva := cli.resourcesRva
    resourcesSize := cli.resourcesSize
  }

def read
    (w : PointerWidth)
    (image : List UInt8) :
    Run Error MetadataFile := do
  let pe ← readPe image
  let found ← readCliRva w image pe
  let sections ← readAt image found.2 (times readSection pe.numSections)
  let backed ← rvaToSlice image sections found.1
  let cliRegion ← orFail .UnreadableCliHeader backed
  let cli ← readAt cliRegion 0 readCliHeader
  let backed ← rvaToSlice image sections cli.metadataRva
  let mdRegion ← orFail .BadMetadataRoot backed
  let metadata ← orFail .BadMetadataRoot
    (slice mdRegion 0 cli.metadataSize.toNat)
  let streams ← readAt metadata 0 (readRoot w metadata)
  ofStreams image sections cli streams

/- `string_at`: the bytes up to the zero, when they are UTF-8. -/
def stringAt
    (md : MetadataFile)
    (offset : UInt32) :
    Run Error (List UInt8) := do
  let rest ← orFail .HeapOffsetOutOfRange (sliceFrom md.strings offset.toNat)
  let stop ← orFail .HeapOffsetOutOfRange (rest.findIdx? (· == 0))
  let bytes ← sliceAt rest 0 stop
  if ByteArray.validateUTF8 ⟨bytes.toArray⟩ then
    return bytes
  else
    refuseWith .HeapOffsetOutOfRange

/- `blob_at`. -/
def blobAt
    (w : PointerWidth)
    (md : MetadataFile)
    (offset : UInt32) :
    Run Error (List UInt8) := do
  let rest ← orFail .HeapOffsetOutOfRange (sliceFrom md.blobs offset.toNat)
  let r ← orFail .HeapOffsetOutOfRange (readCompressedU32 rest)
  let stop ← orFail .HeapOffsetOutOfRange (checkedAdd w.usizeMax r.2 r.1)
  orFail .HeapOffsetOutOfRange (slice rest r.2 stop)

/- `guid_at`.  The copy needs a slice of just sixteen bytes. -/
def guidAt
    (w : PointerWidth)
    (md : MetadataFile)
    (index : UInt32) :
    Run Error (List UInt8) := do
  if index = 0 then
    refuseWith .HeapOffsetOutOfRange
  else
    let before ← sub index.toNat 1
    let start ← orFail .HeapOffsetOutOfRange
      (checkedMul w.usizeMax before 16)
    let stop ← orFail .HeapOffsetOutOfRange (checkedAdd w.usizeMax start 16)
    let bytes ← orFail .HeapOffsetOutOfRange (slice md.guids start stop)
    if bytes.length = 16 then
      return bytes
    else
      .error (.panic .SliceOutOfRange)

end MetadataFile

end Assembly

end Borzoi
