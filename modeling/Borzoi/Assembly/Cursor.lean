import Borzoi.Program.StepReader

/-
  The byte cursor of the metadata reader.

  A read past the end fails.  A compressed integer takes one, two or
  four bytes, told apart by the top bits of the first.
-/

namespace Borzoi

namespace Assembly

open Program

abbrev Cursor := Tape UInt8

namespace Cursor

def new
    (data : List UInt8) :
    Cursor :=
  ⟨data, 0⟩

/- Where the sum of the source overflows, it is past the end too. -/
def take
    (c : Cursor)
    (n : Nat) :
    Option (List UInt8 × Cursor) :=
  if c.pos + n ≤ c.data.length then
    some (c.unread.take n, c.skip n)
  else
    none

def readU8
    (c : Cursor) :
    Option (UInt8 × Cursor) :=
  match c.unread with
  | b :: _ => some (b, c.skip 1)
  | [] => none

def peekU8
    (c : Cursor) :
    Option UInt8 :=
  c.unread.head?

end Cursor

/- The value at the front of the data, and the bytes it takes. -/
def readCompressedU32
    (data : List UInt8) :
    Option (Nat × Nat) :=
  match data with
  | [] => none
  | b0 :: tail =>
      if b0 &&& 0x80 = 0 then
        some (b0.toNat, 1)
      else if b0 &&& 0xC0 = 0x80 then
        match tail with
        | b1 :: _ => some ((b0 &&& 0x3F).toNat <<< 8 ||| b1.toNat, 2)
        | _ => none
      else if b0 &&& 0xE0 = 0xC0 then
        match tail with
        | b1 :: b2 :: b3 :: _ =>
            some ((b0 &&& 0x1F).toNat <<< 24 ||| b1.toNat <<< 16 |||
              b2.toNat <<< 8 ||| b3.toNat, 4)
        | _ => none
      else
        none

/- The raw value of a signed integer, its bytes and its bits. -/
def readRotated
    (data : List UInt8) :
    Option (Nat × Nat × Nat) :=
  match data with
  | [] => none
  | b0 :: tail =>
      if b0 &&& 0x80 = 0 then
        some (b0.toNat, 1, 7)
      else if b0 &&& 0xC0 = 0x80 then
        match tail with
        | b1 :: _ => some ((b0 &&& 0x3F).toNat <<< 8 ||| b1.toNat, 2, 14)
        | _ => none
      else if b0 &&& 0xE0 = 0xC0 then
        match tail with
        | b1 :: b2 :: b3 :: _ =>
            some ((b0 &&& 0x1F).toNat <<< 24 ||| b1.toNat <<< 16 |||
              b2.toNat <<< 8 ||| b3.toNat, 4, 29)
        | _ => none
      else
        none

/-
  Undo the rotation of a field: its lowest bit is the sign.  The bit
  operations are those of `i32`.
-/
def unrotate
    (raw fieldBits : Nat) :
    Int :=
  let magnitude := BitVec.ofNat 32 (raw >>> 1)
  if raw &&& 1 = 0 then
    magnitude.toInt
  else
    (magnitude ||| ~~~(BitVec.ofNat 32 (1 <<< (fieldBits - 1)) - 1)).toInt

namespace Cursor

def readCompressedU32
    (c : Cursor) :
    Option (Nat × Cursor) :=
  match Assembly.readCompressedU32 c.unread with
  | some (value, consumed) => some (value, c.skip consumed)
  | none => none

def readCompressedI32
    (c : Cursor) :
    Option (Int × Cursor) :=
  match readRotated c.unread with
  | some (raw, consumed, fieldBits) =>
      some (unrotate raw fieldBits, c.skip consumed)
  | none => none

end Cursor

/- The largest compressed integer. -/
def maxCompressed : Nat := 0x1FFFFFFF

/- The two bytes of a 14-bit field, and the four of a 29-bit one. -/
def twoBytes
    (n : Nat) :
    List UInt8 :=
  [(0x80 : UInt8) ||| UInt8.ofNat (n >>> 8), UInt8.ofNat (n &&& 0xFF)]

def fourBytes
    (n : Nat) :
    List UInt8 :=
  [(0xC0 : UInt8) ||| UInt8.ofNat (n >>> 24), UInt8.ofNat (n >>> 16),
    UInt8.ofNat (n >>> 8), UInt8.ofNat (n &&& 0xFF)]

/- `compress_u32`, which panics above `maxCompressed`. -/
def compressU32
    (n : Nat) :
    List UInt8 :=
  if n ≤ 0x7F then
    [UInt8.ofNat n]
  else if n ≤ 0x3FFF then
    twoBytes n
  else if n ≤ maxCompressed then
    fourBytes n
  else
    []

/- The bits of `n as u32` below the sign of a field, and the sign. -/
def rotate
    (n : Int)
    (mask : Nat) :
    Nat :=
  ((BitVec.ofInt 32 n).toNat &&& mask) <<< 1 ||| (if n < 0 then 1 else 0)

/- `compress_signed`: the sign rotated into a field of 7, 14 or 29 bits. -/
def compressSigned
    (n : Int) :
    List UInt8 :=
  if -64 ≤ n ∧ n ≤ 63 then
    [UInt8.ofNat (rotate n 0x3F)]
  else if -8192 ≤ n ∧ n ≤ 8191 then
    twoBytes (rotate n 0x1FFF)
  else
    fourBytes (rotate n 0x0FFFFFFF)

end Assembly

end Borzoi
