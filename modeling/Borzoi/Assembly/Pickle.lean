import Borzoi.Assembly.Metadata
import Borzoi.Program.ExactReader

/-
  The primitives of the pickle reader.

  The primitives are built on one another, and none of them restores the
  position: one that reads several parts and fails at a later one stays
  behind the earlier ones.  A failure leaves the position only at the end
  of the stream, except for the primitives that read one run of bytes.

  Main declarations:
    * `readUint32`
    * `Primitive`
    * `Primitive.read`
    * `Primitive.Encodes`
    * `primitive_atomic_iff`
-/

namespace Borzoi

namespace Assembly

namespace Pickle

open ExactReader

/- The tables of the second phase, once they are attached. -/
structure Tables where
  strings : Option (List String)
  pubpaths : Option (List (List Nat))

abbrev PickleReader := Source UInt8 Tables

inductive ImportError
  | UnexpectedEndOfStream (context : String)
  | UnsupportedPickleTag (context : String) (tag : Nat)
  | MalformedPickleHeader (detail : String)
  | DanglingPickleRef (kind : String) (index : Nat)
  deriving DecidableEq, Repr

abbrev Read := Scanner UInt8 Tables ImportError

/- The text of a string, where the bytes are one. -/
def stringOf
    (bytes : List UInt8) :
    Option String :=
  String.fromUTF8? ⟨bytes.toArray⟩

def readByte
    (context : String) :
    Read UInt8 :=
  Scanner.of fun r =>
    if h : r.pos < r.data.length then
      (.ok (r.data[r.pos]), r.skip 1 h)
    else
      (.error (.UnexpectedEndOfStream context), r)

def readBytes
    (n : Nat)
    (context : String) :
    Read (List UInt8) :=
  Scanner.of fun r =>
    if h : r.pos + n ≤ r.data.length then
      (.ok (r.unread.take n), r.skip n h)
    else
      (.error (.UnexpectedEndOfStream context), r)

def readUint32
    (context : String) :
    Read Nat := do
  let b0 ← readByte context
  if b0 ≤ 0x7F then
    return b0.toNat
  else if b0 ≤ 0xBF then
    let b1 ← readByte context
    return (b0 &&& 0x7F).toNat <<< 8 ||| b1.toNat
  else if b0 = 0xFF then
    let raw ← readBytes 4 context
    return fromLeBytes raw
  else
    throw (.UnsupportedPickleTag context b0.toNat)

/- `v as i32`. -/
def asI32
    (v : Nat) :
    Int :=
  (BitVec.ofNat 32 v).toInt

def readInt32
    (context : String) :
    Read Int := do
  let v ← readUint32 context
  return asI32 v

/- Two words as an `i64`, the low one first. -/
def joinWords
    (lo hi : Nat) :
    Int :=
  (BitVec.ofNat 64 hi <<< 32 ||| BitVec.ofNat 64 lo).toInt

def readInt64
    (context : String) :
    Read Int := do
  let lo ← readUint32 context
  let hi ← readUint32 context
  return joinWords lo hi

def readBool
    (context : String) :
    Read Bool := do
  let b ← readByte context
  if b = 0 then
    return false
  else if b = 1 then
    return true
  else
    throw (.UnsupportedPickleTag context b.toNat)

/- What the standard library says of bytes that are no text. -/
variable (describe : List UInt8 → String)

def readStringRaw
    (context : String) :
    Read String := do
  let len ← readUint32 context
  let bytes ← readBytes len context
  match stringOf bytes with
  | some text => return text
  | none =>
      throw (.MalformedPickleHeader
        ("invalid UTF-8 in " ++ context ++ ": " ++ describe bytes))

def readByteMemory
    (context : String) :
    Read (List UInt8) := do
  let len ← readUint32 context
  readBytes len context

def readUint32Le
    (context : String) :
    Read Nat := do
  let raw ← readBytes 4 context
  return fromLeBytes raw

/- An index into a table, and what is there. -/
def readEntry
    {α : Type}
    (table : Tables → Option (List α))
    (name kind context : String) :
    Read (Nat × α) := do
  let idx ← readUint32 context
  let tables ← Scanner.env
  match table tables with
  | none =>
      throw (.MalformedPickleHeader
        (context ++ ": " ++ name ++ " table not attached"))
  | some entries =>
      match entries[idx]? with
      | none => throw (.DanglingPickleRef kind idx)
      | some entry => return (idx, entry)

def readString
    (context : String) :
    Read String := do
  let entry ← readEntry Tables.strings "strings" "string" context
  return entry.2

def readStringIndex
    (context : String) :
    Read Nat := do
  let entry ← readEntry Tables.strings "strings" "string" context
  return entry.1

def readPubpath
    (context : String) :
    Read (List Nat) := do
  let entry ← readEntry Tables.pubpaths "pubpaths" "pubpath" context
  return entry.2

/- The three forms of a compressed word. -/
inductive Uint32Form : List UInt8 → Nat → Prop
  | one (b : UInt8) (hb : b ≤ 0x7F) :
      Uint32Form [b] b.toNat
  | two (b0 b1 : UInt8) (hLow : ¬ b0 ≤ 0x7F) (hHigh : b0 ≤ 0xBF) :
      Uint32Form [b0, b1] ((b0 &&& 0x7F).toNat <<< 8 ||| b1.toNat)
  | marked (raw : List UInt8) (hRaw : raw.length = 4) :
      Uint32Form (0xFF :: raw) (fromLeBytes raw)

inductive Primitive
  | ReadByte
  | ReadBytes (n : Nat)
  | ReadUint32
  | ReadInt32
  | ReadInt64
  | ReadBool
  | ReadStringRaw
  | ReadByteMemory
  | ReadString
  | ReadStringIndex
  | ReadPubpath
  | ReadUint32Le

namespace Primitive

def Result :
    Primitive → Type
  | ReadByte => UInt8
  | ReadBytes _ => List UInt8
  | ReadUint32 => Nat
  | ReadInt32 => Int
  | ReadInt64 => Int
  | ReadBool => Bool
  | ReadStringRaw => String
  | ReadByteMemory => List UInt8
  | ReadString => String
  | ReadStringIndex => Nat
  | ReadPubpath => List Nat
  | ReadUint32Le => Nat

def read
    (context : String) :
    (p : Primitive) → Read p.Result
  | ReadByte => readByte context
  | ReadBytes n => readBytes n context
  | ReadUint32 => readUint32 context
  | ReadInt32 => readInt32 context
  | ReadInt64 => readInt64 context
  | ReadBool => readBool context
  | ReadStringRaw => readStringRaw describe context
  | ReadByteMemory => readByteMemory context
  | ReadString => readString context
  | ReadStringIndex => readStringIndex context
  | ReadPubpath => readPubpath context
  | ReadUint32Le => readUint32Le context

/- The encodings a primitive is for: the bytes it takes, and the value. -/
def Encodes :
    (p : Primitive) → Encoding UInt8 Tables p.Result
  | ReadByte => fun _ bytes (b : UInt8) => bytes = [b]
  | ReadBytes n => fun _ bytes (body : List UInt8) =>
      bytes = body ∧ body.length = n
  | ReadUint32 => fun _ bytes (v : Nat) => Uint32Form bytes v
  | ReadInt32 => fun _ bytes (v : Int) =>
      ∃ word, Uint32Form bytes word ∧ v = asI32 word
  | ReadInt64 => fun _ bytes (v : Int) =>
      ∃ front lo back hi, bytes = front ++ back ∧ Uint32Form front lo ∧
        Uint32Form back hi ∧ v = joinWords lo hi
  | ReadBool => fun _ bytes (b : Bool) =>
      bytes = [0] ∧ b = false ∨ bytes = [1] ∧ b = true
  | ReadStringRaw => fun _ bytes (text : String) =>
      ∃ front body, bytes = front ++ body ∧
        Uint32Form front body.length ∧ stringOf body = some text
  | ReadByteMemory => fun _ bytes (body : List UInt8) =>
      ∃ front, bytes = front ++ body ∧ Uint32Form front body.length
  | ReadString => fun tables bytes (text : String) =>
      ∃ idx strings, Uint32Form bytes idx ∧
        tables.strings = some strings ∧ strings[idx]? = some text
  | ReadStringIndex => fun tables bytes (idx : Nat) =>
      ∃ strings, Uint32Form bytes idx ∧
        tables.strings = some strings ∧ idx < strings.length
  | ReadPubpath => fun tables bytes (path : List Nat) =>
      ∃ idx pubpaths, Uint32Form bytes idx ∧
        tables.pubpaths = some pubpaths ∧ pubpaths[idx]? = some path
  | ReadUint32Le => fun _ bytes (v : Nat) =>
      bytes.length = 4 ∧ v = fromLeBytes bytes

/- The primitives that read one run of bytes. -/
def IsSingle :
    Primitive → Prop
  | ReadByte => True
  | ReadBytes _ => True
  | ReadUint32Le => True
  | _ => False

end Primitive

section Single

variable (context : String)

theorem readByte_exact :
    Exact (readByte context) (Primitive.Encodes .ReadByte) where
  complete := by
    rintro s front b rfl hFront
    rcases hFront with ⟨rest, hRest⟩
    have hUnread : s.unread = b :: rest := hRest.symm
    have hAt : s.data[s.pos]? = some b := by
      rw [Source.unread] at hUnread
      rw [← List.head?_drop, hUnread]
      rfl
    rcases List.getElem?_eq_some_iff.1 hAt with ⟨hIn, hByte⟩
    refine ⟨s.skip 1 hIn, ?_, Source.advanced_skip s 1 hIn⟩
    unfold readByte
    rw [Scanner.run_of, dif_pos hIn, hByte]
  sound := by
    intro s s' b hRun
    unfold readByte at hRun
    rw [Scanner.run_of] at hRun
    split at hRun
    next hIn =>
      cases hRun
      refine ⟨_, rfl, ?_, Source.advanced_skip s 1 hIn⟩
      rw [Source.unread, List.drop_eq_getElem_cons hIn]
      exact ⟨_, rfl⟩
    next => cases hRun
  forward := by
    intro s s' e hRun
    unfold readByte at hRun
    rw [Scanner.run_of] at hRun
    split at hRun
    next => cases hRun
    next =>
      cases hRun
      exact Nat.le_refl _

theorem readByte_tight :
    Tight (readByte context) := by
  intro s s' e hRun
  unfold readByte at hRun
  rw [Scanner.run_of] at hRun
  split at hRun
  next => cases hRun
  next =>
    cases hRun
    rfl

/- A byte is missing only at the end. -/
theorem readByte_loose :
    Loose (readByte context) := by
  intro s s' e hRun
  have hPos := readByte_tight context s s' e hRun
  unfold readByte at hRun
  rw [Scanner.run_of] at hRun
  split at hRun
  next => cases hRun
  next hEnd =>
    have hUnread : s.unread = [] :=
      List.drop_eq_nil_of_le (Nat.le_of_not_lt hEnd)
    rw [if_pos hUnread]
    exact hPos

theorem readBytes_exact
    (n : Nat) :
    Exact (readBytes n context) (Primitive.Encodes (.ReadBytes n)) where
  complete := by
    rintro s front body ⟨rfl, hLength⟩ hFront
    have hLe := hFront.length_le
    rw [Source.length_unread] at hLe
    have hBounds := s.inBounds
    have hIn : s.pos + n ≤ s.data.length := by omega
    have hTake : s.unread.take n = front := by
      rw [← hLength]
      exact (List.prefix_iff_eq_take.1 hFront).symm
    refine ⟨s.skip n hIn, ?_, ?_⟩
    · unfold readBytes
      rw [Scanner.run_of, dif_pos hIn, hTake]
    · rw [hLength]
      exact Source.advanced_skip s n hIn
  sound := by
    intro s s' body hRun
    unfold readBytes at hRun
    rw [Scanner.run_of] at hRun
    split at hRun
    next hIn =>
      cases hRun
      have hLength : (s.unread.take n).length = n := by
        rw [List.length_take, Source.length_unread]
        omega
      refine ⟨_, ⟨rfl, hLength⟩, List.take_prefix n _, ?_⟩
      rw [hLength]
      exact Source.advanced_skip s n hIn
    next => cases hRun
  forward := by
    intro s s' e hRun
    unfold readBytes at hRun
    rw [Scanner.run_of] at hRun
    split at hRun
    next => cases hRun
    next =>
      cases hRun
      exact Nat.le_refl _

theorem readBytes_tight
    (n : Nat) :
    Tight (readBytes n context) := by
  intro s s' e hRun
  unfold readBytes at hRun
  rw [Scanner.run_of] at hRun
  split at hRun
  next => cases hRun
  next =>
    cases hRun
    rfl

theorem readUint32Le_exact :
    Exact (readUint32Le context) (Primitive.Encodes .ReadUint32Le) := by
  apply ((readBytes_exact context 4).bind
    fun raw => Exact.pure (fromLeBytes raw)).congr
  intro t bytes v
  constructor
  · rintro ⟨hLength, rfl⟩
    exact ⟨bytes, bytes, [], (List.append_nil bytes).symm, ⟨rfl, hLength⟩,
      rfl, rfl⟩
  · rintro ⟨front, raw, back, rfl, ⟨rfl, hLength⟩, rfl, rfl⟩
    rw [List.append_nil]
    exact ⟨hLength, rfl⟩

end Single

------------------------------------------------------------
-- Composites
------------------------------------------------------------

section Composite

variable (context : String)

theorem Uint32Form.nonempty
    {bytes : List UInt8}
    {v : Nat}
    (hForm : Uint32Form bytes v) :
    bytes ≠ [] := by
  cases hForm <;> exact List.cons_ne_nil _ _

/- What stands behind the first byte of a word. -/
def wordTail
    (b0 : UInt8) :
    Encoding UInt8 Tables Nat :=
  fun _ bytes v => Uint32Form (b0 :: bytes) v

/- The part of a word behind its first byte. -/
theorem wordTail_exact
    (b0 : UInt8) :
    Exact
      (if b0 ≤ 0x7F then
        return b0.toNat
      else if b0 ≤ 0xBF then do
        let b1 ← readByte context
        return (b0 &&& 0x7F).toNat <<< 8 ||| b1.toNat
      else if b0 = 0xFF then do
        let raw ← readBytes 4 context
        return fromLeBytes raw
      else
        throw (.UnsupportedPickleTag context b0.toNat) : Read Nat)
      (wordTail b0) := by
  have hMark : ¬ (0xFF : UInt8) ≤ 0xBF := by decide
  have hMark' : ¬ (0xFF : UInt8) ≤ 0x7F := by decide
  by_cases hOne : b0 ≤ 0x7F
  · rw [if_pos hOne]
    apply (Exact.pure b0.toNat).congr
    intro t bytes v
    constructor
    · intro hForm
      cases hForm with
      | one _ _ => exact ⟨rfl, rfl⟩
      | two _ b1 hLow _ => exact absurd hOne hLow
      | marked _ _ => exact absurd hOne hMark'
    · rintro ⟨rfl, rfl⟩
      exact .one b0 hOne
  · rw [if_neg hOne]
    by_cases hTwo : b0 ≤ 0xBF
    · rw [if_pos hTwo]
      apply ((readByte_exact context).bind fun b1 => Exact.pure
        ((b0 &&& 0x7F).toNat <<< 8 ||| b1.toNat)).congr
      intro t bytes v
      constructor
      · intro hForm
        cases hForm with
        | one _ hLow => exact absurd hLow hOne
        | two _ b1 _ _ => exact ⟨[b1], b1, [], rfl, rfl, rfl, rfl⟩
        | marked _ _ => exact absurd hTwo hMark
      · rintro ⟨front, b1, back, rfl, rfl, rfl, rfl⟩
        exact .two b0 b1 hOne hTwo
    · rw [if_neg hTwo]
      by_cases hFull : b0 = 0xFF
      · rw [if_pos hFull]
        apply ((readBytes_exact context 4).bind
          fun raw => Exact.pure (fromLeBytes raw)).congr
        intro t bytes v
        constructor
        · intro hForm
          cases hForm with
          | one _ hLow => exact absurd hLow hOne
          | two _ _ _ hHigh => exact absurd hHigh hTwo
          | marked _ hRaw =>
              exact ⟨bytes, bytes, [], (List.append_nil bytes).symm,
                ⟨rfl, hRaw⟩, rfl, rfl⟩
        · rintro ⟨front, raw, back, rfl, ⟨rfl, hLength⟩, rfl, rfl⟩
          rw [List.append_nil, wordTail, hFull]
          exact .marked front hLength
      · rw [if_neg hFull]
        apply (Exact.throw _).congr
        intro t bytes v
        constructor
        · intro hForm
          cases hForm with
          | one _ hLow => exact hOne hLow
          | two _ _ _ hHigh => exact hTwo hHigh
          | marked _ _ => exact hFull rfl
        · exact False.elim

theorem readUint32_exact :
    Exact (readUint32 context) (Primitive.Encodes .ReadUint32) := by
  apply ((readByte_exact context).bind (wordTail_exact context)).congr
  intro t bytes v
  constructor
  · intro hForm
    cases bytes with
    | nil => exact absurd rfl (Uint32Form.nonempty hForm)
    | cons b0 rest => exact ⟨[b0], b0, rest, rfl, rfl, hForm⟩
  · rintro ⟨front, b0, back, rfl, rfl, hForm⟩
    exact hForm

theorem readUint32_loose :
    Loose (readUint32 context) := by
  apply Loose.bind (readByte_exact context) (wordTail_exact context) ?_
    (readByte_loose context)
  rintro t front b rfl
  exact List.cons_ne_nil b []

/- A reader that starts with a word is loose. -/
theorem word_loose
    {α : Type}
    {f : Nat → Read α}
    {F : Nat → Encoding UInt8 Tables α}
    (hRest : ∀ v, Exact (f v) (F v)) :
    Loose (readUint32 context >>= f) :=
  (readUint32_loose context).bind (readUint32_exact context) hRest
    fun _ _ _ hForm => Uint32Form.nonempty hForm

theorem readInt32_exact :
    Exact (readInt32 context) (Primitive.Encodes .ReadInt32) := by
  apply ((readUint32_exact context).bind fun v => Exact.pure (asI32 v)).congr
  intro t bytes x
  constructor
  · rintro ⟨word, hForm, rfl⟩
    exact ⟨bytes, word, [], (List.append_nil bytes).symm, hForm, rfl, rfl⟩
  · rintro ⟨front, word, back, rfl, hForm, rfl, rfl⟩
    rw [List.append_nil]
    exact ⟨word, hForm, rfl⟩

theorem readInt32_loose :
    Loose (readInt32 context) :=
  word_loose context fun v => Exact.pure (asI32 v)

theorem readInt64_second
    (lo : Nat) :
    Exact (do let hi ← readUint32 context; return joinWords lo hi)
      (fun _ bytes v => ∃ hi, Uint32Form bytes hi ∧ v = joinWords lo hi) := by
  apply ((readUint32_exact context).bind
    fun hi => Exact.pure (joinWords lo hi)).congr
  intro t bytes x
  constructor
  · rintro ⟨word, hForm, rfl⟩
    exact ⟨bytes, word, [], (List.append_nil bytes).symm, hForm, rfl, rfl⟩
  · rintro ⟨front, word, back, rfl, hForm, rfl, rfl⟩
    rw [List.append_nil]
    exact ⟨word, hForm, rfl⟩

theorem readInt64_exact :
    Exact (readInt64 context) (Primitive.Encodes .ReadInt64) := by
  apply ((readUint32_exact context).bind (readInt64_second context)).congr
  intro t bytes x
  constructor
  · rintro ⟨front, lo, back, hi, rfl, hFront, hBack, rfl⟩
    exact ⟨front, lo, back, rfl, hFront, hi, hBack, rfl⟩
  · rintro ⟨front, lo, back, rfl, hFront, hi, hBack, rfl⟩
    exact ⟨front, lo, back, hi, rfl, hFront, hBack, rfl⟩

theorem readInt64_loose :
    Loose (readInt64 context) :=
  word_loose context (readInt64_second context)

theorem readBool_tail
    (b : UInt8) :
    Exact
      (if b = 0 then
        return false
      else if b = 1 then
        return true
      else
        throw (.UnsupportedPickleTag context b.toNat) : Read Bool)
      (fun _ bytes x =>
        bytes = [] ∧ (b = 0 ∧ x = false ∨ b = 1 ∧ x = true)) := by
  by_cases hZero : b = 0
  · rw [if_pos hZero]
    apply (Exact.pure false).congr
    intro t bytes x
    simp [hZero]
  · rw [if_neg hZero]
    by_cases hOne : b = 1
    · rw [if_pos hOne]
      apply (Exact.pure true).congr
      intro t bytes x
      simp [hOne]
    · rw [if_neg hOne]
      apply (Exact.throw _).congr
      intro t bytes x
      simp [hZero, hOne]

theorem readBool_exact :
    Exact (readBool context) (Primitive.Encodes .ReadBool) := by
  apply ((readByte_exact context).bind (readBool_tail context)).congr
  intro t bytes x
  constructor
  · rintro (⟨rfl, rfl⟩ | ⟨rfl, rfl⟩)
    · exact ⟨[0], 0, [], rfl, rfl, rfl, Or.inl ⟨rfl, rfl⟩⟩
    · exact ⟨[1], 1, [], rfl, rfl, rfl, Or.inr ⟨rfl, rfl⟩⟩
  · rintro ⟨front, b, back, rfl, rfl, rfl, ⟨rfl, rfl⟩ | ⟨rfl, rfl⟩⟩
    · exact Or.inl ⟨rfl, rfl⟩
    · exact Or.inr ⟨rfl, rfl⟩

theorem readBool_loose :
    Loose (readBool context) := by
  apply Loose.bind (readByte_exact context) (readBool_tail context) ?_
    (readByte_loose context)
  rintro t front b rfl
  exact List.cons_ne_nil b []

theorem readByteMemory_exact :
    Exact (readByteMemory context) (Primitive.Encodes .ReadByteMemory) := by
  apply ((readUint32_exact context).bind (readBytes_exact context)).congr
  intro t bytes body
  constructor
  · rintro ⟨front, rfl, hForm⟩
    exact ⟨front, body.length, body, rfl, hForm, rfl, rfl⟩
  · rintro ⟨front, len, back, rfl, hForm, rfl, rfl⟩
    exact ⟨front, rfl, hForm⟩

theorem readByteMemory_loose :
    Loose (readByteMemory context) :=
  word_loose context (readBytes_exact context)

/- The text of bytes that were read. -/
theorem decode_exact
    (bytes : List UInt8) :
    Exact
      (match stringOf bytes with
      | some text => return text
      | none =>
          throw (.MalformedPickleHeader
            ("invalid UTF-8 in " ++ context ++ ": " ++ describe bytes)) :
        Read String)
      (fun _ front text => front = [] ∧ stringOf bytes = some text) := by
  cases hText : stringOf bytes with
  | none =>
      apply (Exact.throw _).congr
      intro t front text
      simp
  | some text =>
      apply (Exact.pure text).congr
      intro t front other
      simp [eq_comm]

/- The bytes of a string behind their count. -/
theorem readStringRaw_body
    (len : Nat) :
    Exact
      (do
        let bytes ← readBytes len context
        match stringOf bytes with
        | some text => return text
        | none =>
            throw (.MalformedPickleHeader
              ("invalid UTF-8 in " ++ context ++ ": " ++ describe bytes)) :
        Read String)
      (fun _ bytes text => bytes.length = len ∧ stringOf bytes = some text) := by
  apply ((readBytes_exact context len).bind
    (decode_exact describe context)).congr
  intro t bytes text
  constructor
  · rintro ⟨hLength, hText⟩
    exact ⟨bytes, bytes, [], (List.append_nil bytes).symm, ⟨rfl, hLength⟩,
      rfl, hText⟩
  · rintro ⟨front, body, back, rfl, ⟨rfl, hLength⟩, rfl, hText⟩
    rw [List.append_nil]
    exact ⟨hLength, hText⟩

theorem readStringRaw_exact :
    Exact (readStringRaw describe context)
      (Primitive.Encodes .ReadStringRaw) := by
  apply ((readUint32_exact context).bind
    (readStringRaw_body describe context)).congr
  intro t bytes text
  constructor
  · rintro ⟨front, body, rfl, hForm, hText⟩
    exact ⟨front, body.length, body, rfl, hForm, rfl, hText⟩
  · rintro ⟨front, len, body, rfl, hForm, rfl, hText⟩
    exact ⟨front, body, rfl, hForm, hText⟩

theorem readStringRaw_loose :
    Loose (readStringRaw describe context) :=
  word_loose context (readStringRaw_body describe context)

section Entries

variable {α : Type} (table : Tables → Option (List α)) (name kind : String)

/- What stands at an index in a table. -/
def EntryAt
    (idx : Nat) :
    Encoding UInt8 Tables (Nat × α) :=
  fun tables bytes entry => bytes = [] ∧ entry.1 = idx ∧
    ∃ entries, table tables = some entries ∧ entries[idx]? = some entry.2

theorem lookup_exact
    (idx : Nat)
    (tables : Tables) :
    Exact
      (match table tables with
      | none =>
          throw (.MalformedPickleHeader
            (context ++ ": " ++ name ++ " table not attached"))
      | some entries =>
          match entries[idx]? with
          | none => throw (.DanglingPickleRef kind idx)
          | some entry => return (idx, entry) : Read (Nat × α))
      (fun _ bytes entry => bytes = [] ∧ entry.1 = idx ∧
        ∃ entries, table tables = some entries ∧
          entries[idx]? = some entry.2) := by
  cases hTable : table tables with
  | none =>
      apply (Exact.throw _).congr
      intro t bytes entry
      simp
  | some entries =>
      cases hEntry : entries[idx]? with
      | none =>
          simp only [hEntry]
          apply (Exact.throw _).congr
          intro t bytes entry
          simp [hEntry]
      | some found =>
          simp only [hEntry]
          apply (Exact.pure (idx, found)).congr
          rintro t bytes ⟨i, entry⟩
          simp [hEntry, eq_comm]

theorem entryTail_exact
    (idx : Nat) :
    Exact
      (do
        let tables ← Scanner.env
        match table tables with
        | none =>
            throw (.MalformedPickleHeader
              (context ++ ": " ++ name ++ " table not attached"))
        | some entries =>
            match entries[idx]? with
            | none => throw (.DanglingPickleRef kind idx)
            | some entry => return (idx, entry) : Read (Nat × α))
      (EntryAt table idx) := by
  apply (Exact.env.bind fun tables =>
    lookup_exact context table name kind idx tables).congr
  intro t bytes entry
  constructor
  · rintro ⟨rfl, hIndex, hEntry⟩
    exact ⟨[], t, [], rfl, ⟨rfl, rfl⟩, rfl, hIndex, hEntry⟩
  · rintro ⟨front, tables, back, rfl, ⟨rfl, rfl⟩, rfl, hIndex, hEntry⟩
    exact ⟨rfl, hIndex, hEntry⟩

theorem readEntry_exact :
    Exact (readEntry table name kind context)
      (fun tables bytes entry => Uint32Form bytes entry.1 ∧
        ∃ entries, table tables = some entries ∧
          entries[entry.1]? = some entry.2) := by
  apply ((readUint32_exact context).bind
    (entryTail_exact context table name kind)).congr
  rintro t bytes ⟨idx, entry⟩
  constructor
  · rintro ⟨hForm, hEntry⟩
    exact ⟨bytes, idx, [], (List.append_nil bytes).symm, hForm, rfl, rfl,
      hEntry⟩
  · rintro ⟨front, i, back, rfl, hForm, rfl, hIndex, hEntry⟩
    have hSame : idx = i := hIndex
    rw [List.append_nil, hSame]
    exact ⟨hForm, hEntry⟩

theorem readEntry_loose :
    Loose (readEntry table name kind context) :=
  word_loose context (entryTail_exact context table name kind)

variable {β : Type}

/- A table entry and what is kept of it. -/
theorem readEntry_map_exact
    (g : Nat × α → β) :
    Exact (do let entry ← readEntry table name kind context; return g entry)
      (fun tables bytes x => ∃ entry, Uint32Form bytes entry.1 ∧
        (∃ entries, table tables = some entries ∧
          entries[entry.1]? = some entry.2) ∧ x = g entry) := by
  apply ((readEntry_exact context table name kind).bind
    fun entry => Exact.pure (g entry)).congr
  intro t bytes x
  constructor
  · rintro ⟨entry, hForm, hEntry, rfl⟩
    exact ⟨bytes, entry, [], (List.append_nil bytes).symm, ⟨hForm, hEntry⟩,
      rfl, rfl⟩
  · rintro ⟨front, entry, back, rfl, ⟨hForm, hEntry⟩, rfl, rfl⟩
    rw [List.append_nil]
    exact ⟨entry, hForm, hEntry, rfl⟩

theorem readEntry_map_loose
    (g : Nat × α → β) :
    Loose (do let entry ← readEntry table name kind context; return g entry) :=
  (readEntry_loose context table name kind).bind
    (readEntry_exact context table name kind)
    (fun entry => Exact.pure (g entry))
    fun _ _ _ hEntry => Uint32Form.nonempty hEntry.1

end Entries

theorem readString_exact :
    Exact (readString context) (Primitive.Encodes .ReadString) := by
  apply (readEntry_map_exact context Tables.strings "strings" "string"
    Prod.snd).congr
  intro t bytes text
  constructor
  · rintro ⟨idx, strings, hForm, hTable, hEntry⟩
    exact ⟨(idx, text), hForm, ⟨strings, hTable, hEntry⟩, rfl⟩
  · rintro ⟨⟨idx, entry⟩, hForm, ⟨strings, hTable, hEntry⟩, rfl⟩
    exact ⟨idx, strings, hForm, hTable, hEntry⟩

theorem readStringIndex_exact :
    Exact (readStringIndex context) (Primitive.Encodes .ReadStringIndex) := by
  apply (readEntry_map_exact context Tables.strings "strings" "string"
    Prod.fst).congr
  intro t bytes idx
  constructor
  · rintro ⟨strings, hForm, hTable, hIndex⟩
    exact ⟨(idx, strings.get ⟨idx, hIndex⟩), hForm,
      ⟨strings, hTable, List.getElem?_eq_getElem hIndex⟩, rfl⟩
  · rintro ⟨⟨i, entry⟩, hForm, ⟨strings, hTable, hEntry⟩, rfl⟩
    rcases List.getElem?_eq_some_iff.1 hEntry with ⟨hIndex, _⟩
    exact ⟨strings, hForm, hTable, hIndex⟩

theorem readPubpath_exact :
    Exact (readPubpath context) (Primitive.Encodes .ReadPubpath) := by
  apply (readEntry_map_exact context Tables.pubpaths "pubpaths" "pubpath"
    Prod.snd).congr
  intro t bytes path
  constructor
  · rintro ⟨idx, pubpaths, hForm, hTable, hEntry⟩
    exact ⟨(idx, path), hForm, ⟨pubpaths, hTable, hEntry⟩, rfl⟩
  · rintro ⟨⟨idx, entry⟩, hForm, ⟨pubpaths, hTable, hEntry⟩, rfl⟩
    exact ⟨idx, pubpaths, hForm, hTable, hEntry⟩

end Composite

/- Each primitive succeeds just where one of its encodings stands. -/
theorem primitive_exact
    (context : String)
    (p : Primitive) :
    Exact (p.read describe context) p.Encodes := by
  cases p with
  | ReadByte => exact readByte_exact context
  | ReadBytes n => exact readBytes_exact context n
  | ReadUint32 => exact readUint32_exact context
  | ReadInt32 => exact readInt32_exact context
  | ReadInt64 => exact readInt64_exact context
  | ReadBool => exact readBool_exact context
  | ReadStringRaw => exact readStringRaw_exact describe context
  | ReadByteMemory => exact readByteMemory_exact context
  | ReadString => exact readString_exact context
  | ReadStringIndex => exact readStringIndex_exact context
  | ReadPubpath => exact readPubpath_exact context
  | ReadUint32Le => exact readUint32Le_exact context

theorem primitive_tight
    (context : String)
    (p : Primitive)
    (hSingle : p.IsSingle) :
    Tight (p.read describe context) := by
  cases p with
  | ReadByte => exact readByte_tight context
  | ReadBytes n => exact readBytes_tight context n
  | ReadUint32Le => exact (readBytes_tight context 4).bind_pure
  | _ => exact hSingle.elim

theorem primitive_loose
    (context : String)
    (p : Primitive)
    (hSeveral : ¬ p.IsSingle) :
    Loose (p.read describe context) := by
  cases p with
  | ReadUint32 => exact readUint32_loose context
  | ReadInt32 => exact readInt32_loose context
  | ReadInt64 => exact readInt64_loose context
  | ReadBool => exact readBool_loose context
  | ReadStringRaw => exact readStringRaw_loose describe context
  | ReadByteMemory => exact readByteMemory_loose context
  | ReadString => exact readEntry_map_loose context Tables.strings _ _ _
  | ReadStringIndex => exact readEntry_map_loose context Tables.strings _ _ _
  | ReadPubpath => exact readEntry_map_loose context Tables.pubpaths _ _ _
  | _ => exact absurd trivial hSeveral

/- A primitive leaves the position on failure, and moves it past what it
   read on success, exactly when it reads one run of bytes, stands at the
   end, or has one of its encodings before it. -/
theorem primitive_atomic_iff
    (context : String)
    (p : Primitive)
    (r : PickleReader) :
    Atomic (p.read describe context) p.Encodes r ↔
      p.IsSingle ∨ r.unread = [] ∨
        ∃ front x, p.Encodes r.env front x ∧ front <+: r.unread := by
  by_cases hSingle : p.IsSingle
  · constructor
    · exact fun _ => Or.inl hSingle
    · intro _
      exact (primitive_exact describe context p).atomic
        (primitive_tight describe context p hSingle) r
  · rw [(primitive_exact describe context p).atomic_iff
      (primitive_loose describe context p hSingle) r]
    exact ⟨Or.inr, fun hEither => hEither.resolve_left hSingle⟩

/- The lead byte of a two-byte word at the end of the stream is read and
   not given back. -/
theorem read_uint32_not_atomic :
    ¬ ∀ (describe : List UInt8 → String) (context : String) (p : Primitive)
      (r : PickleReader), Atomic (p.read describe context) p.Encodes r := by
  intro hClaim
  have hAtomic := hClaim (fun _ => "") "t" .ReadUint32
    ⟨[0x80], 0, by decide, ⟨none, none⟩⟩
  have hPos : (1 : Nat) = 0 := hAtomic
  cases hPos

end Pickle

end Assembly

end Borzoi
