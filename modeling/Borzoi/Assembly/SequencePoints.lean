import Borzoi.Assembly.Compressed
import Borzoi.Assembly.Metadata

/-
  The first sequence point of a method.

  A blob of a portable debug file is a header and records, each written
  as the differences from the ones before.  A record starts with the
  difference of its code offset; a zero there names a document instead,
  but for the first record.

  Main declarations:
    * `decodeFirstSequencePoint`
    * `Record`
    * `encodeSequencePoints`
    * `firstVisible`
    * `first_sequence_point`
-/

variable {c : Cursor}

namespace Borzoi

namespace Assembly

namespace Pdb

open Program

inductive PdbError
  | MalformedSequencePoints
deriving DecidableEq

/- An error, or a position past the machine's words. -/
inductive Fault
  | refused (e : PdbError)
  | overflow
deriving DecidableEq

structure SequencePoint where
  document : Nat
  startLine : Nat
  startColumn : Nat
deriving DecidableEq

variable (w : PointerWidth)

/- `c.read_compressed_u32().ok_or_else(err)?`. -/
def readU32 :
    Step UInt8 Fault Nat :=
  fun c =>
    match Cursor.readCompressedU32 c with
    | some (value, c') =>
        if c'.pos ≤ w.usizeMax then
          .ok (value, c')
        else
          .error .overflow
    | none => .error (.refused .MalformedSequencePoints)

def readI32 :
    Step UInt8 Fault Int :=
  fun c =>
    match Cursor.readCompressedI32 c with
    | some (value, c') =>
        if c'.pos ≤ w.usizeMax then
          .ok (value, c')
        else
          .error .overflow
    | none => .error (.refused .MalformedSequencePoints)

structure LoopState where
  currentDocument : Nat
  firstRecord : Bool
deriving DecidableEq

/- How a turn of the loop ends. -/
inductive Turn
  | next (s : LoopState)
  | found (point : SequencePoint)

def malformed :
    Step UInt8 Fault Turn :=
  fun _ => .error (.refused .MalformedSequencePoints)

/- The columns of a record: whether it is hidden. -/
def readHidden
    (deltaLines : Nat) :
    Step UInt8 Fault Bool :=
  if deltaLines = 0 then do
    let deltaColumns ← readU32 w
    return deltaColumns == 0
  else do
    let _ ← readI32 w
    return false

def readPoint
    (documentCount : Nat)
    (s : LoopState) :
    Step UInt8 Fault Turn := do
  let startLine ← readU32 w
  let startColumn ← readU32 w
  if s.currentDocument = 0 ∨ documentCount < s.currentDocument then
    malformed
  else
    return .found ⟨s.currentDocument, startLine, startColumn⟩

/- A turn of the loop over the records. -/
def readRecord
    (documentCount : Nat)
    (s : LoopState) :
    Step UInt8 Fault Turn := do
  let deltaIl ← readU32 w
  if deltaIl = 0 ∧ s.firstRecord = false then do
    let document ← readU32 w
    return .next { s with currentDocument := document }
  else do
    let deltaLines ← readU32 w
    let isHidden ← readHidden w deltaLines
    if isHidden then
      return .next { s with firstRecord := false }
    else
      readPoint w documentCount { s with firstRecord := false }

variable {w}

variable {c' : Cursor} {data : List UInt8} {consumed value : Nat}

theorem consumed_pos
    (hRead : readCompressedU32 data = some (value, consumed)) :
    0 < consumed ∧ consumed ≤ data.length := by
  unfold readCompressedU32 at hRead
  split at hRead
  · cases hRead
  · split_ifs at hRead
    · cases hRead
      exact ⟨by decide, by simp⟩
    · split at hRead
      · cases hRead
        exact ⟨by decide, by simp⟩
      · cases hRead
    · split at hRead
      · cases hRead
        exact ⟨by decide, by simp⟩
      · cases hRead

theorem consumed_rotated
    {raw consumed bits : Nat}
    (hRead : readRotated data = some (raw, consumed, bits)) :
    0 < consumed ∧ consumed ≤ data.length := by
  unfold readRotated at hRead
  split at hRead
  · cases hRead
  · split_ifs at hRead
    · cases hRead
      exact ⟨by decide, by simp⟩
    · split at hRead
      · cases hRead
        exact ⟨by decide, by simp⟩
      · cases hRead
    · split at hRead
      · cases hRead
        exact ⟨by decide, by simp⟩
      · cases hRead

/- Bytes read of the unread ones keep the cursor inside. -/
theorem skip_inside
    (hPos : 0 < consumed)
    (hLe : consumed ≤ c.unread.length) :
    (c.skip consumed).data = c.data ∧
      c.pos + 1 ≤ (c.skip consumed).pos ∧
      (c.skip consumed).pos ≤ c.data.length := by
  rw [Tape.unread, List.length_drop] at hLe
  refine ⟨rfl, ?_, ?_⟩
  · show c.pos + 1 ≤ c.pos + consumed
    omega
  · show c.pos + consumed ≤ c.data.length
    omega

theorem readCompressedU32_inside
    (hRead : c.readCompressedU32 = some (value, c')) :
    c'.data = c.data ∧ c.pos + 1 ≤ c'.pos ∧
      c'.pos ≤ c.data.length := by
  unfold Cursor.readCompressedU32 at hRead
  split at hRead
  · next hValue =>
      cases hRead
      rcases consumed_pos hValue with ⟨hPos, hLe⟩
      exact skip_inside hPos hLe
  · cases hRead

theorem readCompressedI32_inside
    {value : Int}
    (hRead : c.readCompressedI32 = some (value, c')) :
    c'.data = c.data ∧ c.pos + 1 ≤ c'.pos ∧
      c'.pos ≤ c.data.length := by
  unfold Cursor.readCompressedI32 at hRead
  split at hRead
  · next hValue =>
      cases hRead
      rcases consumed_rotated hValue with ⟨hPos, hLe⟩
      exact skip_inside hPos hLe
  · cases hRead

theorem readU32_moves :
    Moves 1 (readU32 w) := by
  intro c value c' hRun
  unfold readU32 at hRun
  split at hRun
  · next hRead =>
      split_ifs at hRun
      cases hRun
      rcases readCompressedU32_inside hRead with ⟨hData, hPos, hEnd⟩
      exact ⟨hData, hPos, fun _ => hEnd⟩
  · cases hRun

theorem readI32_moves :
    Moves 1 (readI32 w) := by
  intro c value c' hRun
  unfold readI32 at hRun
  split at hRun
  · next hRead =>
      split_ifs at hRun
      cases hRun
      rcases readCompressedI32_inside hRead with ⟨hData, hPos, hEnd⟩
      exact ⟨hData, hPos, fun _ => hEnd⟩
  · cases hRun

theorem readHidden_moves
    (deltaLines : Nat) :
    Moves 1 (readHidden w deltaLines) := by
  unfold readHidden
  split_ifs
  · exact readU32_moves.bind fun _ => Moves.pure
  · exact readI32_moves.bind fun _ => Moves.pure

theorem readPoint_moves
    (documentCount : Nat)
    (s : LoopState) :
    Moves 0 (readPoint w documentCount s) := by
  apply Moves.le (n := 1 + (1 + 0)) _ (Nat.zero_le _)
  apply readU32_moves.bind
  intro startLine
  apply readU32_moves.bind
  intro startColumn
  split_ifs
  · exact Moves.fail
  · exact Moves.pure

theorem readRecord_moves
    (documentCount : Nat)
    (s : LoopState) :
    Moves 1 (readRecord w documentCount s) := by
  apply Moves.le (n := 1 + 0) _ (Nat.le_refl _)
  apply readU32_moves.bind
  intro deltaIl
  split_ifs
  · apply Moves.le (n := 1 + 0) _ (Nat.zero_le _)
    exact readU32_moves.bind fun _ => Moves.pure
  · apply Moves.le (n := 1 + (1 + 0)) _ (Nat.zero_le _)
    apply readU32_moves.bind
    intro deltaLines
    apply (readHidden_moves deltaLines).bind
    intro isHidden
    split_ifs
    · exact Moves.pure
    · exact readPoint_moves documentCount _

variable (w)

/- The loop over the records. -/
def decodeRecords
    (documentCount : Nat)
    (s : LoopState)
    (c : Cursor) :
    Except Fault (Option SequencePoint) :=
  if _ : c.pos < c.data.length then
    match _ : readRecord w documentCount s c with
    | .error e => .error e
    | .ok (.found point, _) => .ok (some point)
    | .ok (.next s', c') => decodeRecords documentCount s' c'
  else
    .ok none
termination_by c.data.length - c.pos
decreasing_by
  rcases readRecord_moves documentCount s c _ c' ‹_› with
    ⟨hData, hPos, -⟩
  rw [hData]
  omega

/- The header: the document the records start in. -/
def readHeader
    (documentColumn : Nat) :
    Step UInt8 Fault Nat := do
  let _ ← readU32 w
  if documentColumn = 0 then
    readU32 w
  else
    return documentColumn

def decodeFirstSequencePoint
    (blob : List UInt8)
    (documentColumn documentCount : Nat) :
    Except Fault (Option SequencePoint) :=
  match readHeader w documentColumn (Cursor.new blob) with
  | .error e => .error e
  | .ok (document, c) =>
      decodeRecords w documentCount ⟨document, true⟩ c

end Pdb

end Assembly

end Borzoi

namespace Borzoi

namespace Assembly

namespace Pdb

open Program

/- A point without or with a place in the source, or the document of
   the points that follow. -/
inductive Record
  | hidden (ilOffset : Nat)
  | visible
      (ilOffset startLine startColumn endLine endColumn : Nat)
  | document (id : Nat)

/- The last code offset, and the start of the last visible point. -/
structure Previous where
  ilOffset : Option Nat
  start : Option (Nat × Nat)

def deltaIl
    (prev : Previous)
    (ilOffset : Nat) :
    Nat :=
  match prev.ilOffset with
  | none => ilOffset
  | some before => ilOffset - before

/- The extent of a visible point: its lines, then its columns, with a
   sign where it has more than one line. -/
def encodeExtent
    (startLine startColumn endLine endColumn : Nat) :
    List UInt8 :=
  compressU32 (endLine - startLine) ++
    if endLine - startLine = 0 then
      compressU32 (endColumn - startColumn)
    else
      compressSigned ((endColumn : Int) - startColumn)

/- The start of a visible point, absolute the first time. -/
def encodeStart
    (prev : Previous)
    (startLine startColumn : Nat) :
    List UInt8 :=
  match prev.start with
  | none => compressU32 startLine ++ compressU32 startColumn
  | some (line, column) =>
      compressSigned ((startLine : Int) - line) ++
        compressSigned ((startColumn : Int) - column)

def encodeRecords :
    Previous → List Record → List UInt8
  | _, [] => []
  | prev, .hidden ilOffset :: records =>
      compressU32 (deltaIl prev ilOffset) ++
        (compressU32 0 ++ compressU32 0) ++
        encodeRecords { prev with ilOffset := some ilOffset } records
  | prev, .visible ilOffset startLine startColumn endLine endColumn ::
        records =>
      compressU32 (deltaIl prev ilOffset) ++
        (encodeExtent startLine startColumn endLine endColumn ++
          encodeStart prev startLine startColumn) ++
        encodeRecords ⟨some ilOffset, some (startLine, startColumn)⟩
          records
  | prev, .document id :: records =>
      compressU32 0 ++ compressU32 id ++ encodeRecords prev records

/- The header names the first document where the row does not. -/
def encodeSequencePoints
    (localSignature documentColumn initialDocument : Nat)
    (records : List Record) :
    List UInt8 :=
  compressU32 localSignature ++
    (if documentColumn = 0 then
      compressU32 initialDocument
    else
      []) ++
    encodeRecords ⟨none, none⟩ records

/- A difference with a sign fits its field. -/
def FitsSigned
    (n : Int) :
    Prop :=
  -2 ^ 28 ≤ n ∧ n < 2 ^ 28

/- Code offsets grow, and their differences fit. -/
def FitsOffset
    (prev : Previous)
    (ilOffset : Nat) :
    Prop :=
  (∀ before, prev.ilOffset = some before → before < ilOffset) ∧
    deltaIl prev ilOffset ≤ maxCompressed

/- A visible point is not empty, and its extent fits. -/
def FitsExtent
    (startLine startColumn endLine endColumn : Nat) :
    Prop :=
  startLine ≤ endLine ∧
    endLine - startLine ≤ maxCompressed ∧
    if startLine = endLine then
      startColumn < endColumn ∧
        endColumn - startColumn ≤ maxCompressed
    else
      FitsSigned ((endColumn : Int) - startColumn)

def FitsStart
    (prev : Previous)
    (startLine startColumn : Nat) :
    Prop :=
  match prev.start with
  | none => startLine ≤ maxCompressed ∧ startColumn ≤ maxCompressed
  | some (line, column) =>
      FitsSigned ((startLine : Int) - line) ∧
        FitsSigned ((startColumn : Int) - column)

def FitsDocument
    (documentCount id : Nat) :
    Prop :=
  1 ≤ id ∧ id ≤ documentCount ∧ id ≤ maxCompressed

/- Records a codec can write: a point comes first. -/
def FitsRecords
    (documentCount : Nat) :
    Previous → List Record → Prop
  | _, [] => True
  | prev, .hidden ilOffset :: records =>
      FitsOffset prev ilOffset ∧
        FitsRecords documentCount
          { prev with ilOffset := some ilOffset } records
  | prev, .visible ilOffset startLine startColumn endLine endColumn ::
        records =>
      FitsOffset prev ilOffset ∧
        FitsExtent startLine startColumn endLine endColumn ∧
        FitsStart prev startLine startColumn ∧
        FitsRecords documentCount
          ⟨some ilOffset, some (startLine, startColumn)⟩ records
  | prev, .document id :: records =>
      prev.ilOffset ≠ none ∧ FitsDocument documentCount id ∧
        FitsRecords documentCount prev records

/- The first visible point, in the document in force there. -/
def firstVisible :
    Nat → List Record → Option SequencePoint
  | _, [] => none
  | document, .hidden _ :: records => firstVisible document records
  | document, .visible _ startLine startColumn _ _ :: _ =>
      some ⟨document, startLine, startColumn⟩
  | _, .document id :: records => firstVisible id records

/- The document the header or the row puts in force. -/
def inForce
    (documentColumn initialDocument : Nat) :
    Nat :=
  if documentColumn = 0 then
    initialDocument
  else
    documentColumn

end Pdb

end Assembly

end Borzoi

------------------------------------------------------------
-- Reading what was written
------------------------------------------------------------

namespace Borzoi

namespace Assembly

namespace Pdb

open Program

variable {w : PointerWidth} {documentCount : Nat} {s : LoopState}
variable {prev : Previous}

variable {front rest : List UInt8}
variable {endColumn endLine ilOffset n startColumn startLine : Nat}

theorem readU32_reads
    (hRange : n ≤ maxCompressed) :
    ReadsIn w.usizeMax (readU32 w) (compressU32 n) n := by
  intro c rest hBound hUnread
  have hRead := readCompressedU32_compress hRange hUnread
  have hInside := (readCompressedU32_inside hRead).2.2
  unfold readU32
  rw [hRead]
  exact if_pos (Nat.le_trans hInside hBound)

theorem readI32_reads
    {n : Int}
    (hFits : FitsSigned n) :
    ReadsIn w.usizeMax (readI32 w) (compressSigned n) n := by
  intro c rest hBound hUnread
  have hRead := readCompressedI32_compress hFits.1 hFits.2 hUnread
  have hInside := (readCompressedI32_inside hRead).2.2
  unfold readI32
  rw [hRead]
  exact if_pos (Nat.le_trans hInside hBound)

theorem zero_compressed :
    0 ≤ maxCompressed :=
  Nat.zero_le _

theorem readHidden_hidden :
    ReadsIn w.usizeMax (readHidden w 0) (compressU32 0) true :=
  (readU32_reads zero_compressed).bind_last ReadsIn.pure

/- A visible point does not read as hidden. -/
theorem readHidden_visible
    (hExtent : FitsExtent startLine startColumn endLine endColumn) :
    ReadsIn w.usizeMax (readHidden w (endLine - startLine))
      (if endLine - startLine = 0 then
        compressU32 (endColumn - startColumn)
      else
        compressSigned ((endColumn : Int) - startColumn)) false := by
  rcases hExtent with ⟨hLines, -, hColumns⟩
  unfold readHidden
  by_cases hOne : endLine - startLine = 0
  · have hSame : startLine = endLine := by omega
    rw [if_pos hSame] at hColumns
    rw [if_pos hOne, if_pos hOne]
    apply (readU32_reads hColumns.2).bind_last
    have hNe : (endColumn - startColumn == 0) = false := by
      rw [beq_eq_false_iff_ne]
      omega
    rw [hNe]
    exact ReadsIn.pure
  · have hDiffer : ¬ startLine = endLine := by omega
    rw [if_neg hDiffer] at hColumns
    rw [if_neg hOne, if_neg hOne]
    exact (readI32_reads hColumns).bind_last ReadsIn.pure

/- The difference of a point is not that of a document. -/
theorem not_document
    (hOffset : FitsOffset prev ilOffset)
    (hFirst : s.firstRecord = prev.ilOffset.isNone) :
    ¬ (deltaIl prev ilOffset = 0 ∧ s.firstRecord = false) := by
  rintro ⟨hZero, hLater⟩
  rw [hFirst] at hLater
  unfold deltaIl at hZero
  cases hPrev : prev.ilOffset with
  | none =>
      rw [hPrev] at hLater
      cases hLater
  | some before =>
      have hLt := hOffset.1 before hPrev
      rw [hPrev] at hZero
      simp only at hZero
      omega

theorem readRecord_hidden
    (hOffset : FitsOffset prev ilOffset)
    (hFirst : s.firstRecord = prev.ilOffset.isNone) :
    ReadsIn w.usizeMax (readRecord w documentCount s)
      (compressU32 (deltaIl prev ilOffset) ++
        (compressU32 0 ++ compressU32 0))
      (.next { s with firstRecord := false }) := by
  apply (readU32_reads hOffset.2).bind
  rw [if_neg (not_document hOffset hFirst)]
  apply (readU32_reads zero_compressed).bind
  exact readHidden_hidden.bind_last ReadsIn.pure

theorem readRecord_document
    {id : Nat}
    (hId : FitsDocument documentCount id)
    (hLater : s.firstRecord = false) :
    ReadsIn w.usizeMax (readRecord w documentCount s)
      (compressU32 0 ++ compressU32 id)
      (.next { s with currentDocument := id }) := by
  apply (readU32_reads zero_compressed).bind
  rw [if_pos ⟨rfl, hLater⟩]
  exact (readU32_reads hId.2.2).bind_last ReadsIn.pure

theorem readRecord_visible
    (hOffset : FitsOffset prev ilOffset)
    (hExtent : FitsExtent startLine startColumn endLine endColumn)
    (hStart : FitsStart prev startLine startColumn)
    (hNone : prev.start = none)
    (hFirst : s.firstRecord = prev.ilOffset.isNone)
    (hDocument : 1 ≤ s.currentDocument ∧
      s.currentDocument ≤ documentCount) :
    ReadsIn w.usizeMax (readRecord w documentCount s)
      (compressU32 (deltaIl prev ilOffset) ++
        (encodeExtent startLine startColumn endLine endColumn ++
          encodeStart prev startLine startColumn))
      (.found ⟨s.currentDocument, startLine, startColumn⟩) := by
  unfold FitsStart at hStart
  rw [hNone] at hStart
  unfold encodeExtent encodeStart
  rw [hNone, List.append_assoc]
  apply (readU32_reads hOffset.2).bind
  rw [if_neg (not_document hOffset hFirst)]
  apply (readU32_reads hExtent.2.1).bind
  apply (readHidden_visible hExtent).bind
  rw [if_neg Bool.false_ne_true]
  apply (readU32_reads hStart.1).bind
  apply (readU32_reads hStart.2).bind_last
  have hIn : ¬ (s.currentDocument = 0 ∨
      documentCount < s.currentDocument) := by
    omega
  rw [if_neg hIn]
  exact ReadsIn.pure

theorem compressU32_ne_nil
    (hRange : n ≤ maxCompressed) :
    compressU32 n ≠ [] := by
  intro hNil
  have hUnread : (⟨[], 0⟩ : Cursor).unread = compressU32 n ++ [] := by
    rw [hNil]
    rfl
  have hRead := readCompressedU32_compress hRange hUnread
  cases hRead

theorem more_of_unread
    (hSome : c.unread ≠ []) :
    c.pos < c.data.length := by
  by_contra hDone
  apply hSome
  rw [Tape.unread, List.drop_eq_nil_iff]
  omega

/- One turn of the loop. -/
theorem decodeRecords_next
    {s' : LoopState}
    (hReads : ReadsIn w.usizeMax (readRecord w documentCount s) front
      (.next s'))
    (hBound : c.data.length ≤ w.usizeMax)
    (hUnread : c.unread = front ++ rest) :
    decodeRecords w documentCount s c =
      decodeRecords w documentCount s' (c.skip front.length) := by
  have hRun := hReads c rest hBound hUnread
  rcases readRecord_moves documentCount s c _ _ hRun with
    ⟨-, hPos, hEnd⟩
  have hMore : c.pos < c.data.length := by
    apply more_of_unread
    intro hNil
    rw [hUnread] at hNil
    have hFront := (List.append_eq_nil_iff.1 hNil).1
    rw [hFront] at hPos
    exact absurd hPos (Nat.not_succ_le_self _)
  rw [decodeRecords, dif_pos hMore]
  split
  · next hFail =>
      rw [hRun] at hFail
      cases hFail
  · next hFound =>
      rw [hRun] at hFound
      cases hFound
  · next hNext =>
      rw [hRun] at hNext
      cases hNext
      rfl

theorem decodeRecords_found
    {point : SequencePoint}
    (hReads : ReadsIn w.usizeMax (readRecord w documentCount s) front
      (.found point))
    (hBound : c.data.length ≤ w.usizeMax)
    (hUnread : c.unread = front ++ rest)
    (hMore : c.pos < c.data.length) :
    decodeRecords w documentCount s c = .ok (some point) := by
  have hRun := hReads c rest hBound hUnread
  rw [decodeRecords, dif_pos hMore]
  split
  · next hFail =>
      rw [hRun] at hFail
      cases hFail
  · next hFound =>
      rw [hRun] at hFound
      cases hFound
      rfl
  · next hNext =>
      rw [hRun] at hNext
      cases hNext

/- The loop finds the first visible point of what was written. -/
theorem decodeRecords_encode
    {records : List Record}
    (hBound : c.data.length ≤ w.usizeMax)
    (hUnread : c.unread = encodeRecords prev records)
    (hFits : FitsRecords documentCount prev records)
    (hNone : prev.start = none)
    (hFirst : s.firstRecord = prev.ilOffset.isNone)
    (hDocument : 1 ≤ s.currentDocument ∧
      s.currentDocument ≤ documentCount) :
    decodeRecords w documentCount s c =
      .ok (firstVisible s.currentDocument records) := by
  induction records generalizing prev s c with
  | nil =>
      have hEnd : ¬ c.pos < c.data.length := by
        intro hMore
        have hLength := congrArg List.length hUnread
        rw [Tape.unread, List.length_drop] at hLength
        simp only [encodeRecords, List.length_nil] at hLength
        omega
      rw [decodeRecords, dif_neg hEnd]
      rfl
  | cons record records ih =>
      cases record with
      | hidden ilOffset =>
          rcases hFits with ⟨hOffset, hRest⟩
          rw [decodeRecords_next (readRecord_hidden hOffset hFirst)
            hBound hUnread]
          exact ih (s := { s with firstRecord := false }) hBound
            (Tape.unread_skip_append hUnread) hRest hNone rfl hDocument
      | document id =>
          rcases hFits with ⟨hBehind, hId, hRest⟩
          have hLater : s.firstRecord = false := by
            rw [hFirst]
            cases hPrev : prev.ilOffset with
            | none => exact absurd hPrev hBehind
            | some before => rfl
          rw [decodeRecords_next (readRecord_document hId hLater)
            hBound hUnread]
          exact ih (s := { s with currentDocument := id }) hBound
            (Tape.unread_skip_append hUnread) hRest hNone hFirst
            ⟨hId.1, hId.2.1⟩
      | visible ilOffset startLine startColumn endLine endColumn =>
          rcases hFits with ⟨hOffset, hExtent, hStart, -⟩
          apply decodeRecords_found
            (readRecord_visible hOffset hExtent hStart hNone hFirst
              hDocument) hBound hUnread
          apply more_of_unread
          rw [hUnread]
          intro hNil
          have hFront := (List.append_eq_nil_iff.1 hNil).1
          exact compressU32_ne_nil hOffset.2
            (List.append_eq_nil_iff.1 hFront).1

theorem readHeader_reads
    {localSignature documentColumn initialDocument : Nat}
    (hLocal : localSignature ≤ maxCompressed)
    (hInitial : documentColumn = 0 → initialDocument ≤ maxCompressed) :
    ReadsIn w.usizeMax (readHeader w documentColumn)
      (compressU32 localSignature ++
        if documentColumn = 0 then
          compressU32 initialDocument
        else
          [])
      (inForce documentColumn initialDocument) := by
  apply (readU32_reads hLocal).bind
  unfold inForce
  by_cases hZero : documentColumn = 0
  · rw [if_pos hZero, if_pos hZero, if_pos hZero]
    exact readU32_reads (hInitial hZero)
  · rw [if_neg hZero, if_neg hZero, if_neg hZero]
    exact ReadsIn.pure

theorem readU32_avoids :
    AvoidsIn w.usizeMax .overflow (readU32 w) := by
  intro c hPos hBound hFail
  unfold readU32 at hFail
  split at hFail
  · next hRead =>
      have hInside := (readCompressedU32_inside hRead).2.2
      rw [if_pos (Nat.le_trans hInside hBound)] at hFail
      cases hFail
  · cases hFail

theorem readI32_avoids :
    AvoidsIn w.usizeMax .overflow (readI32 w) := by
  intro c hPos hBound hFail
  unfold readI32 at hFail
  split at hFail
  · next hRead =>
      have hInside := (readCompressedI32_inside hRead).2.2
      rw [if_pos (Nat.le_trans hInside hBound)] at hFail
      cases hFail
  · cases hFail

theorem readHidden_avoids
    (deltaLines : Nat) :
    AvoidsIn w.usizeMax .overflow (readHidden w deltaLines) := by
  unfold readHidden
  split_ifs
  · exact readU32_avoids.bind readU32_moves fun _ => AvoidsIn.pure
  · exact readI32_avoids.bind readI32_moves fun _ => AvoidsIn.pure

theorem readPoint_avoids
    (documentCount : Nat)
    (s : LoopState) :
    AvoidsIn w.usizeMax .overflow (readPoint w documentCount s) := by
  apply AvoidsIn.bind readU32_moves readU32_avoids
  intro startLine
  apply AvoidsIn.bind readU32_moves readU32_avoids
  intro startColumn
  split_ifs
  · intro c _ _ hFail
    cases hFail
  · exact AvoidsIn.pure

theorem readRecord_avoids
    (documentCount : Nat)
    (s : LoopState) :
    AvoidsIn w.usizeMax .overflow (readRecord w documentCount s) := by
  apply AvoidsIn.bind readU32_moves readU32_avoids
  intro deltaIl
  split_ifs
  · exact AvoidsIn.bind readU32_moves readU32_avoids
      fun _ => AvoidsIn.pure
  · apply AvoidsIn.bind readU32_moves readU32_avoids
    intro deltaLines
    apply AvoidsIn.bind (readHidden_moves deltaLines)
      (readHidden_avoids deltaLines)
    intro isHidden
    split_ifs
    · exact AvoidsIn.pure
    · exact readPoint_avoids documentCount _

theorem readHeader_moves
    (documentColumn : Nat) :
    Moves 0 (readHeader w documentColumn) := by
  apply Moves.le (n := 1 + 0) _ (Nat.zero_le _)
  apply readU32_moves.bind
  intro localSignature
  split_ifs
  · exact readU32_moves.le (Nat.zero_le _)
  · exact Moves.pure

theorem readHeader_avoids
    (documentColumn : Nat) :
    AvoidsIn w.usizeMax .overflow (readHeader w documentColumn) := by
  apply AvoidsIn.bind readU32_moves readU32_avoids
  intro localSignature
  split_ifs
  · exact readU32_avoids
  · exact AvoidsIn.pure

/- A point that is found is in a document of the table. -/
def Names
    (documentCount : Nat)
    (p : Step UInt8 Fault Turn) :
    Prop :=
  ∀ c point c',
    p c = .ok (.found point, c') →
    1 ≤ point.document ∧ point.document ≤ documentCount

theorem Names.bind
    {α : Type}
    {p : Step UInt8 Fault α}
    {f : α → Step UInt8 Fault Turn}
    (hNames : ∀ x, Names documentCount (f x)) :
    Names documentCount (p >>= f) := by
  intro c point c' hRun
  cases hStep : p c with
  | error e =>
      rw [bind_error hStep] at hRun
      cases hRun
  | ok r =>
      rw [bind_ok hStep] at hRun
      exact hNames r.1 r.2 point c' hRun

theorem Names.next
    (s : LoopState) :
    Names documentCount (pure (.next s)) := by
  intro c point c' hRun
  cases hRun

theorem readRecord_names
    (documentCount : Nat)
    (s : LoopState) :
    Names documentCount (readRecord w documentCount s) := by
  apply Names.bind
  intro deltaIl
  split_ifs
  · exact Names.bind fun _ => Names.next _
  · apply Names.bind
    intro deltaLines
    apply Names.bind
    intro isHidden
    split_ifs
    · exact Names.next _
    · apply Names.bind
      intro startLine
      apply Names.bind
      intro startColumn
      split_ifs with hOut
      · intro c point c' hRun
        cases hRun
      · intro c point c' hRun
        cases hRun
        dsimp only at hOut ⊢
        omega

/- The loop stays inside the blob and names a document of the table. -/
theorem decodeRecords_safe
    (documentCount : Nat)
    (s : LoopState)
    (c : Cursor)
    (hPos : c.pos ≤ c.data.length)
    (hBound : c.data.length ≤ w.usizeMax) :
    decodeRecords w documentCount s c ≠ .error .overflow ∧
      ∀ point,
        decodeRecords w documentCount s c = .ok (some point) →
        1 ≤ point.document ∧ point.document ≤ documentCount := by
  fun_induction decodeRecords w documentCount s c with
  | case1 s c hMore e hRun =>
      refine ⟨?_, ?_⟩
      · intro hFail
        cases hFail
        exact readRecord_avoids documentCount s c hPos hBound hRun
      · intro point hFound
        cases hFound
  | case2 s c hMore point c' hRun =>
      refine ⟨(by intro hFail; cases hFail), ?_⟩
      intro point' hFound
      cases hFound
      exact readRecord_names documentCount s c point c' hRun
  | case3 s c hMore s' c' hRun ih =>
      rcases readRecord_moves documentCount s c _ c' hRun with
        ⟨hData, -, hEnd⟩
      rw [← hData] at hEnd hBound
      rw [← hData] at hPos
      exact ih (hEnd hPos) hBound
  | case4 s c hDone =>
      refine ⟨(by intro hFail; cases hFail), ?_⟩
      intro point hFound
      cases hFound

/- The decoder finds the first visible point of what a codec wrote, and
   on any bytes it stays inside them and names a document. -/
theorem first_sequence_point
    (w : PointerWidth)
    (documentCount : Nat) :
    (∀ localSignature documentColumn initialDocument records,
      localSignature ≤ maxCompressed →
      1 ≤ inForce documentColumn initialDocument →
      inForce documentColumn initialDocument ≤ documentCount →
      (documentColumn = 0 → initialDocument ≤ maxCompressed) →
      FitsRecords documentCount ⟨none, none⟩ records →
      (encodeSequencePoints localSignature documentColumn
        initialDocument records).length ≤ w.isizeMax →
      decodeFirstSequencePoint w
          (encodeSequencePoints localSignature documentColumn
            initialDocument records) documentColumn documentCount =
        .ok (firstVisible
          (inForce documentColumn initialDocument) records)) ∧
      ∀ (blob : Image w) documentColumn,
        decodeFirstSequencePoint w blob.bytes documentColumn
            documentCount ≠ .error .overflow ∧
          ∀ point,
            decodeFirstSequencePoint w blob.bytes documentColumn
                documentCount = .ok (some point) →
            1 ≤ point.document ∧ point.document ≤ documentCount := by
  have hWords : w.isizeMax ≤ w.usizeMax := by
    cases w <;> decide
  constructor
  · intro localSignature documentColumn initialDocument records hLocal
      hLow hHigh hInitial hFits hMemory
    have hBound := Nat.le_trans hMemory hWords
    unfold decodeFirstSequencePoint
    unfold encodeSequencePoints at hBound ⊢
    have hStart : (Cursor.new (compressU32 localSignature ++
        (if documentColumn = 0 then
          compressU32 initialDocument
        else
          []) ++ encodeRecords ⟨none, none⟩ records)).unread =
        (compressU32 localSignature ++
          if documentColumn = 0 then
            compressU32 initialDocument
          else
            []) ++ encodeRecords ⟨none, none⟩ records :=
      rfl
    rw [readHeader_reads hLocal hInitial _ _ hBound hStart]
    exact decodeRecords_encode
      (s := ⟨inForce documentColumn initialDocument, true⟩) hBound
      (Tape.unread_skip_append hStart) hFits rfl rfl ⟨hLow, hHigh⟩
  · intro blob documentColumn
    have hBound := Nat.le_trans blob.length_le hWords
    unfold decodeFirstSequencePoint
    cases hHeader : readHeader w documentColumn
        (Cursor.new blob.bytes) with
    | error e =>
        refine ⟨?_, (by intro point hFound; cases hFound)⟩
        intro hFail
        cases hFail
        exact readHeader_avoids documentColumn _ (Nat.zero_le _) hBound
          hHeader
    | ok r =>
        rcases readHeader_moves documentColumn _ _ _ hHeader with
          ⟨hData, -, hEnd⟩
        have hInside := hEnd (Nat.zero_le _)
        rw [← hData] at hInside
        refine decodeRecords_safe documentCount ⟨r.1, true⟩ r.2
          hInside ?_
        rw [hData]
        exact hBound

/- A hidden point, a switch of documents and a visible point. -/
theorem first_sequence_point_switched :
    decodeFirstSequencePoint .w64
        (encodeSequencePoints 0 0 3
          [.hidden 0, .document 8, .visible 5 42 7 42 17]) 0 8 =
      .ok (some ⟨8, 42, 7⟩) := by
  apply (first_sequence_point .w64 8).1 0 0 3
  · decide
  · decide
  · decide
  · intro _
    decide
  · refine ⟨⟨?_, by decide⟩, by decide, by unfold FitsDocument; decide,
      ⟨?_, by decide⟩, ?_, ?_, trivial⟩
    · intro before hNone
      cases hNone
    · intro before hSome
      cases hSome
      decide
    · refine ⟨by decide, by decide, ?_⟩
      rw [if_pos rfl]
      decide
    · exact ⟨by decide, by decide⟩
  · decide

end Pdb

end Assembly

end Borzoi
