import Borzoi.Assembly.Metadata

/-
  The container reader does not panic.

  Where plain arithmetic is used, the position is inside the image and
  the image is no longer than a slice may be.  The regions that are
  returned lie in the image, and what is read from a heap lies in it.
-/

namespace Borzoi

namespace Assembly

open Program

variable {α : Type} {w : PointerWidth}

theorem need_steady
    (e : Error)
    (read : Cursor → Option (α × Cursor)) :
    Steady (need e read) :=
  fun c => Safe.orFail e (read c)

theorem skip_steady
    (e : Error)
    (n : Nat) :
    Steady (skip e n) :=
  (need_steady e _).bind fun _ => Steady.pure ()

theorem position_steady :
    Steady position :=
  fun c => Safe.ok (c.pos, c)

theorem refused_steady
    (e : Error) :
    Steady (lift (refuseWith e) : Reader α) :=
  Steady.lift (Safe.refused e)

theorem readAt_safe
    {data : List UInt8}
    {pos : Nat}
    {reader : Reader α}
    (hSteady : Steady reader) :
    Safe (readAt data pos reader) :=
  (hSteady _).bind fun r _ => Safe.ok r.1

variable {c c' : Cursor} {e : Error}
variable {bytes image metadata name region : List UInt8}
variable {sections : List «Section»} {n : Nat} {pe : PeHeader}
variable {streams : Streams}

theorem take_eq_some
    (hTake : Cursor.take c n = some (bytes, c')) :
    bytes.length = n ∧ c' = c.skip n ∧ c.pos + n ≤ c.data.length := by
  unfold Cursor.take at hTake
  split at hTake
  case isTrue hFits =>
    cases hTake
    refine ⟨?_, rfl, hFits⟩
    rw [List.length_take, Tape.unread, List.length_drop]
    omega
  case isFalse => cases hTake

/- A reader over `take` lands. -/
theorem need_lands
    {f : List UInt8 → α} :
    Lands (need e fun c => (Cursor.take c n).map fun r => (f r.1, r.2)) := by
  intro c x c' hRun
  have hRead := orFail_eq_ok hRun
  rcases Option.map_eq_some_iff.mp hRead with ⟨r, hTake, hPair⟩
  cases hPair
  rcases take_eq_some hTake with ⟨-, hMoved, hFits⟩
  rw [hMoved]
  exact ⟨rfl, hFits⟩

theorem readU16_lands
    {e : Error} :
    Lands (need e Cursor.readU16) :=
  need_lands (n := 2) (f := fun bytes => UInt16.ofNat (fromLeBytes bytes))

theorem take_lands
    {n : Nat} :
    Lands (need e fun c => Cursor.take c n) := by
  intro c x c' hRun
  rcases take_eq_some (orFail_eq_ok hRun) with ⟨-, hMoved, hFits⟩
  rw [hMoved]
  exact ⟨rfl, hFits⟩

theorem skip_lands
    {n : Nat} :
    Lands (skip e n) :=
  take_lands.map

theorem rvaToSlice_safe
    (image : List UInt8)
    (sections : List «Section»)
    (rva : UInt32) :
    Safe (rvaToSlice image sections rva) := by
  induction sections with
  | nil => exact Safe.ok none
  | cons s rest ih =>
      unfold rvaToSlice
      dsimp only
      split
      · exact Safe.ok none
      · split
        · rename_i hHolds
          have hLow : s.virtualAddress.toNat ≤ rva.toNat := hHolds.1
          rw [sub_eq hLow]
          apply (Safe.ok _).bind
          intro delta _
          repeat' split
          · exact Safe.ok none
          · exact Safe.ok none
          · exact Safe.ok none
          · exact Safe.ok _
        · exact ih

/- The bytes of an address lie in the image. -/
theorem rvaToSlice_lies
    {rva : UInt32}
    (hSlice : rvaToSlice image sections rva = .ok (some region)) :
    ∃ start, LiesAt region image start := by
  induction sections with
  | nil => cases hSlice
  | cons s rest ih =>
      unfold rvaToSlice at hSlice
      dsimp only at hSlice
      split at hSlice
      · cases hSlice
      · split at hSlice
        · rcases bind_eq_ok hSlice with ⟨delta, -, hRest⟩
          split at hRest
          · cases hRest
          · split at hRest
            · cases hRest
            · split at hRest
              · cases hRest
              · exact ⟨_, (slice_lies (Except.ok.inj hRest)).1⟩
        · exact ih hSlice

theorem readCoff_steady :
    Steady readCoff := by
  apply (need_steady _ _).bind
  intro signature
  split
  · exact refused_steady _
  · apply (skip_steady _ _).bind
    intro _
    apply (need_steady _ _).bind
    intro numSections
    apply (skip_steady _ _).bind
    intro _
    apply (need_steady _ _).bind
    intro sizeOptional
    apply (skip_steady _ _).bind
    exact fun _ => Steady.pure _

theorem readCoff_lands :
    Lands readCoff := by
  apply take_lands.bind
  intro signature
  split
  · intro c x c' hRun
    cases hRun
  · apply skip_lands.bind
    intro _
    apply readU16_lands.bind
    intro numSections
    apply skip_lands.bind
    intro _
    apply readU16_lands.bind
    intro sizeOptional
    exact skip_lands.map

theorem dataDirsOf_safe
    (magic : UInt16) :
    Safe (dataDirsOf magic) := by
  unfold dataDirsOf
  repeat' split
  · exact Safe.ok 96
  · exact Safe.ok 112
  · exact Safe.refused _

theorem dataDirsOf_bounds
    {magic : UInt16}
    {at' : Nat}
    (hRun : dataDirsOf magic = .ok at') :
    4 ≤ at' ∧ at' ≤ 112 := by
  unfold dataDirsOf at hRun
  repeat' split at hRun
  · cases hRun
    decide
  · cases hRun
    decide
  · cases hRun

theorem readPe_safe
    (image : List UInt8) :
    Safe (readPe image) := by
  unfold readPe
  split
  · exact Safe.refused _
  · apply (readAt_safe (need_steady _ _)).bind
    intro eLfanew _
    apply (readCoff_steady _).bind
    intro coff _
    apply (readAt_safe (need_steady _ _)).bind
    intro magic _
    apply (dataDirsOf_safe magic).bind
    exact fun dataDirsAt _ => Safe.ok _

/- The optional header starts inside the image. -/
theorem readPe_bounds
    (hRun : readPe image = .ok pe) :
    pe.optionalStart ≤ image.length ∧ 4 ≤ pe.dataDirsAt ∧
      pe.dataDirsAt ≤ 112 := by
  unfold readPe at hRun
  split at hRun
  · cases hRun
  · rcases bind_eq_ok hRun with ⟨eLfanew, -, hRun⟩
    rcases bind_eq_ok hRun with ⟨coff, hCoff, hRun⟩
    rcases bind_eq_ok hRun with ⟨magic, -, hRun⟩
    rcases bind_eq_ok hRun with ⟨dataDirsAt, hDirs, hRun⟩
    cases hRun
    have hLands := readCoff_lands _ coff.1 coff.2 hCoff
    exact ⟨hLands.2, dataDirsOf_bounds hDirs⟩

theorem readCliDirectory_steady :
    Steady readCliDirectory := by
  apply (need_steady _ _).bind
  intro cliRva
  split
  · exact refused_steady _
  · apply (need_steady _ _).bind
    exact fun _ => Steady.pure cliRva

/- A position in a slice leaves room for the offsets of the header. -/
theorem usizeMax_room
    (hLength : n ≤ w.isizeMax) :
    n + 1024 ≤ w.usizeMax := by
  cases w with
  | w32 =>
      change n ≤ 2 ^ 31 - 1 at hLength
      change n + 1024 ≤ 2 ^ 32 - 1
      omega
  | w64 =>
      change n ≤ 2 ^ 63 - 1 at hLength
      change n + 1024 ≤ 2 ^ 64 - 1
      omega

theorem readCliRva_safe
    (hLength : pe.optionalStart ≤ w.isizeMax)
    (hLow : 4 ≤ pe.dataDirsAt)
    (hHigh : pe.dataDirsAt ≤ 112) :
    Safe (readCliRva w image pe) := by
  have hRoom := usizeMax_room hLength
  unfold readCliRva
  apply (Safe.orFail _ _).bind
  intro optionalEnd hEnd
  have hSum := checkedAdd_eq_some (orFail_eq_ok hEnd)
  rw [add_eq (by omega)]
  apply (Safe.ok _).bind
  intro dirs hDirs
  cases hDirs
  rw [sub_eq (by omega)]
  apply (Safe.ok _).bind
  intro countAt _
  apply (Safe.orFail _ _).bind
  intro countEnd _
  split
  · exact Safe.refused _
  · apply (readAt_safe (need_steady _ _)).bind
    intro numRvaAndSizes _
    split
    · exact Safe.refused _
    · rw [add_eq (by unfold CLI_HEADER_DIRECTORY; omega)]
      apply (Safe.ok _).bind
      intro cliDir _
      apply (Safe.orFail _ _).bind
      intro cliEnd _
      split
      · exact Safe.refused _
      · apply (readAt_safe readCliDirectory_steady).bind
        intro cliRva _
        rw [add_eq (by omega)]
        apply (Safe.ok _).bind
        exact fun sectionsAt _ => Safe.ok _

theorem readSection_steady :
    Steady readSection := by
  apply (skip_steady _ _).bind
  intro _
  apply (need_steady _ _).bind
  intro virtualSize
  apply (need_steady _ _).bind
  intro virtualAddress
  apply (need_steady _ _).bind
  intro rawDataSize
  apply (need_steady _ _).bind
  intro rawDataPtr
  apply (skip_steady _ _).bind
  exact fun _ => Steady.pure _

theorem readCliHeader_steady :
    Steady readCliHeader := by
  apply (skip_steady _ _).bind
  intro _
  apply (need_steady _ _).bind
  intro metadataRva
  apply (need_steady _ _).bind
  intro metadataSize
  apply (skip_steady _ _).bind
  intro _
  apply (need_steady _ _).bind
  intro resourcesRva
  apply (need_steady _ _).bind
  exact fun resourcesSize => Steady.pure _

/- Every round but the last adds four bytes to the name. -/
theorem readStreamName_steady
    (rounds : Nat)
    (hRounds : 36 ≤ 4 * rounds + name.length)
    (hName : name.length ≤ 32) :
    Steady (readStreamName rounds name) := by
  induction rounds generalizing name with
  | zero => omega
  | succ rounds ih =>
      intro c
      rw [readStreamName]
      apply (need_steady _ _ c).bind
      intro r hRead
      have hChunk := (take_eq_some (orFail_eq_ok hRead)).1
      cases hNul : r.1.findIdx? (· == 0) with
      | some nul =>
          have hBound : nul < r.1.length :=
            (List.findIdx?_eq_some_iff_getElem.mp hNul).1
          simp only [hNul]
          rw [sliceAt_eq (Nat.zero_le nul) (Nat.le_of_lt hBound)]
          apply (Steady.lift (Safe.ok _)).bind
          exact fun front => Steady.pure _
      | none =>
          simp only [hNul]
          split
          · exact refused_steady _ _
          · rename_i hLength
            apply ih
            · rw [List.length_append]
              omega
            · omega

theorem readStream_steady
    (metadata : List UInt8) :
    Steady (readStream w metadata) := by
  apply (need_steady _ _).bind
  intro streamOffset
  apply (need_steady _ _).bind
  intro streamSize
  apply (readStreamName_steady nameRounds (by decide) (by decide)).bind
  intro name
  apply (Steady.lift (Safe.orFail _ _)).bind
  intro streamEnd
  apply (Steady.lift (Safe.orFail _ _)).bind
  exact fun region => Steady.pure _

theorem readStreams_steady
    (metadata : List UInt8)
    (n : Nat)
    (streams : Streams) :
    Steady (readStreams w metadata n streams) := by
  induction n generalizing streams with
  | zero => exact Steady.pure streams
  | succ n ih =>
      apply (readStream_steady metadata).bind
      exact fun found => ih _

theorem readRoot_steady
    (metadata : List UInt8) :
    Steady (readRoot w metadata) := by
  apply (need_steady _ _).bind
  intro signature
  split
  · exact refused_steady _
  · apply (skip_steady _ _).bind
    intro _
    apply (need_steady _ _).bind
    intro versionLen
    apply (Steady.lift (Safe.orFail _ _)).bind
    intro versionEnd
    apply (skip_steady _ _).bind
    intro _
    apply (skip_steady _ _).bind
    intro _
    apply (need_steady _ _).bind
    exact fun streamCount => readStreams_steady metadata _ _

theorem readRows_steady
    (valid : UInt64)
    (ids : List TableId) :
    Steady (readRows valid ids) := by
  induction ids with
  | nil => exact Steady.pure _
  | cons t rest ih =>
      unfold readRows
      split
      · apply (need_steady _ _).bind
        intro count
        apply ih.bind
        exact fun rows => Steady.pure _
      · exact ih

theorem readTableHeader_steady :
    Steady readTableHeader := by
  apply (skip_steady _ _).bind
  intro _
  apply (need_steady _ _).bind
  intro heapSizesByte
  split
  · exact refused_steady _
  · apply (skip_steady _ _).bind
    intro _
    apply (need_steady _ _).bind
    intro valid
    apply (skip_steady _ _).bind
    intro _
    apply (readRows_steady valid _).bind
    intro rows
    apply position_steady.bind
    exact fun rowsAt => Steady.pure _

------------------------------------------------------------
-- The Container
------------------------------------------------------------

namespace MetadataFile

theorem ofStreams_safe
    (image : List UInt8)
    (sections : List «Section»)
    (cli : CliHeader)
    (streams : Streams) :
    Safe (ofStreams image sections cli streams) := by
  apply (Safe.orFail _ _).bind
  intro tilde _
  apply (readAt_safe readTableHeader_steady).bind
  intro header _
  apply (Safe.orFail _ _).bind
  intro tables _
  apply (Safe.orFail _ _).bind
  intro strings _
  apply (Safe.orFail _ _).bind
  intro blobs _
  apply (Safe.orFail _ _).bind
  exact fun guids _ => Safe.ok _

theorem read_safe
    (image : Image w) :
    Safe (read w image.bytes) := by
  apply (readPe_safe _).bind
  intro pe hPe
  rcases readPe_bounds hPe with ⟨hStart, hLow, hHigh⟩
  have hLength := Nat.le_trans hStart image.length_le
  apply (readCliRva_safe hLength hLow hHigh).bind
  intro found _
  apply (readAt_safe (readSection_steady.times _)).bind
  intro sections _
  apply (rvaToSlice_safe _ _ _).bind
  intro cliBacked _
  apply (Safe.orFail _ _).bind
  intro cliRegion _
  apply (readAt_safe readCliHeader_steady).bind
  intro cli _
  apply (rvaToSlice_safe _ _ _).bind
  intro mdBacked _
  apply (Safe.orFail _ _).bind
  intro mdRegion _
  apply (Safe.orFail _ _).bind
  intro metadata _
  apply (readAt_safe (readRoot_steady _)).bind
  exact fun streams _ => ofStreams_safe _ _ _ _

end MetadataFile

def Inside
    (part whole : List UInt8) :
    Prop :=
  ∃ start, LiesAt part whole start

theorem Inside.trans
    {part middle whole : List UInt8}
    (hInner : Inside part middle)
    (hOuter : Inside middle whole) :
    Inside part whole := by
  rcases hInner with ⟨i, hInner⟩
  rcases hOuter with ⟨j, hOuter⟩
  exact ⟨j + i, hInner.trans hOuter⟩

/- Every region found so far lies in the metadata. -/
def Streams.Inside
    (streams : Streams)
    (metadata : List UInt8) :
    Prop :=
  ∀ region, streams.strings = some region ∨ streams.blobs = some region ∨
      streams.guids = some region ∨ streams.tilde = some region →
    Assembly.Inside region metadata

theorem Streams.Inside.put
    (hStreams : streams.Inside metadata)
    (hRegion : Assembly.Inside region metadata) :
    (streams.put name region).Inside metadata := by
  intro found hFound
  by_cases hNew : found = region
  · rw [hNew]
    exact hRegion
  · have hOther : ¬ region = found := fun hEq => hNew hEq.symm
    apply hStreams found
    unfold Streams.put at hFound
    repeat' split at hFound
    · simp only [Option.some.injEq, hOther, false_or] at hFound
      exact Or.inr hFound
    · simp only [Option.some.injEq, hOther, false_or] at hFound
      tauto
    · simp only [Option.some.injEq, hOther, false_or] at hFound
      tauto
    · simp only [Option.some.injEq, hOther, or_false] at hFound
      tauto
    · exact hFound

theorem readStream_inside
    {found : List UInt8 × List UInt8}
    (hRun : readStream w metadata c = .ok (found, c')) :
    Inside found.2 metadata := by
  unfold readStream at hRun
  rcases bind_eq_ok hRun with ⟨streamOffset, -, hRun⟩
  rcases bind_eq_ok hRun with ⟨streamSize, -, hRun⟩
  rcases bind_eq_ok hRun with ⟨name, -, hRun⟩
  rcases bind_eq_ok hRun with ⟨streamEnd, -, hRun⟩
  rcases bind_eq_ok hRun with ⟨region, hRegion, hRun⟩
  cases hRun
  have hSlice := orFail_eq_ok (lift_eq_ok hRegion).1
  exact ⟨_, (slice_lies hSlice).1⟩

theorem readStreams_inside
    {streams streams' : Streams}
    (hStreams : streams.Inside metadata)
    (hRun : readStreams w metadata n streams c = .ok (streams', c')) :
    streams'.Inside metadata := by
  induction n generalizing streams c with
  | zero =>
      cases hRun
      exact hStreams
  | succ n ih =>
      rcases bind_eq_ok hRun with ⟨found, hFound, hRun⟩
      exact ih (hStreams.put (readStream_inside hFound)) hRun

theorem readRoot_inside
    (hRun : readRoot w metadata c = .ok (streams, c')) :
    streams.Inside metadata := by
  unfold readRoot at hRun
  rcases bind_eq_ok hRun with ⟨signature, -, hRun⟩
  dsimp only at hRun
  split at hRun
  · cases hRun
  · rcases bind_eq_ok hRun with ⟨_, -, hRun⟩
    rcases bind_eq_ok hRun with ⟨versionLen, -, hRun⟩
    rcases bind_eq_ok hRun with ⟨versionEnd, -, hRun⟩
    rcases bind_eq_ok hRun with ⟨_, -, hRun⟩
    rcases bind_eq_ok hRun with ⟨_, -, hRun⟩
    rcases bind_eq_ok hRun with ⟨streamCount, -, hRun⟩
    apply readStreams_inside _ hRun
    intro region hNone
    simp [Streams.none] at hNone

namespace MetadataFile

/- The heaps and the rows of the tables lie in the image. -/
structure RegionsInside
    (md : MetadataFile)
    (image : List UInt8) :
    Prop where
  strings : Inside md.strings image
  blobs : Inside md.blobs image
  guids : Inside md.guids image
  tables : Inside md.tables image

variable {md : MetadataFile} {offset : UInt32}

theorem ofStreams_inside
    {cli : CliHeader}
    (hStreams : streams.Inside metadata)
    (hRun : ofStreams image sections cli streams = .ok md) :
    md.RegionsInside metadata := by
  rcases bind_eq_ok hRun with ⟨tilde, hTilde, hRun⟩
  rcases bind_eq_ok hRun with ⟨header, -, hRun⟩
  rcases bind_eq_ok hRun with ⟨tables, hTables, hRun⟩
  rcases bind_eq_ok hRun with ⟨strings, hStrings, hRun⟩
  rcases bind_eq_ok hRun with ⟨blobs, hBlobs, hRun⟩
  rcases bind_eq_ok hRun with ⟨guids, hGuids, hRun⟩
  cases hRun
  have hRows : Inside tables tilde :=
    ⟨_, sliceFrom_lies (orFail_eq_ok hTables)⟩
  constructor
  · exact hStreams strings (Or.inl (orFail_eq_ok hStrings))
  · exact hStreams blobs (Or.inr (Or.inl (orFail_eq_ok hBlobs)))
  · exact hStreams guids (Or.inr (Or.inr (Or.inl (orFail_eq_ok hGuids))))
  · have hStream := hStreams tilde
      (Or.inr (Or.inr (Or.inr (orFail_eq_ok hTilde))))
    exact hRows.trans hStream

theorem read_inside
    (hRun : read w image = .ok md) :
    md.RegionsInside image := by
  unfold read at hRun
  rcases bind_eq_ok hRun with ⟨pe, -, hRun⟩
  rcases bind_eq_ok hRun with ⟨found, -, hRun⟩
  rcases bind_eq_ok hRun with ⟨sections, -, hRun⟩
  rcases bind_eq_ok hRun with ⟨cliBacked, -, hRun⟩
  rcases bind_eq_ok hRun with ⟨cliRegion, -, hRun⟩
  rcases bind_eq_ok hRun with ⟨cli, -, hRun⟩
  rcases bind_eq_ok hRun with ⟨mdBacked, hBacked, hRun⟩
  rcases bind_eq_ok hRun with ⟨mdRegion, hRegion, hRun⟩
  rcases bind_eq_ok hRun with ⟨metadata, hMetadata, hRun⟩
  rcases bind_eq_ok hRun with ⟨streams, hStreams, hRun⟩
  rcases bind_eq_ok hStreams with ⟨r, hRoot, hPair⟩
  cases hPair
  rw [orFail_eq_ok hRegion] at hBacked
  have hInner : Inside metadata mdRegion :=
    ⟨_, (slice_lies (orFail_eq_ok hMetadata)).1⟩
  have hOuter := hInner.trans (rvaToSlice_lies hBacked)
  have hRegions := ofStreams_inside (readRoot_inside hRoot) hRun
  constructor
  · exact hRegions.strings.trans hOuter
  · exact hRegions.blobs.trans hOuter
  · exact hRegions.guids.trans hOuter
  · exact hRegions.tables.trans hOuter

/- Heap reads do not panic, and what they return lies in the heap. -/
structure HeapsExact
    (w : PointerWidth)
    (md : MetadataFile) :
    Prop where
  string_safe : ∀ offset, Safe (md.stringAt offset)
  string_lies : ∀ offset bytes, md.stringAt offset = .ok bytes →
    LiesAt bytes md.strings offset.toNat
  blob_safe : ∀ offset, Safe (md.blobAt w offset)
  blob_lies : ∀ offset bytes, md.blobAt w offset = .ok bytes →
    ∃ consumed, LiesAt bytes md.blobs (offset.toNat + consumed)
  guid_safe : ∀ index, Safe (md.guidAt w index)
  guid_lies : ∀ index bytes, md.guidAt w index = .ok bytes →
    0 < index.toNat ∧ bytes.length = 16 ∧
      LiesAt bytes md.guids ((index.toNat - 1) * 16)

theorem stringAt_safe
    (md : MetadataFile)
    (offset : UInt32) :
    Safe (md.stringAt offset) := by
  apply (Safe.orFail _ _).bind
  intro rest _
  apply (Safe.orFail _ _).bind
  intro stop hStop
  have hBound : stop < rest.length :=
    (List.findIdx?_eq_some_iff_getElem.mp (orFail_eq_ok hStop)).1
  rw [sliceAt_eq (Nat.zero_le stop) (Nat.le_of_lt hBound)]
  apply (Safe.ok _).bind
  intro bytes _
  split
  · exact Safe.ok bytes
  · exact Safe.refused _

theorem stringAt_lies
    (hRun : md.stringAt offset = .ok bytes) :
    LiesAt bytes md.strings offset.toNat := by
  rcases bind_eq_ok hRun with ⟨rest, hRest, hRun⟩
  rcases bind_eq_ok hRun with ⟨stop, -, hRun⟩
  rcases bind_eq_ok hRun with ⟨found, hFound, hRun⟩
  split at hRun
  · cases hRun
    have hSlice := orPanic_eq_ok hFound
    exact (slice_lies hSlice).1.trans (sliceFrom_lies (orFail_eq_ok hRest))
  · cases hRun

theorem blobAt_lies
    (hRun : md.blobAt w offset = .ok bytes) :
    ∃ consumed, LiesAt bytes md.blobs (offset.toNat + consumed) := by
  rcases bind_eq_ok hRun with ⟨rest, hRest, hRun⟩
  rcases bind_eq_ok hRun with ⟨r, -, hRun⟩
  rcases bind_eq_ok hRun with ⟨stop, -, hRun⟩
  have hSlice := (slice_lies (orFail_eq_ok hRun)).1
  exact ⟨r.2, hSlice.trans (sliceFrom_lies (orFail_eq_ok hRest))⟩

theorem guidAt_safe
    (md : MetadataFile)
    (index : UInt32) :
    Safe (md.guidAt w index) := by
  unfold guidAt
  split
  · exact Safe.refused _
  · rename_i hIndex
    have hPositive : 1 ≤ index.toNat := by
      apply Nat.one_le_iff_ne_zero.mpr
      intro hZero
      exact hIndex (UInt32.toNat_inj.mp hZero)
    rw [sub_eq hPositive]
    apply (Safe.ok _).bind
    intro before _
    apply (Safe.orFail _ _).bind
    intro start _
    apply (Safe.orFail _ _).bind
    intro stop hStop
    apply (Safe.orFail _ _).bind
    intro bytes hBytes
    have hSum := (checkedAdd_eq_some (orFail_eq_ok hStop)).1
    have hLength := (slice_lies (orFail_eq_ok hBytes)).2
    rw [if_pos (by omega)]
    exact Safe.ok bytes

theorem guidAt_lies
    {index : UInt32}
    (hRun : md.guidAt w index = .ok bytes) :
    0 < index.toNat ∧ bytes.length = 16 ∧
      LiesAt bytes md.guids ((index.toNat - 1) * 16) := by
  unfold guidAt at hRun
  split at hRun
  · cases hRun
  · rcases bind_eq_ok hRun with ⟨before, hBefore, hRun⟩
    rcases bind_eq_ok hRun with ⟨start, hStart, hRun⟩
    rcases bind_eq_ok hRun with ⟨stop, -, hRun⟩
    rcases bind_eq_ok hRun with ⟨found, hFound, hRun⟩
    split at hRun
    · rename_i hLength
      cases hRun
      have hProduct := (checkedMul_eq_some (orFail_eq_ok hStart)).1
      have hLies := (slice_lies (orFail_eq_ok hFound)).1
      have hMinus := checkedSub_eq_some (orPanic_eq_ok hBefore)
      rw [hProduct, hMinus.1] at hLies
      exact ⟨hMinus.2, hLength, hLies⟩
    · cases hRun

theorem heaps_exact
    (md : MetadataFile) :
    HeapsExact w md := by
  constructor
  · exact fun offset => stringAt_safe md offset
  · exact fun offset bytes hRun => stringAt_lies hRun
  · intro offset
    apply (Safe.orFail _ _).bind
    intro rest _
    apply (Safe.orFail _ _).bind
    intro r _
    apply (Safe.orFail _ _).bind
    exact fun stop _ => Safe.orFail _ _
  · exact fun offset bytes hRun => blobAt_lies hRun
  · exact fun index => guidAt_safe md index
  · exact fun index bytes hRun => guidAt_lies hRun

end MetadataFile

end Assembly

end Borzoi
