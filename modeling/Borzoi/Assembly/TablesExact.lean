import Borzoi.Assembly.MetadataSafe
import Borzoi.Assembly.Tables
import Borzoi.Program.Areas

/-
  The layout of the tables is exact.

  One list of widths gives the stride of a table and the span of each
  column.  One list of areas gives the offset of each table.  So every
  row is in its area and every column in its row.

  Main declarations:
    * `Col.bytes`
    * `sumWidths_eq`
    * `layOffsets_starts`
    * `RowsExact`
    * `LaidOut`
    * `container_total_and_exact`
-/

namespace Borzoi

namespace Assembly

open Program

variable {w : PointerWidth} {widths : Widths} {rows : TableId → UInt32}

/- The widths of the heap indices, as they are set. -/
def Widths.Set
    (widths : Widths) :
    Prop :=
  (widths.str = 2 ∨ widths.str = 4) ∧
    (widths.guid = 2 ∨ widths.guid = 4) ∧
    (widths.blob = 2 ∨ widths.blob = 4)

theorem widthsOf_set
    (heapSizes : HeapSizes) :
    (widthsOf heapSizes).Set := by
  have hWidth (wide : Bool) :
      (if wide then 4 else 2) = 2 ∨ (if wide then 4 else 2) = 4 := by
    cases wide <;> decide
  exact ⟨hWidth _, hWidth _, hWidth _⟩

theorem Coded.tagBits_le
    (c : Coded) :
    c.tagBits ≤ 5 := by
  cases c <;> decide

theorem Coded.width_returns
    (c : Coded)
    (rows : TableId → UInt32) :
    c.width rows = .ok 2 ∨ c.width rows = .ok 4 := by
  have hBits := c.tagBits_le
  unfold Coded.width
  rw [sub_eq (by omega)]
  change (shiftBy 64 (16 - c.tagBits) >>= _) = _ ∨
    (shiftBy 64 (16 - c.tagBits) >>= _) = _
  rw [shiftBy_eq (by omega)]
  by_cases hSmall : (((c.slots.filterMap id).map rows).max?.getD 0).toNat <
      1 <<< (16 - c.tagBits)
  · left
    change Except.ok (if _ then 2 else 4) = _
    rw [if_pos hSmall]
  · right
    change Except.ok (if _ then 2 else 4) = _
    rw [if_neg hSmall]

/- A column is two or four bytes wide. -/
theorem Col.width_returns
    (col : Col)
    (rows : TableId → UInt32)
    (hSet : widths.Set) :
    col.width widths rows = .ok 2 ∨ col.width widths rows = .ok 4 := by
  rcases hSet with ⟨hStr, hGuid, hBlob⟩
  cases col with
  | U16 => exact Or.inl rfl
  | U32 => exact Or.inr rfl
  | Str => exact hStr.imp (congrArg _) (congrArg _)
  | Guid => exact hGuid.imp (congrArg _) (congrArg _)
  | Blob => exact hBlob.imp (congrArg _) (congrArg _)
  | Simple t =>
      unfold Col.width
      by_cases hSmall : (rows t).toNat < 1 <<< 16
      · left
        dsimp only
        rw [if_pos hSmall]
      · right
        dsimp only
        rw [if_neg hSmall]
  | Coded c => exact c.width_returns rows

/- The width of a column as a number. -/
def Col.bytes
    (col : Col)
    (widths : Widths)
    (rows : TableId → UInt32) :
    Nat :=
  match col.width widths rows with
  | .ok n => n
  | .error _ => 0

theorem Col.width_eq
    (col : Col)
    (rows : TableId → UInt32)
    (hSet : widths.Set) :
    col.width widths rows = .ok (col.bytes widths rows) := by
  unfold Col.bytes
  rcases col.width_returns rows hSet with hTwo | hFour
  · rw [hTwo]
  · rw [hFour]

theorem Col.bytes_le
    (col : Col)
    (rows : TableId → UInt32)
    (hSet : widths.Set) :
    col.bytes widths rows ≤ 4 := by
  unfold Col.bytes
  rcases col.width_returns rows hSet with hTwo | hFour
  · rw [hTwo]
    decide
  · apply Nat.le_of_eq
    rw [hFour]

def colSizes
    (cols : List Col)
    (widths : Widths)
    (rows : TableId → UInt32) :
    List Nat :=
  cols.map fun col => col.bytes widths rows

theorem colSizes_sum_le
    (cols : List Col)
    (hSet : widths.Set) :
    (colSizes cols widths rows).sum ≤ 4 * cols.length := by
  unfold colSizes
  induction cols with
  | nil => exact Nat.le_refl 0
  | cons col rest ih =>
      rw [List.map_cons, List.sum_cons, List.length_cons]
      have hCol := col.bytes_le rows hSet
      omega

variable {cols : List Col} {ids : List TableId} {t : TableId} {tables : Tables}
variable {i : UInt32}

/- Below the largest word the widths just add up. -/
theorem sumWidths_eq
    {total : Nat}
    (hSet : widths.Set)
    (hFits : total + 4 * cols.length ≤ w.usizeMax) :
    sumWidths w widths rows cols total =
      .ok (total + (colSizes cols widths rows).sum) := by
  induction cols generalizing total with
  | nil => rfl
  | cons col rest ih =>
      have hCol := col.bytes_le rows hSet
      rw [List.length_cons] at hFits
      have hTail : sumWidths w widths rows rest
          (total + col.bytes widths rows) =
            .ok (total + col.bytes widths rows +
              (colSizes rest widths rows).sum) :=
        ih (by omega)
      have hSum : (colSizes (col :: rest) widths rows).sum =
          col.bytes widths rows + (colSizes rest widths rows).sum :=
        List.sum_cons
      rw [sumWidths, col.width_eq rows hSet]
      change (add w.usizeMax total (col.bytes widths rows) >>= _) = _
      rw [add_eq (by omega), hSum, ← Nat.add_assoc]
      exact hTail

theorem schema_short
    (hSchema : schema t = some cols) :
    cols.length ≤ 9 := by
  have hAll : ∀ entry ∈ schemas, entry.2.length ≤ 9 := by decide
  rcases List.lookup_eq_some_iff.mp hSchema with ⟨front, back, hSplit, -⟩
  apply hAll (t, cols)
  rw [hSplit]
  exact List.mem_append_right front List.mem_cons_self

theorem usizeMax_large
    (w : PointerWidth) :
    1024 ≤ w.usizeMax := by
  cases w <;> decide

/- The stride of a table with rows is the sum of its columns. -/
theorem strideOf_eq
    (hSet : widths.Set)
    (hRows : rows t ≠ 0)
    (hSchema : schema t = some cols) :
    strideOf w widths rows t = .ok (colSizes cols widths rows).sum := by
  have hShort := schema_short hSchema
  have hLarge := usizeMax_large w
  unfold strideOf
  rw [if_neg hRows, hSchema]
  change sumWidths w widths rows cols 0 = _
  rw [sumWidths_eq hSet (by omega), Nat.zero_add]

theorem strideOf_safe
    (t : TableId)
    (hSet : widths.Set) :
    Safe (strideOf w widths rows t) := by
  by_cases hRows : rows t = 0
  · unfold strideOf
    rw [if_pos hRows]
    exact Safe.ok 0
  · cases hSchema : schema t with
    | none =>
        unfold strideOf
        rw [if_neg hRows, hSchema]
        exact Safe.refused _
    | some cols => exact Safe.of_ok (strideOf_eq hSet hRows hSchema)

theorem layStrides_safe
    (ids : List TableId)
    (hSet : widths.Set) :
    Safe (layStrides w widths rows ids) := by
  induction ids with
  | nil => exact Safe.ok _
  | cons t rest ih =>
      apply (strideOf_safe t hSet).bind
      intro size _
      apply ih.bind
      exact fun strides _ => Safe.ok _

theorem layStrides_eq
    {strides : TableId → Nat}
    (hRun : layStrides w widths rows ids = .ok strides) :
    ∀ t ∈ ids, strideOf w widths rows t = .ok (strides t) := by
  induction ids generalizing strides with
  | nil =>
      intro t hMem
      cases hMem
  | cons head rest ih =>
      rcases bind_eq_ok hRun with ⟨size, hSize, hRun⟩
      rcases bind_eq_ok hRun with ⟨tail, hTail, hRun⟩
      cases hRun
      intro t hMem
      by_cases hHead : t = head
      · subst hHead
        rw [Function.update_self]
        exact hSize
      · rw [Function.update_of_ne hHead]
        exact ih hTail t (List.mem_of_ne_of_mem hHead hMem)

/- The bytes of a table. -/
def area
    (rows : TableId → UInt32)
    (stride : TableId → Nat)
    (t : TableId) :
    Nat :=
  (rows t).toNat * stride t

theorem layOffsets_safe
    (stride : TableId → Nat)
    (ids : List TableId)
    (running : Nat) :
    Safe (layOffsets w rows stride ids running) := by
  induction ids generalizing running with
  | nil => exact Safe.ok _
  | cons t rest ih =>
      apply (Safe.orFail _ _).bind
      intro bytes _
      apply (Safe.orFail _ _).bind
      intro next _
      apply (ih next).bind
      exact fun laid _ => Safe.ok _

/-
  Each table starts where the areas before it end, and the last total
  is the end of all and a word.
-/
theorem layOffsets_starts
    {stride : TableId → Nat}
    {running : Nat}
    {laid : (TableId → Nat) × Nat}
    (hNodup : ids.Nodup)
    (hRun : layOffsets w rows stride ids running = .ok laid) :
    (∀ i, (hIndex : i < ids.length) →
      laid.1 ids[i] = running + areaStart (ids.map (area rows stride)) i) ∧
      laid.2 = running + (ids.map (area rows stride)).sum ∧
      (running ≤ w.usizeMax → laid.2 ≤ w.usizeMax) := by
  induction ids generalizing running laid with
  | nil =>
      cases hRun
      refine ⟨?_, rfl, id⟩
      intro i hIndex
      exact absurd hIndex (Nat.not_lt_zero i)
  | cons t rest ih =>
      rcases bind_eq_ok hRun with ⟨bytes, hBytes, hRun⟩
      rcases bind_eq_ok hRun with ⟨next, hNext, hRun⟩
      rcases bind_eq_ok hRun with ⟨tail, hTail, hRun⟩
      cases hRun
      have hArea : bytes = area rows stride t :=
        (checkedMul_eq_some (orFail_eq_ok hBytes)).1
      have hSum := checkedAdd_eq_some (orFail_eq_ok hNext)
      rcases ih (List.nodup_cons.mp hNodup).2 hTail with
        ⟨hStarts, hEnd, hWord⟩
      refine ⟨?_, ?_, fun _ => hWord hSum.2⟩
      · intro i hIndex
        cases i with
        | zero =>
            rw [areaStart_zero]
            exact Function.update_self t running tail.1
        | succ i =>
            have hRest : i < rest.length := Nat.lt_of_succ_lt_succ hIndex
            have hOther : rest[i] ≠ t := by
              intro hEq
              apply (List.nodup_cons.mp hNodup).1
              rw [← hEq]
              exact List.getElem_mem hRest
            change Function.update tail.1 t running rest[i] = _
            rw [Function.update_of_ne hOther, hStarts i hRest,
              List.map_cons, areaStart_cons]
            omega
      · rw [List.map_cons, List.sum_cons]
        omega

------------------------------------------------------------
-- Rows
------------------------------------------------------------

/- What a layout promises. -/
structure RowsExact
    (w : PointerWidth)
    (tables : Tables) :
    Prop where
  first : tables.offset 0 = 0
  consecutive : ∀ t s : TableId, s.val = t.val + 1 →
    tables.offset s =
      tables.offset t + area tables.md.rows tables.stride t
  disjoint : ∀ t s : TableId, t < s →
    tables.offset t + area tables.md.rows tables.stride t ≤ tables.offset s
  inside : ∀ t : TableId,
    tables.offset t + area tables.md.rows tables.stride t ≤
      tables.md.tables.length
  row_reads : ∀ (t : TableId) (i : UInt32), i < tables.rowCount t →
    ∃ row cols,
      tables.row w t i = .ok row ∧ schema t = some cols ∧
      row.bytes.length = tables.stride t ∧
      LiesAt row.bytes tables.md.tables
        (tables.offset t + i.toNat * tables.stride t) ∧
      (i.toNat + 1) * tables.stride t ≤
        area tables.md.rows tables.stride t ∧
      ∀ col < cols.length, ∃ off width value,
        tables.colSpan w t col = .ok (off, width) ∧
        0 < width ∧ off + width ≤ tables.stride t ∧
        row.uint w tables col = .ok value
  row_refused : ∀ (t : TableId) (i : UInt32), tables.rowCount t ≤ i →
    tables.row w t i = .error (.refused .TableIndexOutOfRange)

/- Up to four bytes fit in the value. -/
theorem gather_returns
    (bytes : List UInt8)
    (i : Nat)
    (value : UInt32)
    (hFits : i + bytes.length ≤ 4) :
    ∃ value', gather bytes i value = .ok value' := by
  induction bytes generalizing i value with
  | nil => exact ⟨value, rfl⟩
  | cons b rest ih =>
      rw [List.length_cons] at hFits
      rw [gather, shiftBy_eq (by omega)]
      exact ih (i + 1) _ (by omega)

theorem colSpan_eq
    {i : Nat}
    (hSet : tables.widths.Set)
    (hSchema : schema t = some cols)
    (hIndex : i < cols.length) :
    tables.colSpan w t i =
      .ok (areaStart (colSizes cols tables.widths tables.md.rows) i,
        cols[i].bytes tables.widths tables.md.rows) := by
  have hShort := schema_short hSchema
  have hLarge := usizeMax_large w
  have hFront : sumWidths w tables.widths tables.md.rows (cols.take i) 0 =
      .ok (areaStart (colSizes cols tables.widths tables.md.rows) i) := by
    rw [sumWidths_eq hSet (by rw [List.length_take]; omega), Nat.zero_add]
    unfold areaStart colSizes
    rw [List.map_take]
  have hCol : cols[i]? = some cols[i] := List.getElem?_eq_getElem hIndex
  unfold Tables.colSpan
  rw [hSchema]
  change (sliceAt cols 0 i >>= _) = _
  rw [sliceAt_eq (Nat.zero_le i) (Nat.le_of_lt hIndex), List.drop_zero,
    Nat.sub_zero]
  change (sumWidths w tables.widths tables.md.rows (cols.take i) 0 >>= _) = _
  rw [hFront]
  change (orPanic .SliceOutOfRange cols[i]? >>= _) = _
  rw [hCol]
  change (cols[i].width tables.widths tables.md.rows >>= _) = _
  rw [Col.width_eq _ _ hSet]
  rfl

theorem Col.bytes_pos
    (col : Col)
    (rows : TableId → UInt32)
    (hSet : widths.Set) :
    0 < col.bytes widths rows := by
  unfold Col.bytes
  rcases col.width_returns rows hSet with hTwo | hFour
  · rw [hTwo]
    exact Nat.two_pos
  · rw [hFour]
    exact Nat.succ_pos 3

/- A column of a whole row is in the row and is read. -/
theorem uint_returns
    {row : Row}
    {i : Nat}
    (hSet : tables.widths.Set)
    (hSchema : schema row.table = some cols)
    (hStride : row.bytes.length =
      (colSizes cols tables.widths tables.md.rows).sum)
    (hIndex : i < cols.length) :
    ∃ off width value,
      tables.colSpan w row.table i = .ok (off, width) ∧
      0 < width ∧ off + width ≤ row.bytes.length ∧
      row.uint w tables i = .ok value := by
  have hSpan : tables.colSpan w row.table i = _ :=
    colSpan_eq hSet hSchema hIndex
  have hSize : i < (colSizes cols tables.widths tables.md.rows).length := by
    unfold colSizes
    rw [List.length_map]
    exact hIndex
  have hGet : (colSizes cols tables.widths tables.md.rows)[i] =
      cols[i].bytes tables.widths tables.md.rows :=
    List.getElem_map _
  have hInside := area_end_le_sum hSize
  rw [hGet, ← hStride] at hInside
  have hWidth := Col.bytes_le cols[i] tables.md.rows hSet
  have hShort := schema_short hSchema
  have hSum : (colSizes cols tables.widths tables.md.rows).sum ≤
      4 * cols.length := colSizes_sum_le cols hSet
  have hLarge := usizeMax_large w
  generalize hOff : areaStart (colSizes cols tables.widths tables.md.rows) i =
    off at hSpan hInside
  generalize hBytes : cols[i].bytes tables.widths tables.md.rows = width
    at hSpan hInside hWidth
  have hPos : 0 < width := by
    rw [← hBytes]
    exact Col.bytes_pos _ _ hSet
  have hGather : ∃ value,
      gather ((row.bytes.drop off).take (off + width - off)) 0 0 =
        .ok value := by
    apply gather_returns
    rw [List.length_take]
    omega
  rcases hGather with ⟨value, hGather⟩
  refine ⟨off, width, value, hSpan, hPos, hInside, ?_⟩
  unfold Row.uint
  rw [hSpan]
  change (add w.usizeMax off width >>= _) = _
  rw [add_eq (by omega)]
  change (sliceAt row.bytes off (off + width) >>= _) = _
  rw [sliceAt_eq (Nat.le_add_right off width) hInside]
  exact hGather

/- A row below the count is where the layout says. -/
theorem row_eq
    (hIndex : i < tables.rowCount t)
    (hInside : tables.offset t + area tables.md.rows tables.stride t ≤
      tables.md.tables.length)
    (hWord : tables.offset t + area tables.md.rows tables.stride t ≤
      w.usizeMax) :
    ∃ row,
      tables.row w t i = .ok row ∧ row.table = t ∧
      row.bytes.length = tables.stride t ∧
      LiesAt row.bytes tables.md.tables
        (tables.offset t + i.toNat * tables.stride t) ∧
      (i.toNat + 1) * tables.stride t ≤
        area tables.md.rows tables.stride t := by
  have hLt : i.toNat + 1 ≤ (tables.md.rows t).toNat := hIndex
  have hArea : (i.toNat + 1) * tables.stride t ≤
      area tables.md.rows tables.stride t :=
    Nat.mul_le_mul_right _ hLt
  have hSucc : (i.toNat + 1) * tables.stride t =
      i.toNat * tables.stride t + tables.stride t :=
    Nat.succ_mul _ _
  generalize hStart : tables.offset t + i.toNat * tables.stride t = start
  have hStop : start + tables.stride t ≤ tables.md.tables.length := by
    omega
  have hSlice : slice tables.md.tables start (start + tables.stride t) =
      some _ :=
    slice_some (Nat.le_add_right _ _) hStop
  have hLies := slice_lies hSlice
  refine ⟨⟨t, _⟩, ?_, rfl, ?_, hLies.1, hArea⟩
  · have hBefore : checkedMul w.usizeMax i.toNat (tables.stride t) =
        some (i.toNat * tables.stride t) :=
      if_pos (by omega)
    have hFrom : checkedAdd w.usizeMax (tables.offset t)
        (i.toNat * tables.stride t) = some start := by
      unfold checkedAdd
      rw [if_pos (by omega), hStart]
    have hTo : checkedAdd w.usizeMax start (tables.stride t) =
        some (start + tables.stride t) :=
      if_pos (by omega)
    have hNot : ¬ tables.md.rows t ≤ i := Nat.not_le.mpr hIndex
    unfold Tables.row
    rw [if_neg hNot]
    dsimp only
    rw [hBefore]
    change (orFail _ (checkedAdd w.usizeMax (tables.offset t)
      (i.toNat * tables.stride t)) >>= _) = _
    rw [hFrom]
    change (orFail _ (checkedAdd w.usizeMax start (tables.stride t)) >>= _) = _
    rw [hTo]
    change (orFail _ (slice tables.md.tables start
      (start + tables.stride t)) >>= _) = _
    rw [hSlice]
    rfl
  · rw [hLies.2]
    omega

theorem row_refused
    (hPast : tables.rowCount t ≤ i) :
    tables.row w t i = .error (.refused .TableIndexOutOfRange) := by
  have hRows : tables.md.rows t ≤ i := hPast
  unfold Tables.row
  rw [if_pos hRows]
  rfl

def Tables.areas
    (tables : Tables) :
    List Nat :=
  (List.finRange 64).map (area tables.md.rows tables.stride)

/- What `Tables::new` computes and checks. -/
structure LaidOut
    (w : PointerWidth)
    (tables : Tables) :
    Prop where
  set : tables.widths.Set
  strides : ∀ t,
    strideOf w tables.widths tables.md.rows t = .ok (tables.stride t)
  offsets : ∀ t, tables.offset t = areaStart tables.areas t.val
  inside : tables.areas.sum ≤ tables.md.tables.length
  word : tables.areas.sum ≤ w.usizeMax

theorem Tables.new_safe
    (md : MetadataFile) :
    Safe (Tables.new w md) := by
  apply (layStrides_safe _ (widthsOf_set _)).bind
  intro stride _
  apply (layOffsets_safe _ _ _).bind
  intro laid _
  split
  · exact Safe.refused _
  · exact Safe.ok _

theorem Tables.new_laidOut
    {md : MetadataFile}
    (hRun : Tables.new w md = .ok tables) :
    LaidOut w tables ∧ tables.md = md := by
  rcases bind_eq_ok hRun with ⟨stride, hStrides, hRun⟩
  rcases bind_eq_ok hRun with ⟨laid, hLaid, hRun⟩
  split at hRun
  case isTrue => cases hRun
  case isFalse hRegion =>
    cases hRun
    rcases layOffsets_starts (List.nodup_finRange 64) hLaid with
      ⟨hStarts, hEnd, hWord⟩
    rw [Nat.zero_add] at hEnd
    refine ⟨?_, rfl⟩
    constructor
    · exact widthsOf_set md.heapSizes
    · exact fun t => layStrides_eq hStrides t (List.mem_finRange t)
    · intro t
      have hIndex : t.val < (List.finRange 64).length := by
        rw [List.length_finRange]
        exact t.isLt
      have hStart := hStarts t.val hIndex
      rw [List.getElem_finRange, Nat.zero_add] at hStart
      exact hStart
    · exact hEnd ▸ Nat.not_lt.mp hRegion
    · exact hEnd ▸ hWord (Nat.zero_le _)

namespace LaidOut

variable {tables : Tables}

theorem index_lt
    (tables : Tables)
    (t : TableId) :
    t.val < tables.areas.length := by
  unfold Tables.areas
  rw [List.length_map, List.length_finRange]
  exact t.isLt

theorem areas_get
    (t : TableId) :
    tables.areas.get ⟨t.val, index_lt tables t⟩ =
      area tables.md.rows tables.stride t := by
  simp [Tables.areas]

theorem area_le
    (hLaid : LaidOut w tables)
    (t : TableId) :
    tables.offset t + area tables.md.rows tables.stride t ≤
      tables.areas.sum := by
  have hLe := area_end_le_sum (index_lt tables t)
  rw [hLaid.offsets t, ← areas_get t]
  exact hLe

/- A table with rows has a schema, and its columns fill the stride. -/
theorem schema_of_rows
    (hLaid : LaidOut w tables)
    (hIndex : i < tables.rowCount t) :
    ∃ cols, schema t = some cols ∧
      tables.stride t = (colSizes cols tables.widths tables.md.rows).sum := by
  have hRows : tables.md.rows t ≠ 0 := by
    intro hZero
    change i < tables.md.rows t at hIndex
    rw [hZero] at hIndex
    exact absurd hIndex UInt32.not_lt_zero
  have hStride := hLaid.strides t
  cases hSchema : schema t with
  | none =>
      unfold strideOf at hStride
      rw [if_neg hRows, hSchema] at hStride
      cases hStride
  | some cols =>
      rw [strideOf_eq hLaid.set hRows hSchema] at hStride
      exact ⟨cols, rfl, (Except.ok.inj hStride).symm⟩

/- A layout that is accepted keeps its promises. -/
theorem rows_exact
    (hLaid : LaidOut w tables) :
    RowsExact w tables := by
  constructor
  · exact hLaid.offsets 0
  · intro t s hNext
    have hSucc := areaStart_succ (index_lt tables t)
    rw [hLaid.offsets s, hLaid.offsets t, hNext, ← areas_get t]
    exact hSucc
  · intro t s hLater
    have hLe := area_end_le (index_lt tables t)
      (Fin.lt_def.mp hLater)
    rw [hLaid.offsets s, hLaid.offsets t, ← areas_get t]
    exact hLe
  · intro t
    exact Nat.le_trans (hLaid.area_le t) hLaid.inside
  · intro t i hIndex
    rcases hLaid.schema_of_rows hIndex with ⟨cols, hSchema, hStride⟩
    have hInside := Nat.le_trans (hLaid.area_le t) hLaid.inside
    have hWord := Nat.le_trans (hLaid.area_le t) hLaid.word
    rcases row_eq hIndex hInside hWord with
      ⟨row, hRow, hTable, hBytes, hLies, hArea⟩
    refine ⟨row, cols, hRow, hSchema, hBytes, hLies, hArea, ?_⟩
    intro col hCol
    subst hTable
    rw [← hBytes]
    exact uint_returns hLaid.set hSchema (hBytes.trans hStride) hCol
  · intro t i hPast
    exact row_refused hPast

end LaidOut

/-
  On any image the reader gives the tables or an error.  Where it gives
  tables, their rows and heaps are exact and lie in the image.
-/
theorem container_total_and_exact
    (w : PointerWidth)
    (image : Image w) :
    ((∃ tables, readTables w image = .ok tables) ∨
      ∃ e, readTables w image = .error (.refused e)) ∧
    ∀ tables, readTables w image = .ok tables →
      RowsExact w tables ∧ tables.md.HeapsExact w ∧
        tables.md.RegionsInside image.bytes := by
  constructor
  · have hSafe : Safe (readTables w image) :=
      (MetadataFile.read_safe image).bind fun md _ => Tables.new_safe md
    cases hRun : readTables w image with
    | ok tables => exact Or.inl ⟨tables, rfl⟩
    | error fail =>
        cases fail with
        | refused e => exact Or.inr ⟨e, rfl⟩
        | panic p => exact absurd hRun (hSafe p)
  · intro tables hRun
    rcases bind_eq_ok hRun with ⟨md, hRead, hNew⟩
    rcases Tables.new_laidOut hNew with ⟨hLaid, hSame⟩
    refine ⟨hLaid.rows_exact, MetadataFile.heaps_exact _, ?_⟩
    rw [hSame]
    exact MetadataFile.read_inside hRead

def zeros
    (n : Nat) :
    List UInt8 :=
  List.replicate n 0

def leBytes
    (width n : Nat) :
    List UInt8 :=
  (List.range width).map fun i => UInt8.ofNat (n >>> (8 * i))

/- A small image: one section, four streams and one module. -/
def tinyHeaders : List UInt8 :=
  dosMagic ++ zeros 58 ++ leBytes 4 0x40 ++
    peSignature ++ zeros 2 ++ leBytes 2 1 ++ zeros 12 ++ leBytes 2 224 ++
    zeros 2 ++ leBytes 2 0x10B ++ zeros 90 ++ leBytes 4 16 ++ zeros 112 ++
    leBytes 4 0x2000 ++ leBytes 4 32 ++ zeros 8

def tinySection : List UInt8 :=
  zeros 8 ++ leBytes 4 0x1000 ++ leBytes 4 0x2000 ++ leBytes 4 182 ++
    leBytes 4 352 ++ zeros 16

def tinyCli : List UInt8 :=
  zeros 8 ++ leBytes 4 0x2020 ++ leBytes 4 150 ++ zeros 16

def tinyRoot : List UInt8 :=
  leBytes 4 METADATA_SIGNATURE.toNat ++ zeros 8 ++ leBytes 4 4 ++ zeros 4 ++
    zeros 2 ++ leBytes 2 4 ++
    leBytes 4 88 ++ leBytes 4 38 ++ tildeName ++ zeros 2 ++
    leBytes 4 126 ++ leBytes 4 4 ++ stringsName ++ zeros 4 ++
    leBytes 4 130 ++ leBytes 4 4 ++ blobName ++ zeros 3 ++
    leBytes 4 134 ++ leBytes 4 16 ++ guidName ++ zeros 3

def tinyStreams : List UInt8 :=
  zeros 6 ++ [0, 1] ++ leBytes 8 1 ++ zeros 8 ++ leBytes 4 1 ++ zeros 10 ++
    [0, 0x41, 0, 0] ++ [0, 2, 7, 7] ++ List.replicate 16 9

def tinyImage : Image .w64 where
  bytes := tinyHeaders ++ tinySection ++ tinyCli ++ tinyRoot ++ tinyStreams
  length_le := by decide +kernel

theorem container_total_and_exact_tiny :
    ∃ tables, readTables .w64 tinyImage = .ok tables ∧
      RowsExact .w64 tables ∧ tables.md.HeapsExact .w64 ∧
        tables.md.RegionsInside tinyImage.bytes := by
  have hAccepted : (readTables .w64 tinyImage).toOption.isSome = true := by
    decide +kernel
  cases hRun : readTables .w64 tinyImage with
  | error fail =>
      rw [hRun] at hAccepted
      cases hAccepted
  | ok tables =>
      exact ⟨tables, rfl,
        (container_total_and_exact .w64 tinyImage).2 tables hRun⟩

end Assembly

end Borzoi
