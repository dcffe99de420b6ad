import Borzoi.Assembly.Signature

/-
  The signature decoder stays within its levels.

  Every nested call is one deeper, and a call at the limit refuses.  So
  no decoder runs out of levels: it gives a value or an error.
-/

namespace Borzoi

namespace Assembly

open Program

variable {tables : ImageTables} {child : Decoder ModifiedType} {depth : Nat}

variable {α : Type}

theorem refuse_avoids
    (e : SigError) :
    Avoids .outOfLevels (refuse e : Decoder α) := by
  intro tape hFail
  cases hFail

theorem orTruncated_avoids
    (read : Cursor → Option (α × Cursor)) :
    Avoids .outOfLevels (orTruncated read) := by
  intro tape hFail
  unfold orTruncated at hFail
  split at hFail
  · cases hFail
  · cases hFail

theorem peek_avoids :
    Avoids .outOfLevels peek := by
  intro tape hFail
  cases hFail

theorem readScope_avoids :
    Avoids .outOfLevels (readScope tables) := by
  apply (orTruncated_avoids _).bind
  intro token
  split
  · exact Avoids.pure
  · exact refuse_avoids _

theorem readModsLoop_avoids
    (room : Nat) :
    Avoids .outOfLevels (readModsLoop tables room) := by
  induction room with
  | zero =>
      apply peek_avoids.bind
      intro next
      split
      · exact refuse_avoids _
      · exact Avoids.pure
  | succ room ih =>
      apply peek_avoids.bind
      intro next
      split
      · apply (orTruncated_avoids _).bind
        intro byte
        apply readScope_avoids.bind
        intro modifier
        apply ih.bind
        exact fun mods => Avoids.pure
      · exact Avoids.pure

theorem decodeWith_avoids
    {element : Nat → Decoder TypeSig}
    (hElement : ∀ depth', depth ≤ depth' →
      Avoids .outOfLevels (element depth')) :
    Avoids .outOfLevels (decodeWith tables element depth) := by
  apply (readModsLoop_avoids _).bind
  intro mods
  apply (hElement _ (Nat.le_add_right depth mods.length)).bind
  exact fun ty => Avoids.pure

section

variable (hChild : Avoids .outOfLevels child)

include hChild

theorem decodeArray_avoids :
    Avoids .outOfLevels (decodeArray child) := by
  apply hChild.bind
  intro ty
  apply (orTruncated_avoids _).bind
  intro rank
  split
  · exact refuse_avoids _
  · apply (orTruncated_avoids _).bind
    intro numSizes
    split
    · exact refuse_avoids _
    · apply ((orTruncated_avoids _).times _).bind
      intro sizes
      apply (orTruncated_avoids _).bind
      intro numLoBounds
      split
      · exact refuse_avoids _
      · apply ((orTruncated_avoids _).times _).bind
        exact fun lowerBounds => Avoids.pure

theorem decodePtr_avoids :
    Avoids .outOfLevels (decodePtr child) := by
  apply peek_avoids.bind
  intro next
  split
  · apply (orTruncated_avoids _).bind
    exact fun byte => Avoids.pure
  · apply hChild.bind
    exact fun ty => Avoids.pure

theorem decodeGenericInst_avoids :
    Avoids .outOfLevels (decodeGenericInst tables child) := by
  apply (orTruncated_avoids _).bind
  intro byte
  split
  · exact refuse_avoids _
  · apply readScope_avoids.bind
    intro scope
    apply (orTruncated_avoids _).bind
    intro count
    apply (hChild.times _).bind
    exact fun args => Avoids.pure

theorem decodePayload_avoids
    (byte : UInt8) :
    Avoids .outOfLevels (decodePayload tables child byte) := by
  have hIndex (make : Nat → TypeSig) :
      Avoids .outOfLevels (do let index ← readU32; return make index) :=
    (orTruncated_avoids _).bind fun index => Avoids.pure
  have hScope (make : TypeScope → TypeSig) :
      Avoids .outOfLevels
        (do let scope ← readScope tables; return make scope) :=
    readScope_avoids.bind fun scope => Avoids.pure
  have hNested (make : ModifiedType → TypeSig) :
      Avoids .outOfLevels (do let ty ← child; return make ty) :=
    hChild.bind fun ty => Avoids.pure
  unfold decodePayload
  -- one goal for each byte, in the order of the tests
  repeat' split
  · exact Avoids.pure
  · exact Avoids.pure
  · exact refuse_avoids _
  · exact hScope _
  · exact hScope _
  · exact hIndex _
  · exact hIndex _
  · exact hNested _
  · exact decodeArray_avoids hChild
  · exact decodePtr_avoids hChild
  · exact hNested _
  · exact decodeGenericInst_avoids hChild
  · exact refuse_avoids _

end

theorem element_avoids
    (levels : Nat)
    (hLevels : maxDepth < levels + depth)
    (hSome : 0 < levels) :
    Avoids .outOfLevels (decodeElement tables levels depth) := by
  induction levels generalizing depth with
  | zero => exact absurd hSome (Nat.lt_irrefl 0)
  | succ levels ih =>
      rw [decodeElement]
      split
      · exact refuse_avoids _
      · apply (orTruncated_avoids _).bind
        intro byte
        apply decodePayload_avoids
        apply decodeWith_avoids
        intro depth' hDeeper
        apply ih <;> omega

theorem decodeLevels_avoids
    (depth : Nat) :
    Avoids .outOfLevels (decodeElement tables decodeLevels depth) := by
  apply element_avoids
  · unfold decodeLevels
    omega
  · exact Nat.succ_pos _

theorem decode_avoids
    (depth : Nat) :
    Avoids .outOfLevels (decode tables depth) :=
  decodeWith_avoids fun depth' _ => decodeLevels_avoids depth'

theorem decodeRetType_avoids :
    Avoids .outOfLevels (decodeRetType tables) := by
  apply (readModsLoop_avoids _).bind
  intro mods
  apply peek_avoids.bind
  intro next
  split
  · apply (orTruncated_avoids _).bind
    exact fun byte => Avoids.pure
  · apply (decodeLevels_avoids _).bind
    exact fun ty => Avoids.pure

theorem readCallConv_avoids
    (first : UInt8) :
    Avoids .outOfLevels (readCallConv first) := by
  unfold readCallConv
  repeat' split
  · exact Avoids.pure
  · exact Avoids.pure
  · exact (orTruncated_avoids _).bind fun count => Avoids.pure
  · exact refuse_avoids _

theorem methodSig_avoids :
    Avoids .outOfLevels (methodSig tables) := by
  apply (orTruncated_avoids _).bind
  intro first
  apply (readCallConv_avoids first).bind
  intro convention
  apply (orTruncated_avoids _).bind
  intro paramCount
  apply decodeRetType_avoids.bind
  intro ret
  apply ((decode_avoids 0).times _).bind
  exact fun params => Avoids.pure

theorem fieldSig_avoids :
    Avoids .outOfLevels (fieldSig tables) := by
  apply (orTruncated_avoids _).bind
  intro tag
  split
  · exact refuse_avoids _
  · exact decode_avoids 0

theorem propertySig_avoids :
    Avoids .outOfLevels (propertySig tables) := by
  apply (orTruncated_avoids _).bind
  intro first
  split
  · exact refuse_avoids _
  · apply (orTruncated_avoids _).bind
    exact fun count => decode_avoids 0

theorem propertyIndexParams_avoids :
    Avoids .outOfLevels (propertyIndexParams tables) := by
  apply (orTruncated_avoids _).bind
  intro first
  split
  · exact refuse_avoids _
  · apply (orTruncated_avoids _).bind
    intro count
    apply (decode_avoids 0).bind
    exact fun ty => (decode_avoids 0).times count

/- A decoder that keeps to its levels gives a value or refuses. -/
theorem decodeBlob_decided
    {p : Decoder α}
    (hAvoids : Avoids .outOfLevels p)
    (blob : List UInt8) :
    (∃ x, decodeBlob p blob = .ok x) ∨
      ∃ e, decodeBlob p blob = .error (.refused e) := by
  have hRun := hAvoids (Cursor.new blob)
  unfold decodeBlob
  cases hEnd : p (Cursor.new blob) with
  | ok r => exact Or.inl ⟨r.1, rfl⟩
  | error halt =>
      cases halt with
      | refused e => exact Or.inr ⟨e, rfl⟩
      | outOfLevels => exact absurd hEnd hRun

end Assembly

end Borzoi
