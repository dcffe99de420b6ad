import Borzoi.Assembly.Compressed
import Borzoi.Assembly.SignatureTotal

/-
  Signatures are read back from their encoding.

  `encode` writes a position as the format lays it out.  A position
  fits when its integers are in the compressed ranges, its tokens are
  in the tables and its nesting stays below the limit.

  Main declarations:
    * `encode`
    * `FitsPosition`
    * `element_reads`
    * `signature_round_trip`
-/

namespace Borzoi

namespace Assembly

open Program

def tokenOf
    (scope : TypeScope) :
    Nat :=
  match scope with
  | .Definition i => (i + 1) <<< 2
  | .Reference i => (i + 1) <<< 2 ||| 1

def encodeToken
    (scope : TypeScope) :
    List UInt8 :=
  compressU32 (tokenOf scope)

def primitiveByte
    (p : Primitive) :
    UInt8 :=
  match p with
  | .Boolean => Elem.BOOLEAN
  | .Char => Elem.CHAR
  | .Int8 => Elem.I1
  | .UInt8 => Elem.U1
  | .Int16 => Elem.I2
  | .UInt16 => Elem.U2
  | .Int32 => Elem.I4
  | .UInt32 => Elem.U4
  | .Int64 => Elem.I8
  | .UInt64 => Elem.U8
  | .Float32 => Elem.R4
  | .Float64 => Elem.R8
  | .IntPtr => Elem.I
  | .UIntPtr => Elem.U
  | .String => Elem.STRING
  | .Object => Elem.OBJECT

def namedKindByte
    (k : NamedKind) :
    UInt8 :=
  match k with
  | .Class => Elem.CLASS
  | .ValueType => Elem.VALUETYPE

def modByte
    (m : CustomMod) :
    UInt8 :=
  if m.required then Elem.CMOD_REQD else Elem.CMOD_OPT

def encodeMods
    (mods : List CustomMod) :
    List UInt8 :=
  mods.flatMap fun m => modByte m :: encodeToken m.modifier

mutual

def encode : ModifiedType → List UInt8
  | .mk mods ty => encodeMods mods ++ encodeElement ty

/- A bare token has no kind and no place in a signature. -/
def encodeElement : TypeSig → List UInt8
  | .Primitive p => [primitiveByte p]
  | .Named (some kind) scope => namedKindByte kind :: encodeToken scope
  | .Named none _ => []
  | .Generic (some kind) scope args =>
      Elem.GENERICINST :: namedKindByte kind :: (encodeToken scope ++
        (compressU32 args.length ++ encodeAll args))
  | .Generic none _ _ => []
  | .TypeVar index => Elem.VAR :: compressU32 index
  | .MethodVar index => Elem.MVAR :: compressU32 index
  | .SzArray element => Elem.SZARRAY :: encode element
  | .Array element rank sizes lowerBounds =>
      Elem.ARRAY :: (encode element ++ (compressU32 rank ++
        (compressU32 sizes.length ++ (sizes.flatMap compressU32 ++
          (compressU32 lowerBounds.length ++
            lowerBounds.flatMap compressSigned)))))
  | .Ptr (some pointee) => Elem.PTR :: encode pointee
  | .Ptr none => [Elem.PTR, Elem.VOID]
  | .ByRef referent => Elem.BYREF :: encode referent
  | .TypedByRef => [Elem.TYPEDBYREF]

def encodeAll : List ModifiedType → List UInt8
  | [] => []
  | position :: rest => encode position ++ encodeAll rest

end

theorem encodeAll_eq
    (positions : List ModifiedType) :
    encodeAll positions = positions.flatMap encode := by
  induction positions with
  | nil => rfl
  | cons position rest ih =>
      rw [encodeAll, List.flatMap_cons, ih]

def encodeRetType
    (ret : RetType) :
    List UInt8 :=
  match ret with
  | .Void mods => encodeMods mods ++ [Elem.VOID]
  | .Type ty => encode ty

/- The first byte of a method signature. -/
def convByte
    (hasThis explicitThis : Bool)
    (convention : CallConv) :
    UInt8 :=
  (if hasThis then Conv.HASTHIS else 0) |||
    (if explicitThis then Conv.EXPLICITTHIS else 0) |||
    match convention with
    | .Default => 0
    | .VarArg => Conv.VARARG
    | .Generic _ => Conv.GENERIC

def encodeArity
    (convention : CallConv) :
    List UInt8 :=
  match convention with
  | .Generic count => compressU32 count
  | .Default | .VarArg => []

def encodeMethodSig
    (sig : DecodedMethodSig) :
    List UInt8 :=
  [convByte sig.hasThis sig.explicitThis sig.callingConvention] ++
    (encodeArity sig.callingConvention ++
      (compressU32 sig.paramTypes.length ++
        (encodeRetType sig.returnType ++ sig.paramTypes.flatMap encode)))

def encodeFieldSig
    (ty : ModifiedType) :
    List UInt8 :=
  [Conv.FIELD] ++ encode ty

def encodePropertySig
    (hasThis : Bool)
    (ty : ModifiedType)
    (params : List ModifiedType) :
    List UInt8 :=
  [Conv.PROPERTY ||| (if hasThis then Conv.HASTHIS else 0)] ++
    (compressU32 params.length ++ (encode ty ++ params.flatMap encode))

/- The token is in its table and in the compressed range. -/
def ScopeFits
    (tables : ImageTables)
    (scope : TypeScope) :
    Prop :=
  tokenOf scope ≤ maxCompressed ∧
    match scope with
    | .Definition i => i < tables.typeDefRows
    | .Reference i => i < tables.typeRefRows

mutual

/- A type that is decoded at the depth. -/
inductive Fits
    (tables : ImageTables) :
    Nat → TypeSig → Prop
  | primitive
      {depth : Nat} {p : Primitive}
      (hDepth : depth < maxDepth) :
      Fits tables depth (.Primitive p)
  | named
      {depth : Nat} {kind : NamedKind} {scope : TypeScope}
      (hDepth : depth < maxDepth)
      (hScope : ScopeFits tables scope) :
      Fits tables depth (.Named (some kind) scope)
  | generic
      {depth : Nat} {kind : NamedKind} {scope : TypeScope}
      {args : List ModifiedType}
      (hDepth : depth < maxDepth)
      (hScope : ScopeFits tables scope)
      (hCount : args.length ≤ maxCompressed)
      (hArgs : ∀ arg ∈ args, FitsPosition tables (depth + 1) arg) :
      Fits tables depth (.Generic (some kind) scope args)
  | typeVar
      {depth index : Nat}
      (hDepth : depth < maxDepth)
      (hIndex : index ≤ maxCompressed) :
      Fits tables depth (.TypeVar index)
  | methodVar
      {depth index : Nat}
      (hDepth : depth < maxDepth)
      (hIndex : index ≤ maxCompressed) :
      Fits tables depth (.MethodVar index)
  | szArray
      {depth : Nat} {element : ModifiedType}
      (hDepth : depth < maxDepth)
      (hElement : FitsPosition tables (depth + 1) element) :
      Fits tables depth (.SzArray element)
  | array
      {depth rank : Nat} {element : ModifiedType} {sizes : List Nat}
      {lowerBounds : List Int}
      (hDepth : depth < maxDepth)
      (hElement : FitsPosition tables (depth + 1) element)
      (hRank : 1 ≤ rank ∧ rank ≤ maxCompressed)
      (hNumSizes : sizes.length ≤ rank)
      (hSizes : ∀ size ∈ sizes, size ≤ maxCompressed)
      (hNumBounds : lowerBounds.length ≤ rank)
      (hBounds : ∀ bound ∈ lowerBounds, -2 ^ 28 ≤ bound ∧ bound < 2 ^ 28) :
      Fits tables depth (.Array element rank sizes lowerBounds)
  | voidPtr
      {depth : Nat}
      (hDepth : depth < maxDepth) :
      Fits tables depth (.Ptr none)
  | ptr
      {depth : Nat} {pointee : ModifiedType}
      (hDepth : depth < maxDepth)
      (hPointee : FitsPosition tables (depth + 1) pointee) :
      Fits tables depth (.Ptr (some pointee))
  | byRef
      {depth : Nat} {referent : ModifiedType}
      (hDepth : depth < maxDepth)
      (hReferent : FitsPosition tables (depth + 1) referent) :
      Fits tables depth (.ByRef referent)
  | typedByRef
      {depth : Nat}
      (hDepth : depth < maxDepth) :
      Fits tables depth .TypedByRef

/- Each modifier costs one level. -/
inductive FitsPosition
    (tables : ImageTables) :
    Nat → ModifiedType → Prop
  | mk
      {depth : Nat} {mods : List CustomMod} {ty : TypeSig}
      (hMods : ∀ m ∈ mods, ScopeFits tables m.modifier)
      (hType : Fits tables (depth + mods.length) ty) :
      FitsPosition tables depth (.mk mods ty)

end

def FitsRetType
    (tables : ImageTables)
    (ret : RetType) :
    Prop :=
  match ret with
  | .Void mods =>
      mods.length ≤ maxDepth ∧ ∀ m ∈ mods, ScopeFits tables m.modifier
  | .Type ty => FitsPosition tables 0 ty

structure FitsMethod
    (tables : ImageTables)
    (sig : DecodedMethodSig) :
    Prop where
  arity : ∀ count, sig.callingConvention = .Generic count →
    count ≤ maxCompressed
  ret : FitsRetType tables sig.returnType
  count : sig.paramTypes.length ≤ maxCompressed
  params : ∀ param ∈ sig.paramTypes, FitsPosition tables 0 param

variable {ty : TypeSig}

theorem Fits.depth_lt
    {tables : ImageTables}
    {depth : Nat}
    (hFits : Fits tables depth ty) :
    depth < maxDepth := by
  cases hFits <;> assumption

section Parts

variable {tables : ImageTables}

theorem readByte_reads
    (b : UInt8) :
    Reads readByte [b] b := by
  intro tape rest hUnread
  change orTruncated Cursor.readU8 tape = _
  unfold orTruncated Cursor.readU8
  rw [hUnread]
  rfl

theorem readU32_reads
    {n : Nat}
    (hRange : n ≤ maxCompressed) :
    Reads readU32 (compressU32 n) n := by
  intro tape rest hUnread
  change orTruncated Cursor.readCompressedU32 tape = _
  unfold orTruncated
  rw [readCompressedU32_compress hRange hUnread]

theorem readI32_reads
    {n : Int}
    (hLow : -2 ^ 28 ≤ n)
    (hHigh : n < 2 ^ 28) :
    Reads readI32 (compressSigned n) n := by
  intro tape rest hUnread
  change orTruncated Cursor.readCompressedI32 tape = _
  unfold orTruncated
  rw [readCompressedI32_compress hLow hHigh hUnread]

variable {bytes : List UInt8} {position : ModifiedType} {α : Type}
variable {scope : TypeScope} {b : UInt8} {x : α}

/- A reader that looks at its own first byte. -/
theorem Reads.peek
    {f : Option UInt8 → Decoder α}
    (hReads : Reads (f (some b)) (b :: bytes) x) :
    Reads (Assembly.peek >>= f) (b :: bytes) x := by
  intro tape rest hUnread
  have hPeek : Assembly.peek tape = .ok (some b, tape) := by
    change Except.ok (tape.unread.head?, tape) = _
    rw [hUnread]
    rfl
  rw [bind_ok hPeek]
  exact hReads tape rest hUnread

theorem resolveToken_tokenOf
    (hFits : ScopeFits tables scope) :
    resolveToken (tokenOf scope) tables = .ok scope := by
  rcases hFits with ⟨-, hRows⟩
  cases scope with
  | Definition i =>
      have hTag : (i + 1) <<< 2 &&& 3 = 0 := by
        rw [Nat.and_two_pow_sub_one_eq_mod _ 2, Nat.shiftLeft_eq]
        omega
      have hRid : (i + 1) <<< 2 >>> 2 = i + 1 :=
        Nat.shiftLeft_shiftRight _ _
      simp only [resolveToken, tokenOf, hTag, hRid, Nat.succ_ne_zero,
        if_false, Nat.add_sub_cancel]
      exact if_pos ⟨trivial, hRows⟩
  | Reference i =>
      have hSum : (i + 1) <<< 2 ||| 1 = 4 * (i + 1) + 1 := by
        rw [Nat.shiftLeft_eq, or_eq_add (i := 2) (Nat.dvd_mul_left _ _)]
        · omega
        · decide
      have hTag : (4 * (i + 1) + 1) &&& 3 = 1 := by
        rw [Nat.and_two_pow_sub_one_eq_mod _ 2]
        omega
      have hRid : (4 * (i + 1) + 1) >>> 2 = i + 1 := by
        rw [Nat.shiftRight_eq_div_pow]
        omega
      simp only [resolveToken, tokenOf, hSum, hTag, hRid, Nat.succ_ne_zero,
        if_false, Nat.add_sub_cancel, false_and]
      exact if_pos ⟨trivial, hRows⟩

theorem readScope_reads
    (hFits : ScopeFits tables scope) :
    Reads (readScope tables) (encodeToken scope) scope := by
  unfold readScope
  rw [← List.append_nil (encodeToken scope)]
  apply (readU32_reads hFits.1).bind
  rw [resolveToken_tokenOf hFits]
  exact Reads.pure

theorem startsMod_modByte
    (m : CustomMod) :
    startsMod (some (modByte m)) = true := by
  unfold modByte
  cases m.required <;> rfl

theorem modByte_required
    (m : CustomMod) :
    (modByte m == Elem.CMOD_REQD) = m.required := by
  unfold modByte
  cases m.required <;> rfl

/- A run of modifiers is read up to the byte behind it. -/
theorem readModsLoop_reads
    {f : List CustomMod → Decoder α}
    {mods : List CustomMod}
    {room : Nat}
    (hMods : ∀ m ∈ mods, ScopeFits tables m.modifier)
    (hRoom : mods.length ≤ room)
    (hStop : startsMod (some b) = false)
    (hReads : Reads (f mods) (b :: bytes) x) :
    Reads (readModsLoop tables room >>= f) (encodeMods mods ++ b :: bytes)
      x := by
  induction mods generalizing room f with
  | nil =>
      have hNone : Reads (Assembly.peek >>= fun next =>
          (if startsMod next then refuse .TooDeep else pure []) >>= f)
          (b :: bytes) x := by
        apply Reads.peek
        rw [hStop]
        exact hReads
      cases room with
      | zero => exact hNone
      | succ room =>
          rw [readModsLoop, bind_assoc]
          apply Reads.peek
          rw [hStop]
          exact hReads
  | cons m mods ih =>
      cases room with
      | zero => exact absurd hRoom (Nat.not_succ_le_zero _)
      | succ room =>
          have hRest : Reads
              (readModsLoop tables room >>= fun rest => f (m :: rest))
              (encodeMods mods ++ b :: bytes) x :=
            ih (fun m' hMem => hMods m' (List.mem_cons_of_mem _ hMem))
              (Nat.le_of_succ_le_succ hRoom) hReads
          have hScope := readScope_reads (hMods m List.mem_cons_self)
          have hBytes : encodeMods (m :: mods) ++ b :: bytes =
              modByte m :: (encodeToken m.modifier ++
                (encodeMods mods ++ b :: bytes)) := by
            simp [encodeMods]
          rw [hBytes, readModsLoop, bind_assoc]
          apply Reads.peek
          simp only [startsMod_modByte, if_true, bind_assoc, pure_bind]
          apply (readByte_reads (modByte m)).bind
          apply hScope.bind
          rw [modByte_required]
          exact hRest

------------------------------------------------------------
-- Reading Types
------------------------------------------------------------

variable {child : Decoder ModifiedType} {depth : Nat}

theorem decodeArray_reads
    {element : ModifiedType}
    {rank : Nat}
    {sizes : List Nat}
    {lowerBounds : List Int}
    (hElement : Reads child (encode element) element)
    (hRank : 1 ≤ rank ∧ rank ≤ maxCompressed)
    (hNumSizes : sizes.length ≤ rank)
    (hSizes : ∀ size ∈ sizes, size ≤ maxCompressed)
    (hNumBounds : lowerBounds.length ≤ rank)
    (hBounds : ∀ bound ∈ lowerBounds, -2 ^ 28 ≤ bound ∧ bound < 2 ^ 28) :
    Reads (decodeArray child)
      (encode element ++ (compressU32 rank ++
        (compressU32 sizes.length ++ (sizes.flatMap compressU32 ++
          (compressU32 lowerBounds.length ++
            lowerBounds.flatMap compressSigned)))))
      (.Array element rank sizes lowerBounds) := by
  unfold decodeArray
  apply hElement.bind
  apply (readU32_reads hRank.2).bind
  rw [if_neg (Nat.ne_of_gt hRank.1)]
  apply (readU32_reads (Nat.le_trans hNumSizes hRank.2)).bind
  rw [if_neg (Nat.not_lt.mpr hNumSizes)]
  apply (Reads.times fun size hMem => readU32_reads (hSizes size hMem)).bind
  apply (readU32_reads (Nat.le_trans hNumBounds hRank.2)).bind
  rw [if_neg (Nat.not_lt.mpr hNumBounds)]
  apply Reads.map
  apply Reads.times
  intro bound hMem
  exact readI32_reads (hBounds bound hMem).1 (hBounds bound hMem).2

theorem decodeGenericInst_reads
    {kind : NamedKind}
    {args : List ModifiedType}
    (hScope : ScopeFits tables scope)
    (hCount : args.length ≤ maxCompressed)
    (hArgs : ∀ arg ∈ args, Reads child (encode arg) arg) :
    Reads (decodeGenericInst tables child)
      ([namedKindByte kind] ++ (encodeToken scope ++
        (compressU32 args.length ++ encodeAll args)))
      (.Generic (some kind) scope args) := by
  unfold decodeGenericInst
  apply (readByte_reads (namedKindByte kind)).bind
  have hRest : Reads
      (do
        let scope ← readScope tables
        let count ← readU32
        let args ← times child count
        return TypeSig.Generic (some kind) scope args)
      (encodeToken scope ++ (compressU32 args.length ++ encodeAll args))
      (.Generic (some kind) scope args) := by
    apply (readScope_reads hScope).bind
    apply (readU32_reads hCount).bind
    apply Reads.map
    rw [encodeAll_eq]
    exact Reads.times hArgs
  cases kind with
  | Class => exact hRest
  | ValueType => exact hRest

/- The first byte of a type starts no modifier and is not `void`. -/
theorem Fits.head
    (hFits : Fits tables depth ty) :
    ∃ b bytes, encodeElement ty = b :: bytes ∧
      startsMod (some b) = false ∧ b ≠ Elem.VOID := by
  cases hFits with
  | @primitive _ p hDepth =>
      refine ⟨_, _, rfl, ?_⟩
      cases p <;> decide
  | @named _ kind scope hDepth hScope =>
      refine ⟨_, _, rfl, ?_⟩
      cases kind <;> decide
  | generic | typeVar | methodVar | szArray | array | voidPtr | ptr | byRef
  | typedByRef =>
      exact ⟨_, _, rfl, by decide, by decide⟩

theorem FitsPosition.head
    (hFits : FitsPosition tables depth position) :
    ∃ b bytes, encode position = b :: bytes ∧ b ≠ Elem.VOID := by
  cases hFits with
  | @mk _ mods ty hMods hType =>
      cases mods with
      | nil =>
          rcases hType.head with ⟨b, bytes, hBytes, -, hVoid⟩
          exact ⟨b, bytes, hBytes, hVoid⟩
      | cons m mods =>
          refine ⟨modByte m, _, rfl, ?_⟩
          unfold modByte
          cases m.required <;> decide

theorem decodePtr_reads
    {pointee : ModifiedType}
    (hFits : FitsPosition tables depth pointee)
    (hPointee : Reads child (encode pointee) pointee) :
    Reads (decodePtr child) (encode pointee) (.Ptr (some pointee)) := by
  rcases hFits.head with ⟨b, bytes, hBytes, hVoid⟩
  rw [hBytes] at hPointee ⊢
  unfold decodePtr
  apply Reads.peek
  rw [if_neg fun hSome => hVoid (Option.some.inj hSome)]
  exact hPointee.map

/- A type is its first byte and what is read behind it. -/
theorem decodePayload_reads
    (hFits : Fits tables depth ty)
    (hChild : ∀ position, FitsPosition tables (depth + 1) position →
      Reads child (encode position) position) :
    ∃ b bytes, encodeElement ty = [b] ++ bytes ∧
      Reads (decodePayload tables child b) bytes ty := by
  cases hFits with
  | @primitive _ p hDepth =>
      refine ⟨_, _, rfl, ?_⟩
      cases p <;> exact Reads.pure
  | @named _ kind scope hDepth hScope =>
      refine ⟨_, _, rfl, ?_⟩
      cases kind with
      | Class => exact (readScope_reads hScope).map
      | ValueType => exact (readScope_reads hScope).map
  | generic hDepth hScope hCount hArgs =>
      exact ⟨_, _, rfl, decodeGenericInst_reads hScope hCount
        fun arg hMem => hChild arg (hArgs arg hMem)⟩
  | typeVar hDepth hIndex =>
      exact ⟨_, _, rfl, (readU32_reads hIndex).map⟩
  | methodVar hDepth hIndex =>
      exact ⟨_, _, rfl, (readU32_reads hIndex).map⟩
  | szArray hDepth hElement =>
      exact ⟨_, _, rfl, (hChild _ hElement).map⟩
  | array hDepth hElement hRank hNumSizes hSizes hNumBounds hBounds =>
      exact ⟨_, _, rfl, decodeArray_reads (hChild _ hElement) hRank hNumSizes
        hSizes hNumBounds hBounds⟩
  | voidPtr hDepth =>
      refine ⟨Elem.PTR, [Elem.VOID], rfl, ?_⟩
      apply Reads.peek
      exact (readByte_reads Elem.VOID).map
  | ptr hDepth hPointee =>
      exact ⟨_, _, rfl, decodePtr_reads hPointee (hChild _ hPointee)⟩
  | byRef hDepth hReferent =>
      exact ⟨_, _, rfl, (hChild _ hReferent).map⟩
  | typedByRef hDepth =>
      exact ⟨_, _, rfl, Reads.pure⟩

/- A position is read when the type behind its modifiers is. -/
theorem decodeWith_reads
    {element : Nat → Decoder TypeSig}
    (hFits : FitsPosition tables depth position)
    (hElement : ∀ depth' ty, depth ≤ depth' → Fits tables depth' ty →
      Reads (element depth') (encodeElement ty) ty) :
    Reads (decodeWith tables element depth) (encode position) position := by
  cases hFits with
  | @mk _ mods ty hMods hType =>
      have hRoom : mods.length ≤ maxDepth - depth := by
        have hDepth := hType.depth_lt
        omega
      have hRead := hElement _ ty (Nat.le_add_right depth mods.length) hType
      rcases hType.head with ⟨b, bytes, hBytes, hStop, -⟩
      rw [hBytes] at hRead
      unfold decodeWith readMods
      rw [encode, hBytes]
      exact readModsLoop_reads hMods hRoom hStop hRead.map

/-
  By induction on the levels: the children of a type are one level
  deeper, and the levels go past the limit on the depth.
-/
theorem element_reads
    (levels : Nat)
    (hFits : Fits tables depth ty)
    (hLevels : maxDepth < levels + depth) :
    Reads (decodeElement tables levels depth) (encodeElement ty) ty := by
  induction levels generalizing depth ty with
  | zero =>
      have hDepth := hFits.depth_lt
      omega
  | succ levels ih =>
      have hChild : ∀ position, FitsPosition tables (depth + 1) position →
          Reads (decodeWith tables (decodeElement tables levels) (depth + 1))
            (encode position) position := by
        intro position hPosition
        apply decodeWith_reads hPosition
        intro depth' ty' hDeeper hFits'
        exact ih hFits' (by omega)
      rcases decodePayload_reads hFits hChild with ⟨b, bytes, hBytes, hRead⟩
      rw [decodeElement, if_neg (Nat.not_le.mpr hFits.depth_lt), hBytes]
      exact (readByte_reads b).bind hRead

theorem decode_reads
    (hFits : FitsPosition tables depth position) :
    Reads (decode tables depth) (encode position) position := by
  apply decodeWith_reads hFits
  intro depth' ty _ hType
  apply element_reads _ hType
  unfold decodeLevels
  omega

theorem decodeAll_reads
    {positions : List ModifiedType}
    (hFits : ∀ position ∈ positions, FitsPosition tables 0 position) :
    Reads (times (decode tables 0) positions.length)
      (positions.flatMap encode) positions :=
  Reads.times fun position hMem => decode_reads (hFits position hMem)

theorem decodeRetType_reads
    {ret : RetType}
    (hFits : FitsRetType tables ret) :
    Reads (decodeRetType tables) (encodeRetType ret) ret := by
  unfold decodeRetType readMods
  cases ret with
  | Void mods =>
      apply readModsLoop_reads hFits.2 hFits.1 (by decide)
      apply Reads.peek
      exact (readByte_reads Elem.VOID).map
  | «Type» position =>
      cases hFits with
      | @mk _ mods ty hMods hType =>
          have hRoom : mods.length ≤ maxDepth - 0 := by
            have hDepth := hType.depth_lt
            omega
          rw [Nat.zero_add] at hType
          have hRead := element_reads decodeLevels hType
            (by unfold decodeLevels; omega)
          rcases hType.head with ⟨b, bytes, hBytes, hStop, hVoid⟩
          rw [encodeRetType, encode, hBytes]
          rw [hBytes] at hRead
          apply readModsLoop_reads hMods hRoom hStop
          apply Reads.peek
          rw [if_neg fun hSome => hVoid (Option.some.inj hSome)]
          exact hRead.map

/- The count of a generic method is not in its first byte. -/
theorem convByte_generic
    (hasThis explicitThis : Bool)
    (count : Nat) :
    convByte hasThis explicitThis (.Generic count) =
      convByte hasThis explicitThis (.Generic 0) :=
  rfl

theorem convByte_hasThis
    (hasThis explicitThis : Bool)
    (convention : CallConv) :
    (convByte hasThis explicitThis convention &&& Conv.HASTHIS != 0) =
      hasThis := by
  cases convention with
  | Default => cases hasThis <;> cases explicitThis <;> rfl
  | VarArg => cases hasThis <;> cases explicitThis <;> rfl
  | Generic count =>
      rw [convByte_generic]
      cases hasThis <;> cases explicitThis <;> rfl

theorem convByte_explicitThis
    (hasThis explicitThis : Bool)
    (convention : CallConv) :
    (convByte hasThis explicitThis convention &&& Conv.EXPLICITTHIS != 0) =
      explicitThis := by
  cases convention with
  | Default => cases hasThis <;> cases explicitThis <;> rfl
  | VarArg => cases hasThis <;> cases explicitThis <;> rfl
  | Generic count =>
      rw [convByte_generic]
      cases hasThis <;> cases explicitThis <;> rfl

theorem readCallConv_reads
    (hasThis explicitThis : Bool)
    {convention : CallConv}
    (hArity : ∀ count, convention = .Generic count → count ≤ maxCompressed) :
    Reads (readCallConv (convByte hasThis explicitThis convention))
      (encodeArity convention) convention := by
  cases convention with
  | Default =>
      cases hasThis <;> cases explicitThis <;> exact Reads.pure
  | VarArg =>
      cases hasThis <;> cases explicitThis <;> exact Reads.pure
  | Generic count =>
      have hRead : Reads (do let n ← readU32; return CallConv.Generic n)
          (compressU32 count) (.Generic count) :=
        (readU32_reads (hArity count rfl)).map
      rw [convByte_generic]
      cases hasThis <;> cases explicitThis <;> exact hRead

theorem methodSig_reads
    {sig : DecodedMethodSig}
    (hFits : FitsMethod tables sig) :
    Reads (methodSig tables) (encodeMethodSig sig) sig := by
  unfold methodSig encodeMethodSig
  apply (readByte_reads _).bind
  apply (readCallConv_reads _ _ hFits.arity).bind
  apply (readU32_reads hFits.count).bind
  apply (decodeRetType_reads hFits.ret).bind
  rw [convByte_hasThis, convByte_explicitThis]
  exact (decodeAll_reads hFits.params).map

theorem fieldSig_reads
    {ty : ModifiedType}
    (hFits : FitsPosition tables 0 ty) :
    Reads (fieldSig tables) (encodeFieldSig ty) ty := by
  unfold fieldSig encodeFieldSig
  apply (readByte_reads _).bind
  exact decode_reads hFits

theorem propertyByte_conv
    (hasThis : Bool) :
    (Conv.PROPERTY ||| (if hasThis then Conv.HASTHIS else 0)) &&&
      Conv.CONV_MASK = Conv.PROPERTY := by
  cases hasThis <;> rfl

section Property

variable {hasThis : Bool} {ty : ModifiedType} {params : List ModifiedType}

/- The index parameters stand behind what is read. -/
theorem propertySig_reads
    (hFits : FitsPosition tables 0 ty)
    (hCount : params.length ≤ maxCompressed)
    {tape : Cursor}
    {rest : List UInt8}
    (hUnread : tape.unread = encodePropertySig hasThis ty params ++ rest) :
    ∃ tape', propertySig tables tape = .ok (ty, tape') := by
  have hReads : Reads (propertySig tables)
      ([Conv.PROPERTY ||| (if hasThis then Conv.HASTHIS else 0)] ++
        (compressU32 params.length ++ encode ty)) ty := by
    unfold propertySig
    apply (readByte_reads _).bind
    rw [if_neg (not_not.mpr (propertyByte_conv hasThis))]
    apply (readU32_reads hCount).bind
    exact decode_reads hFits
  refine ⟨_, hReads tape (params.flatMap encode ++ rest) ?_⟩
  rw [hUnread, encodePropertySig]
  simp only [List.append_assoc]

theorem propertyIndexParams_reads
    (hFits : FitsPosition tables 0 ty)
    (hCount : params.length ≤ maxCompressed)
    (hParams : ∀ param ∈ params, FitsPosition tables 0 param) :
    Reads (propertyIndexParams tables) (encodePropertySig hasThis ty params)
      params := by
  unfold propertyIndexParams encodePropertySig
  apply (readByte_reads _).bind
  rw [if_neg (not_not.mpr (propertyByte_conv hasThis))]
  apply (readU32_reads hCount).bind
  apply (decode_reads hFits).bind
  exact decodeAll_reads hParams

end Property

/- What is read from the front of a blob. -/
theorem decodeBlob_reads
    {p : Decoder α}
    {front : List UInt8}
    (hReads : Reads p front x)
    (rest : List UInt8) :
    decodeBlob p (front ++ rest) = .ok x := by
  unfold decodeBlob
  rw [hReads (Cursor.new (front ++ rest)) rest rfl]

end Parts

/-
  Every signature that fits is read back from its encoding, whatever
  follows it, and a type takes exactly its own bytes.  On any blob each
  decoder gives a value or an error within its levels.
-/
theorem signature_round_trip
    (tables : ImageTables) :
    (∀ ty, FitsPosition tables 0 ty →
      ∀ rest, decode tables 0 (Cursor.new (encode ty ++ rest)) =
        .ok (ty, ⟨encode ty ++ rest, (encode ty).length⟩)) ∧
    (∀ ty, FitsPosition tables 0 ty →
      ∀ rest, decodeType tables (encode ty ++ rest) = .ok ty) ∧
    (∀ ty, FitsPosition tables 0 ty →
      ∀ rest, decodeFieldSig tables (encodeFieldSig ty ++ rest) = .ok ty) ∧
    (∀ sig, FitsMethod tables sig →
      ∀ rest, decodeMethodSig tables (encodeMethodSig sig ++ rest) =
        .ok sig) ∧
    (∀ hasThis ty params, FitsPosition tables 0 ty →
      params.length ≤ maxCompressed →
      (∀ param ∈ params, FitsPosition tables 0 param) →
      ∀ rest,
        decodePropertySig tables
            (encodePropertySig hasThis ty params ++ rest) = .ok ty ∧
          decodePropertyIndexParams tables
            (encodePropertySig hasThis ty params ++ rest) = .ok params ∧
          propertySigHasThis (encodePropertySig hasThis ty params ++ rest) =
            some hasThis) ∧
    ∀ blob : List UInt8,
      ((∃ ty, decodeType tables blob = .ok ty) ∨
        ∃ e, decodeType tables blob = .error (.refused e)) ∧
      ((∃ sig, decodeMethodSig tables blob = .ok sig) ∨
        ∃ e, decodeMethodSig tables blob = .error (.refused e)) ∧
      ((∃ ty, decodeFieldSig tables blob = .ok ty) ∨
        ∃ e, decodeFieldSig tables blob = .error (.refused e)) ∧
      ((∃ ty, decodePropertySig tables blob = .ok ty) ∨
        ∃ e, decodePropertySig tables blob = .error (.refused e)) ∧
      ((∃ params, decodePropertyIndexParams tables blob = .ok params) ∨
        ∃ e, decodePropertyIndexParams tables blob =
          .error (.refused e)) := by
  refine ⟨?_, ?_, ?_, ?_, ?_, ?_⟩
  · intro ty hFits rest
    rw [decode_reads hFits (Cursor.new (encode ty ++ rest)) rest rfl]
    simp [Tape.skip, Cursor.new]
  · intro ty hFits rest
    exact decodeBlob_reads (decode_reads hFits) rest
  · intro ty hFits rest
    exact decodeBlob_reads (fieldSig_reads hFits) rest
  · intro sig hFits rest
    exact decodeBlob_reads (methodSig_reads hFits) rest
  · intro hasThis ty params hFits hCount hParams rest
    refine ⟨?_, ?_, ?_⟩
    · have hUnread : (Cursor.new
          (encodePropertySig hasThis ty params ++ rest)).unread =
            encodePropertySig hasThis ty params ++ rest :=
        rfl
      rcases propertySig_reads hFits hCount hUnread with ⟨tape', hRun⟩
      unfold decodePropertySig decodeBlob
      rw [hRun]
    · exact decodeBlob_reads (propertyIndexParams_reads hFits hCount hParams) rest
    · cases hasThis <;> rfl
  · intro blob
    exact ⟨decodeBlob_decided (decode_avoids 0) blob,
      decodeBlob_decided methodSig_avoids blob,
      decodeBlob_decided fieldSig_avoids blob,
      decodeBlob_decided propertySig_avoids blob,
      decodeBlob_decided propertyIndexParams_avoids blob⟩

/- `modreq` on the return type, a bounded array and a pointer to void. -/
def boundedMethod : DecodedMethodSig where
  hasThis := true
  explicitThis := false
  callingConvention := .Generic 2
  returnType :=
    .Type (.mk [⟨true, .Reference 0⟩] (.Named (some .Class) (.Definition 0)))
  paramTypes :=
    [.mk [] (.Array (.mk [] (.Primitive .Int32)) 2 [300] [-3, 5]),
      .mk [] (.Ptr none)]

theorem boundedMethod_fits :
    FitsMethod ⟨1, 1⟩ boundedMethod := by
  constructor
  · intro count hCount
    cases hCount
    decide
  · constructor
    · intro m hMem
      rw [List.mem_singleton] at hMem
      subst hMem
      exact ⟨by decide, Nat.zero_lt_one⟩
    · exact Fits.named (by decide) ⟨by decide, Nat.zero_lt_one⟩
  · decide
  · intro param hMem
    have hNone : ∀ m ∈ ([] : List CustomMod),
        ScopeFits ⟨1, 1⟩ m.modifier := by
      intro m hMem
      cases hMem
    have hCases : param = .mk [] (.Array (.mk [] (.Primitive .Int32)) 2 [300]
        [-3, 5]) ∨ param = .mk [] (.Ptr none) := by
      simpa [boundedMethod] using hMem
    rcases hCases with rfl | rfl
    · apply FitsPosition.mk hNone
      apply Fits.array
      · decide
      · exact FitsPosition.mk hNone (Fits.primitive (by decide))
      · decide
      · decide
      · decide
      · decide
      · decide
    · exact FitsPosition.mk hNone (Fits.voidPtr (by decide))

theorem signature_round_trip_bounded :
    decodeMethodSig ⟨1, 1⟩ (encodeMethodSig boundedMethod ++ [0]) =
      .ok boundedMethod :=
  (signature_round_trip ⟨1, 1⟩).2.2.2.1 boundedMethod boundedMethod_fits [0]

end Assembly

end Borzoi
