import Borzoi.Assembly.TypeEnc

/-
  Whether a type is encoded as the C# compiler writes it.

  The check adds up the arities of a name without saturating.  It comes to
  an end exactly when every sum it reaches is a word; it stops at the
  first part that C# does not write, so only the types before such a part
  count.

  Main declarations:
    * `encodedAsCSharp`
    * `asCSharp`
    * `SumsFit`
    * `encodedAsCSharp_eq`
    * `encoders_total_iff`
-/

namespace Borzoi

namespace Assembly

namespace DocId

def SPECIAL_TYPES :
    List (List Char) :=
  ["Void", "Boolean", "Char", "SByte", "Byte", "Int16", "UInt16", "Int32",
    "UInt32", "Int64", "UInt64", "Single", "Double", "IntPtr", "UIntPtr",
    "Object", "String"].map String.toList

def arrayShapeAsCSharp
    (rank : Nat)
    (sizes : List Nat)
    (lowerBounds : List Int) :
    Bool :=
  let vector := rank == 1 && sizes == [] && lowerBounds == []
  let multidimensional := decide (2 ≤ rank) && sizes == [] &&
    lowerBounds.length == rank && lowerBounds.all fun b => b == 0
  vector || multidimensional

/- A special type spelled by reference. -/
def spelledByReference
    (space : List (List Char))
    (name : List Char)
    (argCount : Nat) :
    Bool :=
  argCount == 0 && space == ["System".toList] && SPECIAL_TYPES.contains name

/- `iter().sum::<usize>()`, or nothing where it overflows. -/
def checkedSum
    (w : PointerWidth)
    (arities : List Nat) :
    Option Nat :=
  arities.foldlM (checkedAdd w) 0

mutual

/- `encoded_as_csharp`, or nothing where it panics. -/
def encodedAsCSharp
    (w : PointerWidth)
    (ty : TypeRef)
    (inSignature : Bool) :
    Option Bool :=
  match ty with
  | .Named space name typeArgs segmentArities => do
      let total ← checkedSum w segmentArities
      if total == typeArgs.length &&
          !(inSignature && spelledByReference space name typeArgs.length) then
        allEncodedAsCSharp w typeArgs
      else
        some false
  | .Array element rank sizes lowerBounds =>
      if arrayShapeAsCSharp rank sizes lowerBounds then
        encodedAsCSharp w element true
      else
        some false
  | .Ptr pointee => encodedAsCSharp w pointee true
  | .ByRef inner => encodedAsCSharp w inner true
  | .Primitive _ => some true
  | .VoidPtr => some true
  | .Var _ _ => some true

/- `all` over the arguments, which stops at the first that fails. -/
def allEncodedAsCSharp
    (w : PointerWidth)
    (types : List TypeRef) :
    Option Bool :=
  match types with
  | [] => some true
  | ty :: rest => do
      if ← encodedAsCSharp w ty true then
        allEncodedAsCSharp w rest
      else
        some false

end

mutual

/- The check with sums of any size. -/
def asCSharp
    (ty : TypeRef)
    (inSignature : Bool) :
    Bool :=
  match ty with
  | .Named space name typeArgs segmentArities =>
      segmentArities.sum == typeArgs.length &&
        !(inSignature && spelledByReference space name typeArgs.length) &&
        allAsCSharp typeArgs
  | .Array element rank sizes lowerBounds =>
      arrayShapeAsCSharp rank sizes lowerBounds && asCSharp element true
  | .Ptr pointee => asCSharp pointee true
  | .ByRef inner => asCSharp inner true
  | .Primitive _ => true
  | .VoidPtr => true
  | .Var _ _ => true

def allAsCSharp
    (types : List TypeRef) :
    Bool :=
  match types with
  | [] => true
  | ty :: rest => asCSharp ty true && allAsCSharp rest

end

mutual

/- Every sum of arities that the check reaches is a word. -/
def SumsFit
    (w : PointerWidth)
    (ty : TypeRef)
    (inSignature : Bool) :
    Prop :=
  match ty with
  | .Named space name typeArgs segmentArities =>
      segmentArities.sum ≤ w.usizeMax ∧
        (segmentArities.sum = typeArgs.length →
          (inSignature && spelledByReference space name typeArgs.length) =
            false →
          AllSumsFit w typeArgs)
  | .Array element rank sizes lowerBounds =>
      arrayShapeAsCSharp rank sizes lowerBounds = true →
        SumsFit w element true
  | .Ptr pointee => SumsFit w pointee true
  | .ByRef inner => SumsFit w inner true
  | .Primitive _ => True
  | .VoidPtr => True
  | .Var _ _ => True

/- The arguments up to the first that is not as C# writes it. -/
def AllSumsFit
    (w : PointerWidth)
    (types : List TypeRef) :
    Prop :=
  match types with
  | [] => True
  | ty :: rest =>
      SumsFit w ty true ∧ (asCSharp ty true = true → AllSumsFit w rest)

end

section Totality

variable {w : PointerWidth}

/- A sum overflows along the way only where the whole sum does. -/
theorem checkedSum_eq
    (arities : List Nat) :
    checkedSum w arities =
      if arities.sum ≤ w.usizeMax then some arities.sum else none := by
  have hFold : ∀ (arities : List Nat) (start : Nat),
      start ≤ w.usizeMax →
        arities.foldlM (checkedAdd w) start =
          if start + arities.sum ≤ w.usizeMax then
            some (start + arities.sum)
          else
            none := by
    intro arities
    induction arities with
    | nil =>
        intro start hStart
        rw [List.sum_nil, Nat.add_zero, if_pos hStart]
        rfl
    | cons arity rest ih =>
        intro start _
        rw [List.foldlM_cons, List.sum_cons, checkedAdd]
        by_cases hNext : start + arity ≤ w.usizeMax
        · rw [if_pos hNext]
          simp only [Option.bind_eq_bind, Option.bind_some]
          rw [ih _ hNext, Nat.add_assoc]
        · rw [if_neg hNext, if_neg (by omega)]
          rfl
  unfold checkedSum
  rw [hFold arities 0 (Nat.zero_le _), Nat.zero_add]

/- What the check returns, where it returns. -/
def Returns
    (result : Option Bool)
    (fits : Prop)
    (value : Bool) :
    Prop :=
  (fits → result = some value) ∧ (result.isSome = true → fits)

theorem allEncodedAsCSharp_eq
    {types : List TypeRef}
    (hEach : ∀ ty ∈ types,
      Returns (encodedAsCSharp w ty true) (SumsFit w ty true)
        (asCSharp ty true)) :
    Returns (allEncodedAsCSharp w types) (AllSumsFit w types)
      (allAsCSharp types) := by
  induction types with
  | nil =>
      rw [allEncodedAsCSharp, AllSumsFit, allAsCSharp]
      exact ⟨fun _ => rfl, fun _ => trivial⟩
  | cons ty rest ih =>
      have hHead := hEach ty List.mem_cons_self
      have hRest := ih fun t ht => hEach t (List.mem_cons_of_mem _ ht)
      rw [allEncodedAsCSharp, AllSumsFit, allAsCSharp]
      constructor
      · rintro ⟨hFits, hOthers⟩
        rw [hHead.1 hFits]
        simp only [Option.bind_eq_bind, Option.bind_some]
        by_cases hAs : asCSharp ty true = true
        · rw [if_pos hAs, hAs, Bool.true_and]
          exact hRest.1 (hOthers hAs)
        · rw [if_neg hAs, Bool.eq_false_iff.2 hAs, Bool.false_and]
      · intro hSome
        cases hRun : encodedAsCSharp w ty true with
        | none =>
            rw [hRun] at hSome
            cases hSome
        | some value =>
            have hIsSome : (encodedAsCSharp w ty true).isSome = true := by
              rw [hRun]
              rfl
            have hFits := hHead.2 hIsSome
            refine ⟨hFits, ?_⟩
            intro hAs
            rw [hHead.1 hFits, hAs] at hSome
            exact hRest.2 hSome

/- The check returns what exact sums say, just where its sums are words. -/
theorem encodedAsCSharp_eq
    (ty : TypeRef)
    (inSignature : Bool) :
    Returns (encodedAsCSharp w ty inSignature) (SumsFit w ty inSignature)
      (asCSharp ty inSignature) := by
  induction ty generalizing inSignature with
  | Primitive p =>
      rw [encodedAsCSharp, SumsFit, asCSharp]
      exact ⟨fun _ => rfl, fun _ => trivial⟩
  | Var index isMethod =>
      rw [encodedAsCSharp, SumsFit, asCSharp]
      exact ⟨fun _ => rfl, fun _ => trivial⟩
  | VoidPtr =>
      rw [encodedAsCSharp, SumsFit, asCSharp]
      exact ⟨fun _ => rfl, fun _ => trivial⟩
  | Ptr pointee ih =>
      rw [encodedAsCSharp, SumsFit, asCSharp]
      exact ih true
  | ByRef inner ih =>
      rw [encodedAsCSharp, SumsFit, asCSharp]
      exact ih true
  | Array element rank sizes lowerBounds ih =>
      rw [encodedAsCSharp, SumsFit, asCSharp]
      by_cases hShape : arrayShapeAsCSharp rank sizes lowerBounds = true
      · rw [if_pos hShape, hShape, Bool.true_and]
        exact ⟨fun hFits => (ih true).1 (hFits rfl),
          fun hSome _ => (ih true).2 hSome⟩
      · rw [if_neg hShape, Bool.eq_false_iff.2 hShape, Bool.false_and]
        exact ⟨fun _ => rfl, fun _ hTrue => absurd hTrue Bool.false_ne_true⟩
  | Named space name typeArgs segmentArities ih =>
      have hArgs := allEncodedAsCSharp_eq (w := w) fun a ha => ih a ha true
      rw [encodedAsCSharp, SumsFit, asCSharp, checkedSum_eq]
      by_cases hSum : segmentArities.sum ≤ w.usizeMax
      · rw [if_pos hSum]
        simp only [Option.bind_eq_bind, Option.bind_some]
        by_cases hTotal : segmentArities.sum = typeArgs.length
        · cases hSpecial : inSignature &&
              spelledByReference space name typeArgs.length with
          | true =>
              simp only [hTotal, Bool.not_true, Bool.and_false,
                Bool.false_eq_true, if_false, Bool.false_and]
              refine ⟨fun _ => rfl, fun _ => ⟨by omega, ?_⟩⟩
              intro _ hNever
              cases hNever
          | false =>
              simp only [hTotal, Bool.not_false, Bool.and_true,
                beq_self_eq_true, if_true, Bool.true_and]
              exact ⟨fun hFits => hArgs.1 (hFits.2 trivial trivial),
                fun hSome => ⟨by omega, fun _ _ => hArgs.2 hSome⟩⟩
        · have hDiffer : (segmentArities.sum == typeArgs.length) = false :=
            beq_false_of_ne hTotal
          simp only [hDiffer, Bool.false_and, Bool.false_eq_true, if_false]
          exact ⟨fun _ => rfl,
            fun _ => ⟨hSum, fun hSame => absurd hSame hTotal⟩⟩
      · rw [if_neg hSum]
        constructor
        · exact fun hFits => absurd hFits.1 hSum
        · intro hSome
          cases hSome

end Totality

/- Encoding a type never panics, and checking it does exactly when some
   sum of arities it reaches is no word. -/
theorem encoders_total_iff
    (w : PointerWidth)
    (type : MachineType w)
    (inSignature : Bool) :
    (typeEnc w type.ty).isSome = true ∧
        (encodedAsCSharp w type.ty inSignature).isSome = true ↔
      SumsFit w type.ty inSignature := by
  have hText : (typeEnc w type.ty).isSome = true := by
    rw [typeEnc_eq type.fits]
    rfl
  have hCheck := encodedAsCSharp_eq (w := w) type.ty inSignature
  constructor
  · exact fun hBoth => hCheck.2 hBoth.2
  · intro hFits
    refine ⟨hText, ?_⟩
    rw [hCheck.1 hFits]
    rfl

/- `A/B` with arities that add up to one more than a word. -/
def overflowing
    (w : PointerWidth) :
    MachineType w where
  ty := .Named [] "A/B".toList [] [w.usizeMax, 1]
  fits := by
    refine .Named _ _ _ _ ?_ (Nat.zero_le _) ?_
    · cases w <;> decide
    · exact fun _ hMem => absurd hMem List.not_mem_nil

/- The plain sum overflows where the saturating one does not. -/
theorem encoded_as_csharp_overflows :
    ¬ ∀ (w : PointerWidth) (type : MachineType w) (inSignature : Bool),
      (typeEnc w type.ty).isSome = true ∧
        (encodedAsCSharp w type.ty inSignature).isSome = true := by
  intro hClaim
  have hSome := (hClaim .w64 (overflowing .w64) true).2
  have hNone : encodedAsCSharp .w64 (overflowing .w64).ty true = none := by
    decide
  rw [hNone] at hSome
  cases hSome

end DocId

end Assembly

end Borzoi
