import Borzoi.NuGet.Version

/-
  The order of versions.

  Every label has a canonical key: its number, or its bytes in lower
  case.  Labels are compared by their keys, and versions by their
  numbers and then by the keys of their labels.  So the comparison is a
  total preorder, and what is equal in it feeds a hasher the same.

  Main declarations:
    * `canonicalKey`
    * `releaseCmp`
    * `version_order_lawful`
-/

namespace Borzoi

namespace NuGet

open Std

/- What a label is compared by. -/
inductive CanonicalKey
  | Numeric (n : Int)
  | Alpha (bytes : List Nat)

def canonicalKey
    (label : List Char) :
    CanonicalKey :=
  match labelKey label with
  | .Numeric n => .Numeric n
  | .Alpha a => .Alpha (lowerBytes a)

/- Numbers come before texts. -/
def CanonicalKey.cmp
    (a b : CanonicalKey) :
    Ordering :=
  match a, b with
  | .Numeric x, .Numeric y => compare x y
  | .Numeric _, .Alpha _ => .lt
  | .Alpha _, .Numeric _ => .gt
  | .Alpha x, .Alpha y => compare x y

theorem compareLabels_eq
    (a b : List Char) :
    compareLabels a b =
      CanonicalKey.cmp (canonicalKey a) (canonicalKey b) := by
  unfold compareLabels canonicalKey
  cases labelKey a with
  | Numeric x =>
      cases labelKey b with
      | Numeric y =>
          rfl
      | Alpha y =>
          rfl
  | Alpha x =>
      cases labelKey b with
      | Numeric y =>
          rfl
      | Alpha y =>
          rfl

instance : TransCmp CanonicalKey.cmp where
  eq_swap := by
    intro a b
    cases a with
    | Numeric x =>
        cases b with
        | Numeric y =>
            have hSwap : compare x y = (compare y x).swap :=
              OrientedCmp.eq_swap
            exact hSwap
        | Alpha y =>
            rfl
    | Alpha x =>
        cases b with
        | Numeric y =>
            rfl
        | Alpha y =>
            have hSwap : compare x y = (compare y x).swap :=
              OrientedCmp.eq_swap
            exact hSwap
  isLE_trans := by
    intro a b c hab hbc
    cases a with
    | Numeric x =>
        cases c with
        | Alpha z =>
            rfl
        | Numeric z =>
            cases b with
            | Numeric y =>
                have hTrans : (compare x z).isLE :=
                  TransCmp.isLE_trans hab hbc
                exact hTrans
            | Alpha y =>
                cases hbc
    | Alpha x =>
        cases b with
        | Numeric y =>
            cases hab
        | Alpha y =>
            cases c with
            | Numeric z =>
                cases hbc
            | Alpha z =>
                have hTrans : (compare x z).isLE :=
                  TransCmp.isLE_trans hab hbc
                exact hTrans

theorem CanonicalKey.eq_of_cmp
    {a b : CanonicalKey}
    (hEq : CanonicalKey.cmp a b = .eq) :
    a = b := by
  cases a with
  | Numeric x =>
      cases b with
      | Numeric y =>
          have hSame : compare x y = .eq := hEq
          rw [LawfulEqCmp.eq_of_compare hSame]
      | Alpha y =>
          cases hEq
  | Alpha x =>
      cases b with
      | Numeric y =>
          cases hEq
      | Alpha y =>
          have hSame : compare x y = .eq := hEq
          rw [LawfulEqCmp.eq_of_compare hSame]

instance : LawfulEqCmp CanonicalKey.cmp where
  compare_self := ReflCmp.compare_self
  eq_of_compare := CanonicalKey.eq_of_cmp

/- The keys of the labels of a version. -/
def releaseKeys
    (v : NuGetVersion) :
    List CanonicalKey :=
  v.releaseLabels.map canonicalKey

/- Stable versions come last. -/
def releaseCmp
    (xs ys : List CanonicalKey) :
    Ordering :=
  match xs, ys with
  | [], [] => .eq
  | [], _ :: _ => .gt
  | _ :: _, [] => .lt
  | _ :: _, _ :: _ => List.compareLex CanonicalKey.cmp xs ys

/- The loop over the paired labels is a lexicographic comparison. -/
theorem firstDifference_eq
    (xs ys : List (List Char)) :
    (firstDifference (xs.zip ys)).then (compare xs.length ys.length) =
      List.compareLex CanonicalKey.cmp (xs.map canonicalKey)
        (ys.map canonicalKey) := by
  induction xs generalizing ys with
  | nil =>
      cases ys with
      | nil =>
          rfl
      | cons y ys =>
          exact Nat.compare_eq_lt.2 (Nat.succ_pos _)
  | cons x xs ih =>
      cases ys with
      | nil =>
          exact Nat.compare_eq_gt.2 (Nat.succ_pos _)
      | cons y ys =>
          have hLength : compare (x :: xs).length (y :: ys).length =
              compare xs.length ys.length := by
            simp only [List.length_cons, Nat.compare_eq_ite_lt,
              Nat.add_lt_add_iff_right]
          rw [List.zip_cons_cons, firstDifference, Ordering.then_assoc,
            hLength, ih, compareLabels_eq, List.map_cons, List.map_cons,
            List.compareLex_cons_cons]

theorem compareReleases_eq
    (v w : NuGetVersion) :
    v.compareReleases w = releaseCmp (releaseKeys v) (releaseKeys w) := by
  have hLoop := firstDifference_eq v.releaseLabels w.releaseLabels
  unfold NuGetVersion.compareReleases NuGetVersion.isPrerelease
    releaseKeys
  cases hv : v.releaseLabels with
  | nil =>
      cases hw : w.releaseLabels with
      | nil =>
          rfl
      | cons y ys =>
          rfl
  | cons x xs =>
      cases hw : w.releaseLabels with
      | nil =>
          rfl
      | cons y ys =>
          rw [hv, hw] at hLoop
          exact hLoop

instance : TransCmp releaseCmp where
  eq_swap := by
    intro xs ys
    cases xs with
    | nil =>
        cases ys with
        | nil =>
            rfl
        | cons y ys =>
            rfl
    | cons x xs =>
        cases ys with
        | nil =>
            rfl
        | cons y ys =>
            have hSwap : List.compareLex CanonicalKey.cmp (x :: xs)
                (y :: ys) =
                (List.compareLex CanonicalKey.cmp (y :: ys)
                  (x :: xs)).swap := OrientedCmp.eq_swap
            exact hSwap
  isLE_trans := by
    intro xs ys zs hxy hyz
    cases zs with
    | nil =>
        cases xs with
        | nil =>
            rfl
        | cons x xs =>
            rfl
    | cons z zs =>
        cases ys with
        | nil =>
            cases hyz
        | cons y ys =>
            cases xs with
            | nil =>
                cases hxy
            | cons x xs =>
                have hTrans : (List.compareLex CanonicalKey.cmp
                    (x :: xs) (z :: zs)).isLE :=
                  TransCmp.isLE_trans hxy hyz
                exact hTrans

theorem releaseCmp_eq_of_eq
    {xs ys : List CanonicalKey}
    (hEq : releaseCmp xs ys = .eq) :
    xs = ys := by
  cases xs with
  | nil =>
      cases ys with
      | nil =>
          rfl
      | cons y ys =>
          cases hEq
  | cons x xs =>
      cases ys with
      | nil =>
          cases hEq
      | cons y ys =>
          have hSame : List.compareLex CanonicalKey.cmp (x :: xs)
              (y :: ys) = .eq := hEq
          exact LawfulEqCmp.eq_of_compare hSame

/- The comparison of versions is a lexicographic one. -/
def keyCmp : NuGetVersion → NuGetVersion → Ordering :=
  compareLex
    (compareLex (compareOn NuGetVersion.major)
      (compareLex (compareOn NuGetVersion.minor)
        (compareLex (compareOn NuGetVersion.patch)
          (compareOn NuGetVersion.revision))))
    (fun v w => releaseCmp (releaseKeys v) (releaseKeys w))

instance : TransCmp
    (fun v w => releaseCmp (releaseKeys v) (releaseKeys w)) where
  eq_swap := OrientedCmp.eq_swap
  isLE_trans := TransCmp.isLE_trans

instance : TransCmp keyCmp :=
  inferInstanceAs (TransCmp (compareLex _ _))

theorem cmp_eq_keyCmp
    (v w : NuGetVersion) :
    v.cmp w = keyCmp v w := by
  unfold NuGetVersion.cmp
  rw [compareReleases_eq]
  rfl

instance : TransCmp NuGetVersion.cmp := by
  have hSame : NuGetVersion.cmp = keyCmp := by
    funext v w
    exact cmp_eq_keyCmp v w
  rw [hSame]
  infer_instance

/- Versions are equal when their numbers and keys are. -/
theorem eq_iff
    (v w : NuGetVersion) :
    v.eq w = true ↔
      v.major = w.major ∧ v.minor = w.minor ∧ v.patch = w.patch ∧
        v.revision = w.revision ∧ releaseKeys v = releaseKeys w := by
  unfold NuGetVersion.eq NuGetVersion.cmp NuGetVersion.compareNums
  rw [beq_iff_eq, Ordering.then_eq_eq, Ordering.then_eq_eq,
    Ordering.then_eq_eq, Ordering.then_eq_eq, compareReleases_eq,
    Nat.compare_eq_eq, Nat.compare_eq_eq, Nat.compare_eq_eq,
    Nat.compare_eq_eq]
  have hKeys : releaseCmp (releaseKeys v) (releaseKeys w) = .eq ↔
      releaseKeys v = releaseKeys w := by
    constructor
    · exact releaseCmp_eq_of_eq
    · intro hEq
      rw [hEq]
      exact ReflCmp.compare_self
  rw [hKeys]
  simp only [and_assoc]

/- Whether a number may hold the character. -/
def isNumeral
    (c : Char) :
    Bool :=
  isAsciiDigit c || c == '-'

/- Folding case does not touch numerals, and yields none. -/
theorem numeral_of_toLower
    {c d : Char}
    (hNumeral : isNumeral c = true)
    (hLower : c.toLower.toNat = d.toLower.toNat) :
    c = d := by
  have hCode : c.toNat = 45 ∨ (48 ≤ c.toNat ∧ c.toNat ≤ 57) := by
    unfold isNumeral isAsciiDigit at hNumeral
    simp only [Bool.or_eq_true, Bool.and_eq_true, decide_eq_true_eq,
      beq_iff_eq, Char.le_def, UInt32.le_iff_toNat_le] at hNumeral
    rcases hNumeral with hDigit | hDash
    · exact Or.inr hDigit
    · rw [hDash]
      exact Or.inl rfl
  have hFixed : c.toLower = c := by
    unfold Char.toLower
    apply dif_neg
    intro hUpper
    have hFrom : 65 ≤ c.toNat := UInt32.le_iff_toNat_le.1 hUpper.1
    omega
  rw [hFixed] at hLower
  by_cases hUpper : d.val ≥ 'A'.val ∧ d.val ≤ 'Z'.val
  · have hTo : d.toNat ≤ 90 := UInt32.le_iff_toNat_le.1 hUpper.2
    have hFrom : 65 ≤ d.toNat := UInt32.le_iff_toNat_le.1 hUpper.1
    have hShift : d.toLower.toNat = d.toNat + 32 := by
      unfold Char.toLower
      rw [dif_pos hUpper]
      have hSmall : d.toNat + 32 < 2 ^ 32 := by
        omega
      exact Nat.mod_eq_of_lt hSmall
    omega
  · have hSame : d.toLower = d := by
      unfold Char.toLower
      exact dif_neg hUpper
    rw [hSame] at hLower
    exact Char.toNat_inj.1 hLower

variable {a b : List Char} {v w : NuGetVersion} {σ : Type}

theorem eq_of_lowerBytes
    (hNumerals : a.all isNumeral = true)
    (hLower : lowerBytes a = lowerBytes b) :
    a = b := by
  induction a generalizing b with
  | nil =>
      cases b with
      | nil =>
          rfl
      | cons d b =>
          cases hLower
  | cons c a ih =>
      cases b with
      | nil =>
          cases hLower
      | cons d b =>
          rw [List.all_cons, Bool.and_eq_true] at hNumerals
          unfold lowerBytes at hLower ih
          rw [List.map_cons, List.map_cons, List.cons.injEq] at hLower
          rw [numeral_of_toLower hNumerals.1 hLower.1,
            ih hNumerals.2 hLower.2]

theorem numerals_of_labelNumeric
    {label : List Char}
    {n : Int}
    (hNumeric : labelNumeric label = some n) :
    label.all isNumeral = true := by
  have hDigits : ∀ digits : List Char, digits.all isAsciiDigit = true →
      digits.all isNumeral = true := by
    intro digits hAll
    apply List.all_eq_true.2
    intro c hMem
    unfold isNumeral
    rw [List.all_eq_true.1 hAll c hMem]
    rfl
  unfold labelNumeric at hNumeric
  split at hNumeric
  next negative digits hSign =>
    split at hNumeric
    · cases hNumeric
    next hForm =>
      have hAll : digits.all isAsciiDigit = true := by
        by_contra hNot
        exact hForm (Or.inr (Bool.not_eq_true _ ▸ hNot))
      split at hSign
      · cases hSign
        rw [List.all_cons, hDigits digits hAll]
        rfl
      · cases hSign
        exact hDigits label hAll

/- Labels that differ in case only have the same key. -/
theorem canonicalKey_of_lowerBytes
    (hLower : lowerBytes a = lowerBytes b) :
    canonicalKey a = canonicalKey b := by
  cases ha : labelNumeric a with
  | some n =>
      rw [eq_of_lowerBytes (numerals_of_labelNumeric ha) hLower]
  | none =>
      cases hb : labelNumeric b with
      | some m =>
          rw [eq_of_lowerBytes (numerals_of_labelNumeric hb) hLower.symm]
      | none =>
          unfold canonicalKey labelKey
          rw [ha, hb]
          exact congrArg CanonicalKey.Alpha hLower

theorem releaseKeys_of_pairs
    {xs ys : List (List Char)}
    (hLength : xs.length = ys.length)
    (hPairs : ((xs.zip ys).all fun pair =>
      eqIgnoreAsciiCase pair.1 pair.2) = true) :
    xs.map canonicalKey = ys.map canonicalKey := by
  induction xs generalizing ys with
  | nil =>
      cases ys with
      | nil =>
          rfl
      | cons y ys =>
          cases hLength
  | cons x xs ih =>
      cases ys with
      | nil =>
          cases hLength
      | cons y ys =>
          rw [List.zip_cons_cons, List.all_cons, Bool.and_eq_true]
            at hPairs
          have hHead : lowerBytes x = lowerBytes y :=
            eq_of_beq hPairs.1
          rw [List.map_cons, List.map_cons,
            canonicalKey_of_lowerBytes hHead,
            ih (Nat.succ.inj hLength) hPairs.2]

theorem eq_of_eqStrict
    (hStrict : v.eqStrict w = true) :
    v.eq w = true := by
  unfold NuGetVersion.eqStrict at hStrict
  simp only [Bool.and_eq_true, beq_iff_eq] at hStrict
  rcases hStrict with
    ⟨⟨⟨⟨⟨hMajor, hMinor⟩, hPatch⟩, hRevision⟩, hLength⟩, hPairs⟩
  apply (eq_iff v w).2
  exact ⟨hMajor, hMinor, hPatch, hRevision,
    releaseKeys_of_pairs hLength hPairs⟩

/- The writes for one key. -/
def hashKey
    {σ : Type}
    (h : Hasher σ)
    (key : CanonicalKey)
    (state : σ) :
    σ :=
  match key with
  | .Numeric n => h.writeI32 n (h.writeU8 0 state)
  | .Alpha bytes =>
      h.writeU8 0xff
        (bytes.foldl (fun s b => h.writeU8 b s) (h.writeU8 1 state))

theorem hashLabel_eq
    (h : Hasher σ)
    (label : List Char)
    (state : σ) :
    NuGetVersion.hashLabel h label state =
      hashKey h (canonicalKey label) state := by
  unfold NuGetVersion.hashLabel canonicalKey
  cases labelKey label with
  | Numeric n =>
      rfl
  | Alpha a =>
      rfl

/- The labels reach the hasher through their keys. -/
theorem hashLabels_eq
    (h : Hasher σ)
    (labels : List (List Char))
    (state : σ) :
    labels.foldl (fun s label => NuGetVersion.hashLabel h label s)
        state =
      (labels.map canonicalKey).foldl (fun s key => hashKey h key s)
        state := by
  induction labels generalizing state with
  | nil =>
      rfl
  | cons label labels ih =>
      rw [List.foldl_cons, List.map_cons, List.foldl_cons, hashLabel_eq,
        ih]

theorem hash_of_eq
    (h : Hasher σ)
    (hEq : v.eq w = true)
    (state : σ) :
    v.hash h state = w.hash h state := by
  rcases (eq_iff v w).1 hEq with
    ⟨hMajor, hMinor, hPatch, hRevision, hKeys⟩
  unfold releaseKeys at hKeys
  have hLength : v.releaseLabels.length = w.releaseLabels.length := by
    have hCount := congrArg List.length hKeys
    rw [List.length_map, List.length_map] at hCount
    exact hCount
  unfold NuGetVersion.hash
  rw [hashLabels_eq, hashLabels_eq, hKeys, hLength, hMajor, hMinor,
    hPatch, hRevision]

/-
  The order is reflexive, antisymmetric up to `==`, transitive and
  total.  Equal versions hash alike, and strict equality is finer.
-/
theorem version_order_lawful :
    (∀ v : NuGetVersion, v.cmp v = .eq) ∧
    (∀ v w : NuGetVersion, (v.cmp w).isLE → (w.cmp v).isLE →
      v.eq w = true) ∧
    (∀ u v w : NuGetVersion, (u.cmp v).isLE → (v.cmp w).isLE →
      (u.cmp w).isLE) ∧
    (∀ v w : NuGetVersion, (v.cmp w).isLE ∨ (w.cmp v).isLE) ∧
    (∀ v w : NuGetVersion, w.cmp v = (v.cmp w).swap) ∧
    (∀ v w : NuGetVersion, v.eq w = true ↔ v.cmp w = .eq) ∧
    (∀ (σ : Type) (h : Hasher σ) (state : σ) (v w : NuGetVersion),
      v.eq w = true → v.hash h state = w.hash h state) ∧
    (∀ v w : NuGetVersion, v.eqStrict w = true → v.eq w = true) := by
  have hEq : ∀ v w : NuGetVersion, v.eq w = true ↔ v.cmp w = .eq :=
    fun _ _ => beq_iff_eq
  have hSwap : ∀ v w : NuGetVersion, w.cmp v = (v.cmp w).swap := by
    intro v w
    rw [cmp_eq_keyCmp, cmp_eq_keyCmp]
    exact OrientedCmp.eq_swap
  refine ⟨?_, ?_, ?_, ?_, hSwap, hEq, ?_, fun _ _ => eq_of_eqStrict⟩
  · intro v
    rw [cmp_eq_keyCmp]
    exact ReflCmp.compare_self
  · intro v w hLe hGe
    rw [hSwap v w] at hGe
    apply (hEq v w).2
    cases hCmp : v.cmp w with
    | lt =>
        rw [hCmp] at hGe
        cases hGe
    | eq =>
        rfl
    | gt =>
        rw [hCmp] at hLe
        cases hLe
  · intro u v w hFirst hSecond
    rw [cmp_eq_keyCmp] at hFirst hSecond ⊢
    exact TransCmp.isLE_trans hFirst hSecond
  · intro v w
    rw [hSwap v w]
    cases v.cmp w with
    | lt =>
        exact Or.inl rfl
    | eq =>
        exact Or.inl rfl
    | gt =>
        exact Or.inr rfl
  · intro σ h state v w hSame
    exact hash_of_eq h hSame state

end NuGet

end Borzoi
