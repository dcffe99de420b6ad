import Borzoi.NuGet.Version
import Borzoi.Text.Decimal
import Mathlib.Data.List.GetD
import Mathlib.Data.List.TakeWhile

/-
  SDK versions.

  A version is a list of numbers with an optional prerelease suffix.  The
  numbers are compared as if zeros followed them, identifiers of a suffix
  as numbers where they fit 64 bits and as texts elsewhere.
-/

namespace Borzoi

namespace MSBuild

open Std
open Text
open NuGet (isAsciiDigit)

structure SdkVersion where
  numeric : List Nat
  prerelease : Option (List Char)
  deriving DecidableEq, Repr

/- A number may be written with a sign. -/
def afterPlus
    (s : List Char) :
    List Char :=
  match s with
  | '+' :: rest => rest
  | _ => s

/- `str::parse::<u64>`. -/
def parseU64
    (s : List Char) :
    Option Nat :=
  let digits := afterPlus s
  if digits = [] ∨ digits.all Char.isDigit = false then
    none
  else if Nat.ofDigitChars 10 digits 0 < 2 ^ 64 then
    some (Nat.ofDigitChars 10 digits 0)
  else
    none

/- `str::split_once`. -/
def splitOnce
    (mark : Char)
    (s : List Char) :
    Option (List Char × List Char) :=
  let head := s.takeWhile (· != mark)
  match s.drop head.length with
  | [] => none
  | _ :: tail => some (head, tail)

/- The test of `parse` for one identifier of the suffix. -/
def identAccepted
    (ident : List Char) :
    Bool :=
  !ident.isEmpty && ident.all (fun c => c.isAlphanum || c == '-') &&
    !(ident.all Char.isDigit && 1 < ident.length &&
      ident.head? == some '0')

/- The loop that pops zeros, on the reversed list. -/
def popZeros :
    List Nat → List Nat
  | 0 :: n :: rest => popZeros (n :: rest)
  | numeric => numeric

namespace SdkVersion

def major
    (v : SdkVersion) :
    Nat :=
  v.numeric.getD 0 0

def minor
    (v : SdkVersion) :
    Nat :=
  v.numeric.getD 1 0

/- `feature_band`. -/
def featureBand
    (v : SdkVersion) :
    Nat :=
  v.numeric.getD 2 0 / 100

/- `is_prerelease`. -/
def isPrerelease
    (v : SdkVersion) :
    Bool :=
  v.prerelease.isSome

/- The head and the suffix of a name. -/
def halves
    (name : List Char) :
    List Char × Option (List Char) :=
  match splitOnce '-' name with
  | some (head, tail) => (head, some tail)
  | none => (name, none)

/- The tests of `parse` for the suffix. -/
def suffixAccepted
    (prerelease : Option (List Char)) :
    Bool :=
  match prerelease with
  | some suffix =>
      !suffix.isEmpty && (suffix.splitOn '.').all identAccepted
  | none => true

/- `SdkVersion::parse`. -/
def parse
    (name : List Char) :
    Option SdkVersion :=
  let (numericPart, prerelease) := halves name
  if numericPart = [] then
    none
  else if suffixAccepted prerelease = false then
    none
  else
    match (numericPart.splitOn '.').mapM parseU64 with
    | none => none
    | some numeric =>
        if numeric = [] then
          none
        else
          some ⟨(popZeros numeric.reverse).reverse, prerelease⟩

/- `Display`. -/
def display
    (v : SdkVersion) :
    List Char :=
  ['.'].intercalate (v.numeric.map (Nat.toDigits 10)) ++
    match v.prerelease with
    | some suffix => '-' :: suffix
    | none => []

end SdkVersion

/- The numbers at `i`, missing ones as zero. -/
def cmpComponent
    (a b : List Nat)
    (i : Nat) :
    Ordering :=
  compare (a.getD i 0) (b.getD i 0)

/- The first difference below `n`. -/
def cmpNumericUpTo
    (a b : List Nat)
    (n : Nat) :
    Ordering :=
  ((List.range n).map (cmpComponent a b)).foldr Ordering.then .eq

/- The loop of `cmp`. -/
def cmpNumeric
    (a b : List Nat) :
    Ordering :=
  cmpNumericUpTo a b (max a.length b.length)

/- `cmp_prerelease_identifier`. -/
def cmpPrereleaseIdentifier
    (a b : List Char) :
    Ordering :=
  match parseU64 a, parseU64 b with
  | some x, some y => compare x y
  | some _, none => .lt
  | none, some _ => .gt
  | none, none => compare a b

/- `cmp_prerelease`. -/
def cmpPrerelease
    (a b : List Char) :
    Ordering :=
  List.compareLex cmpPrereleaseIdentifier (a.splitOn '.') (b.splitOn '.')

/- A stable version is above its prereleases. -/
def cmpSuffix
    (a b : Option (List Char)) :
    Ordering :=
  match a, b with
  | none, none => .eq
  | none, some _ => .gt
  | some _, none => .lt
  | some a, some b => cmpPrerelease a b

/- `SdkVersion::cmp`. -/
def SdkVersion.cmp
    (a b : SdkVersion) :
    Ordering :=
  (cmpNumeric a.numeric b.numeric).then (cmpSuffix a.prerelease b.prerelease)

variable {a b c v w : SdkVersion} {s t name : List Char} {m n : Nat}

/- The first `n` numbers of a version. -/
def pad
    (n : Nat)
    (numeric : List Nat) :
    List Nat :=
  (List.range n).map fun i => numeric.getD i 0

theorem foldr_then_eq
    (f g : Nat → Nat)
    (l : List Nat) :
    (l.map fun i => compare (f i) (g i)).foldr Ordering.then .eq =
      List.compareLex compare (l.map f) (l.map g) := by
  induction l with
  | nil => rfl
  | cons i l ih =>
      rw [List.map_cons, List.map_cons, List.map_cons, List.foldr_cons,
        List.compareLex_cons_cons, ih]

theorem cmpNumericUpTo_eq
    (a b : List Nat)
    (n : Nat) :
    cmpNumericUpTo a b n = List.compareLex compare (pad n a) (pad n b) :=
  foldr_then_eq _ _ _

variable {a b numeric : List Nat}

/- Zeros behind both versions do not decide. -/
theorem cmpNumericUpTo_add
    (hLeft : a.length ≤ n)
    (hRight : b.length ≤ n)
    (m : Nat) :
    cmpNumericUpTo a b (n + m) = cmpNumericUpTo a b n := by
  have hEq : ∀ l : List Nat,
      ((l.map (n + ·)).map (cmpComponent a b)).foldr Ordering.then .eq =
        .eq := by
    intro l
    induction l with
    | nil => rfl
    | cons i l ih =>
        rw [List.map_cons, List.map_cons, List.foldr_cons, ih]
        have hZero : cmpComponent a b (n + i) = .eq := by
          have hLeft' : a.length ≤ n + i := by omega
          have hRight' : b.length ≤ n + i := by omega
          rw [cmpComponent, List.getD_eq_default _ _ hLeft',
            List.getD_eq_default _ _ hRight']
          exact ReflCmp.compare_self
        rw [hZero]
        rfl
  rw [cmpNumericUpTo, List.range_add, List.map_append, List.foldr_append,
    hEq, cmpNumericUpTo]

theorem cmpNumeric_eq
    (hLeft : a.length ≤ n)
    (hRight : b.length ≤ n) :
    cmpNumeric a b = List.compareLex compare (pad n a) (pad n b) := by
  have hMax : max a.length b.length ≤ n := Nat.max_le.2 ⟨hLeft, hRight⟩
  rcases Nat.exists_eq_add_of_le hMax with ⟨k, rfl⟩
  rw [← cmpNumericUpTo_eq, cmpNumericUpTo_add (Nat.le_max_left _ _)
    (Nat.le_max_right _ _), cmpNumeric]

instance : TransCmp cmpNumeric where
  eq_swap := by
    intro a b
    have hLeft : a.length ≤ a.length + b.length := by omega
    have hRight : b.length ≤ a.length + b.length := by omega
    rw [cmpNumeric_eq hLeft hRight, cmpNumeric_eq hRight hLeft]
    exact OrientedCmp.eq_swap
  isLE_trans := by
    intro a b c hab hbc
    have ha : a.length ≤ a.length + b.length + c.length := by omega
    have hb : b.length ≤ a.length + b.length + c.length := by omega
    have hc : c.length ≤ a.length + b.length + c.length := by omega
    rw [cmpNumeric_eq ha hb] at hab
    rw [cmpNumeric_eq hb hc] at hbc
    rw [cmpNumeric_eq ha hc]
    exact TransCmp.isLE_trans hab hbc

/- Equal in the order, the versions have the same numbers at all places. -/
theorem getD_of_cmpNumeric
    (hEq : cmpNumeric a b = .eq)
    (i : Nat) :
    a.getD i 0 = b.getD i 0 := by
  have hLeft : a.length ≤ a.length + b.length + (i + 1) := by omega
  have hRight : b.length ≤ a.length + b.length + (i + 1) := by omega
  rw [cmpNumeric_eq hLeft hRight] at hEq
  have hPad := LawfulEqCmp.eq_of_compare hEq
  have hAt := congrArg (·[i]?) hPad
  have hi : i < a.length + b.length + (i + 1) := by omega
  simpa [pad, List.getElem?_range hi] using hAt

/- Numbers before texts, then the number, then the text. -/
def identKind
    (s : List Char) :
    Nat :=
  match parseU64 s with
  | some _ => 0
  | none => 1

def identNumber
    (s : List Char) :
    Nat :=
  (parseU64 s).getD 0

def identText
    (s : List Char) :
    List Char :=
  match parseU64 s with
  | some _ => []
  | none => s

def identCmp :
    List Char → List Char → Ordering :=
  compareLex (compareOn identKind)
    (compareLex (compareOn identNumber) (compareOn identText))

theorem cmpPrereleaseIdentifier_eq :
    cmpPrereleaseIdentifier = identCmp := by
  funext s t
  unfold cmpPrereleaseIdentifier identCmp compareLex compareOn identKind
    identNumber identText
  cases parseU64 s with
  | some x =>
      cases parseU64 t with
      | some y =>
          show compare x y = (compare x y).then .eq
          rw [Ordering.then_eq]
      | none => rfl
  | none =>
      cases parseU64 t with
      | some y => rfl
      | none => rfl

instance : TransCmp cmpPrereleaseIdentifier := by
  rw [cmpPrereleaseIdentifier_eq]
  exact inferInstanceAs (TransCmp (compareLex _ _))

/- The identifiers of a suffix. -/
def idents
    (suffix : Option (List Char)) :
    List (List Char) :=
  match suffix with
  | some text => text.splitOn '.'
  | none => []

def suffixKind
    (suffix : Option (List Char)) :
    Nat :=
  match suffix with
  | some _ => 0
  | none => 1

def identsCmp
    (s t : Option (List Char)) :
    Ordering :=
  List.compareLex cmpPrereleaseIdentifier (idents s) (idents t)

instance : TransCmp identsCmp where
  eq_swap := by
    unfold identsCmp
    exact OrientedCmp.eq_swap
  isLE_trans := by
    unfold identsCmp
    exact TransCmp.isLE_trans

theorem cmpSuffix_eq :
    cmpSuffix = compareLex (compareOn suffixKind) identsCmp := by
  funext s t
  cases s with
  | none =>
      cases t with
      | none => rfl
      | some t => rfl
  | some s =>
      cases t with
      | none => rfl
      | some t => rfl

instance : TransCmp cmpSuffix := by
  rw [cmpSuffix_eq]
  exact inferInstanceAs (TransCmp (compareLex _ _))

def numericCmp
    (a b : SdkVersion) :
    Ordering :=
  cmpNumeric a.numeric b.numeric

def suffixCmp
    (a b : SdkVersion) :
    Ordering :=
  cmpSuffix a.prerelease b.prerelease

instance : TransCmp numericCmp where
  eq_swap := by
    unfold numericCmp
    exact OrientedCmp.eq_swap
  isLE_trans := by
    unfold numericCmp
    exact TransCmp.isLE_trans

instance : TransCmp suffixCmp where
  eq_swap := by
    unfold suffixCmp
    exact OrientedCmp.eq_swap
  isLE_trans := by
    unfold suffixCmp
    exact TransCmp.isLE_trans

instance : TransCmp SdkVersion.cmp :=
  inferInstanceAs (TransCmp (compareLex numericCmp suffixCmp))

------------------------------------------------------------
-- Parsed versions
------------------------------------------------------------

/- A version as the parser builds it. -/
structure WellFormed
    (v : SdkVersion) :
    Prop where
  nonempty : v.numeric ≠ []
  small : ∀ n ∈ v.numeric, n < 2 ^ 64
  stripped : popZeros v.numeric.reverse = v.numeric.reverse
  suffix : SdkVersion.suffixAccepted v.prerelease = true

theorem popZeros_popZeros
    (l : List Nat) :
    popZeros (popZeros l) = popZeros l := by
  induction l with
  | nil => rfl
  | cons n l ih =>
      cases l with
      | nil =>
          cases n with
          | zero => rfl
          | succ n => rfl
      | cons m l =>
          cases n with
          | zero => exact ih
          | succ n => rfl

theorem popZeros_sublist
    (l : List Nat) :
    (popZeros l).Sublist l := by
  induction l with
  | nil => exact List.Sublist.refl _
  | cons n l ih =>
      cases l with
      | nil =>
          cases n with
          | zero => exact List.Sublist.refl _
          | succ n => exact List.Sublist.refl _
      | cons m l =>
          cases n with
          | zero => exact ih.cons _
          | succ n => exact List.Sublist.refl _

theorem popZeros_ne_nil
    {l : List Nat}
    (hNe : l ≠ []) :
    popZeros l ≠ [] := by
  induction l with
  | nil => exact absurd rfl hNe
  | cons n l ih =>
      cases l with
      | nil =>
          cases n with
          | zero => exact List.cons_ne_nil _ _
          | succ n => exact List.cons_ne_nil _ _
      | cons m l =>
          cases n with
          | zero => exact ih (List.cons_ne_nil _ _)
          | succ n => exact List.cons_ne_nil _ _

/- The last number of a stripped version counts. -/
theorem getD_last_ne_zero
    (hStripped : popZeros numeric.reverse = numeric.reverse)
    (hLong : 1 < numeric.length) :
    numeric.getD (numeric.length - 1) 0 ≠ 0 := by
  intro hZero
  have hReverse : numeric.reverse.length = numeric.length :=
    List.length_reverse
  match hList : numeric.reverse with
  | [] =>
      rw [hList] at hReverse
      simp at hReverse
      omega
  | [_] =>
      rw [hList] at hReverse
      simp at hReverse
      omega
  | last :: before :: rest =>
      have hNumeric : numeric = (before :: rest).reverse ++ [last] := by
        rw [← List.reverse_reverse numeric, hList, List.reverse_cons]
      have hLast : last = 0 := by
        rw [hNumeric] at hZero
        simpa using hZero
      subst hLast
      rw [hList] at hStripped
      have hShorter := (popZeros_sublist (before :: rest)).length_le
      have hLength := congrArg List.length hStripped
      rw [popZeros] at hLength
      simp only [List.length_cons] at hLength hShorter
      omega

theorem eq_of_getD
    (ha : a ≠ [])
    (hb : b ≠ [])
    (hStripped : popZeros a.reverse = a.reverse)
    (hStripped' : popZeros b.reverse = b.reverse)
    (hSame : ∀ i, a.getD i 0 = b.getD i 0) :
    a = b := by
  have hLe : ∀ x y : List Nat, x ≠ [] →
      popZeros y.reverse = y.reverse →
      (∀ i, x.getD i 0 = y.getD i 0) → y.length ≤ x.length := by
    intro x y hx hy hxy
    by_contra hShort
    have hPos := List.length_pos_iff.2 hx
    apply getD_last_ne_zero hy (by omega)
    rw [← hxy, List.getD_eq_default]
    omega
  have hLength : a.length = b.length :=
    Nat.le_antisymm (hLe b a hb hStripped fun i => (hSame i).symm)
      (hLe a b ha hStripped' hSame)
  apply List.ext_getElem hLength
  intro i hi hi'
  have hAt := hSame i
  rwa [List.getD_eq_getElem _ _ hi, List.getD_eq_getElem _ _ hi'] at hAt

theorem afterPlus_eq
    (hNone : '+' ∉ s) :
    afterPlus s = s := by
  unfold afterPlus
  split
  · exact absurd List.mem_cons_self hNone
  · rfl

/- An accepted identifier that reads as a number is its numeral. -/
theorem numeral_of_ident
    (hIdent : identAccepted s = true)
    (hNumber : parseU64 s = some n) :
    s = Nat.toDigits 10 n := by
  simp only [identAccepted, Bool.and_eq_true, Bool.not_eq_true',
    List.isEmpty_eq_false_iff] at hIdent
  rcases hIdent with ⟨⟨hNe, hChars⟩, hLead⟩
  have hPlus : '+' ∉ s := by
    intro hMem
    exact absurd (List.all_eq_true.1 hChars '+' hMem) (by decide)
  unfold parseU64 at hNumber
  simp only [afterPlus_eq hPlus, hNe, false_or] at hNumber
  split at hNumber
  · cases hNumber
  · rename_i hAll
    split at hNumber
    · cases hNumber
      have hAll' : s.all Char.isDigit = true := by
        simpa using hAll
      refine (toDigits_ofDigitChars hNe (List.all_eq_true.1 hAll') ?_).symm
      intro hLong hZero
      rw [hAll', hZero] at hLead
      simp [hLong] at hLead
    · cases hNumber

/- Identifiers are equal in the order only when they are the same. -/
theorem eq_of_cmpIdentifier
    (hs : identAccepted s = true)
    (ht : identAccepted t = true)
    (hEq : cmpPrereleaseIdentifier s t = .eq) :
    s = t := by
  unfold cmpPrereleaseIdentifier at hEq
  cases hLeft : parseU64 s with
  | some x =>
      cases hRight : parseU64 t with
      | some y =>
          rw [hLeft, hRight] at hEq
          have hCompare : compare x y = .eq := hEq
          have hSame : x = y := LawfulEqCmp.eq_of_compare hCompare
          rw [numeral_of_ident hs hLeft, numeral_of_ident ht hRight, hSame]
      | none =>
          rw [hLeft, hRight] at hEq
          cases hEq
  | none =>
      cases hRight : parseU64 t with
      | some y =>
          rw [hLeft, hRight] at hEq
          cases hEq
      | none =>
          rw [hLeft, hRight] at hEq
          have hCompare : compare s t = .eq := hEq
          exact LawfulEqCmp.eq_of_compare hCompare

theorem eq_of_cmpIdentifiers
    {xs ys : List (List Char)}
    (hxs : ∀ s ∈ xs, identAccepted s = true)
    (hys : ∀ s ∈ ys, identAccepted s = true)
    (hEq : List.compareLex cmpPrereleaseIdentifier xs ys = .eq) :
    xs = ys := by
  induction xs generalizing ys with
  | nil =>
      cases ys with
      | nil => rfl
      | cons y ys => cases hEq
  | cons x xs ih =>
      cases ys with
      | nil => cases hEq
      | cons y ys =>
          rw [List.compareLex_cons_cons, Ordering.then_eq_eq] at hEq
          rw [eq_of_cmpIdentifier (hxs x List.mem_cons_self)
              (hys y List.mem_cons_self) hEq.1,
            ih (fun s hMem => hxs s (List.mem_cons_of_mem _ hMem))
              (fun s hMem => hys s (List.mem_cons_of_mem _ hMem)) hEq.2]

theorem eq_of_cmpSuffix
    {s t : Option (List Char)}
    (hs : SdkVersion.suffixAccepted s = true)
    (ht : SdkVersion.suffixAccepted t = true)
    (hEq : cmpSuffix s t = .eq) :
    s = t := by
  cases s with
  | none =>
      cases t with
      | none => rfl
      | some t => cases hEq
  | some s =>
      cases t with
      | none => cases hEq
      | some t =>
          simp only [SdkVersion.suffixAccepted, Bool.and_eq_true,
            List.all_eq_true] at hs ht
          have hSame := eq_of_cmpIdentifiers hs.2 ht.2 hEq
          rw [← @List.intercalate_splitOn _ s _ _ '.', hSame,
            List.intercalate_splitOn]

/- Versions are equal in the order only when they are the same. -/
theorem eq_of_cmp
    (hv : WellFormed v)
    (hw : WellFormed w)
    (hEq : v.cmp w = .eq) :
    v = w := by
  rw [SdkVersion.cmp, Ordering.then_eq_eq] at hEq
  have hNumeric := eq_of_getD hv.nonempty hw.nonempty hv.stripped
    hw.stripped (getD_of_cmpNumeric hEq.1)
  have hSuffix := eq_of_cmpSuffix hv.suffix hw.suffix hEq.2
  cases v
  cases w
  cases hNumeric
  cases hSuffix
  rfl

theorem parseU64_small
    (hNumber : parseU64 s = some n) :
    n < 2 ^ 64 := by
  unfold parseU64 at hNumber
  simp only at hNumber
  split at hNumber
  · cases hNumber
  · split at hNumber
    · rename_i hSmall
      cases hNumber
      exact hSmall
    · cases hNumber

theorem mapM_small
    {texts : List (List Char)}
    (hParts : texts.mapM parseU64 = some numeric) :
    ∀ n ∈ numeric, n < 2 ^ 64 := by
  induction texts generalizing numeric with
  | nil =>
      cases hParts
      nofun
  | cons text texts ih =>
      rw [List.mapM_cons] at hParts
      cases hText : parseU64 text with
      | none =>
          rw [hText] at hParts
          cases hParts
      | some x =>
          cases hRest : texts.mapM parseU64 with
          | none =>
              rw [hText, hRest] at hParts
              cases hParts
          | some xs =>
              rw [hText, hRest] at hParts
              cases hParts
              intro n hn
              rcases List.mem_cons.1 hn with rfl | hn
              · exact parseU64_small hText
              · exact ih hRest n hn

theorem parse_wellFormed
    (hParse : SdkVersion.parse name = some v) :
    WellFormed v := by
  unfold SdkVersion.parse at hParse
  split at hParse
  rename_i numericPart prerelease hHalves
  split at hParse
  · cases hParse
  · split at hParse
    · cases hParse
    · rename_i hSuffix
      split at hParse
      · cases hParse
      · rename_i numeric hNumeric
        split at hParse
        · cases hParse
        · rename_i hNe
          cases hParse
          have hReverse : numeric.reverse ≠ [] :=
            fun h => hNe (List.reverse_eq_nil_iff.1 h)
          refine ⟨?_, ?_, ?_, ?_⟩
          · intro h
            exact popZeros_ne_nil hReverse (List.reverse_eq_nil_iff.1 h)
          · intro n hn
            apply mapM_small hNumeric
            have hMem := (popZeros_sublist _).subset (List.mem_reverse.1 hn)
            exact List.mem_reverse.1 hMem
          · rw [List.reverse_reverse, popZeros_popZeros]
          · simpa using hSuffix

theorem toDigits_ne_nil :
    Nat.toDigits 10 n ≠ [] := by
  intro hNil
  have hPos := Nat.length_toDigits_pos (b := 10) (n := n)
  rw [hNil] at hPos
  exact absurd hPos (by decide)

theorem parseU64_toDigits
    (hSmall : n < 2 ^ 64) :
    parseU64 (Nat.toDigits 10 n) = some n := by
  have hDigits : afterPlus (Nat.toDigits 10 n) = Nat.toDigits 10 n :=
    afterPlus_eq (not_mem_toDigits (by decide))
  have hAll : (Nat.toDigits 10 n).all Char.isDigit = true :=
    List.all_eq_true.2 fun c hMem => isDigit_of_mem_toDigits hMem
  unfold parseU64
  simp only [hDigits, hAll, toDigits_ne_nil, Nat.ofDigitChars_ten_toDigits, hSmall,
    if_true, Bool.true_eq_false, or_self, if_false]

theorem mapM_toDigits
    (hSmall : ∀ n ∈ numeric, n < 2 ^ 64) :
    (numeric.map (Nat.toDigits 10)).mapM parseU64 = some numeric := by
  induction numeric with
  | nil => rfl
  | cons n numeric ih =>
      rw [List.map_cons, List.mapM_cons,
        parseU64_toDigits (hSmall n List.mem_cons_self),
        ih fun m hm => hSmall m (List.mem_cons_of_mem _ hm)]
      rfl

/- The numbers of a name hold no mark but the dot. -/
theorem not_mem_numeric
    {c : Char}
    (hDigit : c.isDigit = false)
    (hDot : c ≠ '.') :
    c ∉ ['.'].intercalate (numeric.map (Nat.toDigits 10)) := by
  induction numeric with
  | nil =>
      intro hMem
      cases hMem
  | cons n numeric ih =>
      cases numeric with
      | nil =>
          intro hMem
          rw [List.map_cons, List.map_nil, List.intercalate_singleton]
            at hMem
          exact not_mem_toDigits hDigit hMem
      | cons m numeric =>
          intro hMem
          rw [List.map_cons, List.map_cons, List.intercalate_cons_cons]
            at hMem
          rcases List.mem_append.1 hMem with hMem | hMem
          · rcases List.mem_append.1 hMem with hMem | hMem
            · exact not_mem_toDigits hDigit hMem
            · exact hDot (List.mem_singleton.1 hMem)
          · exact ih hMem

theorem halves_display
    (v : SdkVersion) :
    SdkVersion.halves v.display =
      (['.'].intercalate (v.numeric.map (Nat.toDigits 10)),
        v.prerelease) := by
  have hNone : ∀ c ∈ ['.'].intercalate
      (v.numeric.map (Nat.toDigits 10)), (c != '-') = true := by
    intro c hc
    rw [bne_iff_ne]
    rintro rfl
    exact not_mem_numeric (by decide) (by decide) hc
  unfold SdkVersion.halves SdkVersion.display splitOnce
  cases v.prerelease with
  | none =>
      simp only [List.append_nil]
      rw [List.takeWhile_eq_self_iff.2 hNone, List.drop_length]
  | some suffix =>
      simp only
      rw [List.takeWhile_append_of_pos hNone,
        List.takeWhile_cons_of_neg (by decide), List.append_nil,
        List.drop_left]

theorem parse_display
    (hv : WellFormed v) :
    SdkVersion.parse v.display = some v := by
  have hSplit : (['.'].intercalate
      (v.numeric.map (Nat.toDigits 10))).splitOn '.' =
        v.numeric.map (Nat.toDigits 10) := by
    apply List.splitOn_intercalate
    · intro text hMem
      rcases List.mem_map.1 hMem with ⟨n, _, rfl⟩
      exact not_mem_toDigits (by decide)
    · intro hNil
      exact hv.nonempty (List.map_eq_nil_iff.1 hNil)
  have hText : ['.'].intercalate (v.numeric.map (Nat.toDigits 10)) ≠ [] := by
    intro hNil
    rw [hNil] at hSplit
    have hFirst : [] ∈ v.numeric.map (Nat.toDigits 10) := by
      rw [← hSplit]
      exact List.mem_singleton.2 rfl
    rcases List.mem_map.1 hFirst with ⟨n, _, hn⟩
    exact toDigits_ne_nil hn
  unfold SdkVersion.parse
  rw [halves_display]
  simp only [hText, hSplit, mapM_toDigits hv.small, hv.nonempty, hv.suffix,
    hv.stripped, List.reverse_reverse, if_false, Bool.true_eq_false]

end MSBuild

end Borzoi
