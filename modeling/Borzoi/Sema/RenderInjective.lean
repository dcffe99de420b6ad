import Borzoi.Program.Fuel
import Borzoi.Sema.Render
import Borzoi.Text.Decimal
import Borzoi.Text.Joined

/-
  The canonical text of a type is read back.

  The reader descends through function types, tuples, operands with
  their array suffixes, and names with their arguments.  What may stand
  behind each of these is the follow set of its place in the printed
  form.

  Main declarations:
    * `readTy`
    * `Ty.Reads`
    * `reads_printable`
    * `render_injective`
-/

namespace Borzoi

namespace Unify

open Program (Settles)

def isName
    (c : Char) :
    Bool :=
  c ∉ [' ', ',', '<', '>', '(', ')', '[', ']']

def stripFront
    (front text : List Char) :
    Option (List Char) :=
  if front.isPrefixOf text then
    some (text.drop front.length)
  else
    none

def typarIndex
    (name : List Char) :
    Nat :=
  match name with
  | [] => 0
  | [c] => c.toNat - 'a'.toNat
  | _ :: digits => Nat.ofDigitChars 10 digits 0

def pathOf
    (name : List Char) :
    List String :=
  match name with
  | [] => []
  | c :: rest => ((c :: rest).splitOn '.').map String.ofList

/- A name without arguments. -/
def leafTy
    (name : List Char) :
    Ty :=
  match name with
  | '\'' :: rest => .Param (typarIndex rest)
  | name => .Named (pathOf name) []

/- The array suffixes behind an operand; inside one, its rank. -/
def readSuffixes :
    Ty → Option Nat → List Char → Option (Ty × List Char)
  | elem, none, '[' :: text => readSuffixes elem (some 1) text
  | elem, none, text => some (elem, text)
  | elem, some rank, ',' :: text =>
      readSuffixes elem (some (rank + 1)) text
  | elem, some rank, ']' :: text =>
      readSuffixes (.Array elem rank) none text
  | _, some _, _ => none

def tupleOf
    (first : Ty)
    (more : List Ty) :
    Ty :=
  match more with
  | [] => first
  | _ :: _ => .Tuple (first :: more)

mutual

def readTy :
    Nat → List Char → Option (Ty × List Char)
  | 0, _ => none
  | n + 1, text =>
      (readLeft n text).bind fun left =>
        match stripFront arrow left.2 with
        | some text =>
            (readTy n text).map fun ret => (.Fun left.1 ret.1, ret.2)
        | none => some left

/- A tuple, or one operand. -/
def readLeft :
    Nat → List Char → Option (Ty × List Char)
  | 0, _ => none
  | n + 1, text =>
      (readOperand n text).bind fun first =>
        (readMore n first.2).map fun more =>
          (tupleOf first.1 more.1, more.2)

/- The further operands of a tuple. -/
def readMore :
    Nat → List Char → Option (List Ty × List Char)
  | 0, _ => none
  | n + 1, text =>
      match stripFront star text with
      | some text =>
          (readOperand n text).bind fun elem =>
            (readMore n elem.2).map fun more =>
              (elem.1 :: more.1, more.2)
      | none => some ([], text)

/- A name, an application or a parenthesis, with array suffixes. -/
def readOperand :
    Nat → List Char → Option (Ty × List Char)
  | 0, _ => none
  | n + 1, text =>
      (readPrimary n text).bind fun elem =>
        readSuffixes elem.1 none elem.2

def readPrimary :
    Nat → List Char → Option (Ty × List Char)
  | 0, _ => none
  | n + 1, text =>
      match stripFront ['('] text with
      | some text =>
          (readTy n text).bind fun ty =>
            (stripFront [')'] ty.2).map fun text => (ty.1, text)
      | none =>
          match stripFront ['<'] (text.dropWhile isName) with
          | some behind =>
              (readArgs n behind).map fun args =>
                (.Named (pathOf (text.takeWhile isName)) args.1, args.2)
          | none =>
              some (leafTy (text.takeWhile isName),
                text.dropWhile isName)

/- Arguments up to the closing bracket. -/
def readArgs :
    Nat → List Char → Option (List Ty × List Char)
  | 0, _ => none
  | n + 1, text =>
      (readTy n text).bind fun arg =>
        match stripFront [',', ' '] arg.2 with
        | some text =>
            (readArgs n text).map fun args => (arg.1 :: args.1, args.2)
        | none =>
            (stripFront ['>'] arg.2).map fun text => ([arg.1], text)

end

theorem stripFront_append
    (front rest : List Char) :
    stripFront front (front ++ rest) = some rest := by
  have hFront : front.isPrefixOf (front ++ rest) = true :=
    List.isPrefixOf_iff_prefix.2 (List.prefix_append _ _)
  simp only [stripFront, hFront, if_true, List.drop_left]

theorem stripFront_none
    {front text : List Char}
    (hNe : front ≠ [])
    (hHead : text.head? ≠ front.head?) :
    stripFront front text = none := by
  cases front with
  | nil => exact absurd rfl hNe
  | cons c front =>
      cases text with
      | nil => rfl
      | cons d text =>
          have hDiffer : c ≠ d := by
            intro hSame
            exact hHead (by simp [hSame])
          simp [stripFront, List.isPrefixOf, hDiffer]

variable {c : Char} {name rest : List Char} {path : List String}
variable {args tys : List Ty} {i rank : Nat} {ty : Ty}

theorem typarIndex_letter
    (hSmall : i < 26) :
    (Char.ofNat ('a'.toNat + i)).toNat - 'a'.toNat = i := by
  have hA : 'a'.toNat = 97 := rfl
  have hValid : ('a'.toNat + i).isValidChar := by
    left
    omega
  have hNat : (Char.ofNat ('a'.toNat + i)).toNat = 'a'.toNat + i := by
    rw [Char.ofNat, dif_pos hValid]
    rfl
  rw [hNat]
  omega

theorem leafTy_typarName
    (i : Nat) :
    leafTy (typarName i) = .Param i := by
  by_cases hSmall : i < 26
  · simp only [typarName, hSmall, if_true, leafTy, typarIndex]
    rw [typarIndex_letter hSmall]
  · simp only [typarName, hSmall, if_false, leafTy]
    cases hDigits : Nat.toDigits 10 i with
    | nil =>
        have hSome : 0 < (Nat.toDigits 10 i).length :=
          Nat.length_toDigits_pos
        rw [hDigits] at hSome
        exact absurd hSome (Nat.lt_irrefl 0)
    | cons d digits =>
        simp only [typarIndex]
        rw [← hDigits, Nat.ofDigitChars_ten_toDigits]

theorem isName_of_identifier
    (hIdentifier : IsIdentifier name)
    (hMem : c ∈ name) :
    isName c = true ∧ c ≠ '.' := by
  have hSign := hIdentifier.2.2 c hMem
  constructor
  · unfold isName
    simp only [decide_eq_true_eq]
    intro hIn
    exact hSign (List.mem_cons_of_mem _ hIn)
  · intro hDot
    exact hSign (hDot ▸ List.mem_cons_self)

section

variable (hNames : NamesIdentifiers path)

include hNames

theorem isName_joinPath
    (hMem : c ∈ joinPath path) :
    isName c = true := by
  rcases Text.mem_intercalate hMem with hDot | ⟨part, hPart, hIn⟩
  · rw [List.mem_singleton.1 hDot]
    rfl
  · rcases List.mem_map.1 hPart with ⟨segment, hSegment, rfl⟩
    exact (isName_of_identifier (hNames segment hSegment) hIn).1

/- A path in full does not read as a typar. -/
theorem head_joinPath :
    (joinPath path).head? ≠ some '\'' := by
  cases path with
  | nil =>
      simp [joinPath]
  | cons segment path =>
      have hFirst := hNames segment List.mem_cons_self
      unfold joinPath
      rw [List.map_cons, Text.intercalate_cons,
        List.head?_append_of_ne_nil _ hFirst.1]
      exact hFirst.2.1

/- A path in full can be cut at its dots. -/
theorem pathOf_joinPath :
    pathOf (joinPath path) = path := by
  cases path with
  | nil =>
      rfl
  | cons segment path =>
      have hFirst := hNames segment List.mem_cons_self
      have hCut : (joinPath (segment :: path)).splitOn '.' =
          (segment :: path).map String.toList := by
        apply List.splitOn_intercalate
        · intro part hPart hDot
          rcases List.mem_map.1 hPart with ⟨name, hName, rfl⟩
          exact (isName_of_identifier (hNames name hName) hDot).2 rfl
        · simp
      have hBack : ((segment :: path).map String.toList).map
          String.ofList = segment :: path := by
        simp [List.map_map, Function.comp_def]
      cases hText : joinPath (segment :: path) with
      | nil =>
          unfold joinPath at hText
          rw [List.map_cons, Text.intercalate_cons] at hText
          exact absurd (List.append_eq_nil_iff.1 hText).1 hFirst.1
      | cons c text =>
          rw [hText] at hCut
          rw [pathOf, hCut, hBack]

theorem leafTy_joinPath :
    leafTy (joinPath path) = .Named path [] := by
  unfold leafTy
  split
  · rename_i rest hText
    exact absurd (congrArg List.head? hText) (head_joinPath hNames)
  · rw [pathOf_joinPath hNames]

end

/- What stands behind an operand. -/
def EndsOperand
    (rest : List Char) :
    Prop :=
  ∀ c ∈ rest.head?, c ∈ [' ', ',', '>', ')', '[']

/- What stands behind the left side of an arrow. -/
structure EndsLeft
    (rest : List Char) :
    Prop where
  operand : EndsOperand rest
  noSuffix : rest.head? ≠ some '['
  noStar : stripFront star rest = none

/- What stands behind a type. -/
structure EndsTy
    (rest : List Char) :
    Prop extends EndsLeft rest where
  noArrow : stripFront arrow rest = none

theorem endsTy_nil :
    EndsTy [] where
  operand := by
    intro c hMem
    cases hMem
  noSuffix := by
    simp
  noStar := rfl
  noArrow := rfl

theorem endsTy_cons
    (hMem : c ∈ [',', '>', ')'])
    (rest : List Char) :
    EndsTy (c :: rest) where
  operand := by
    intro d hHead
    cases hHead
    simp only [List.mem_cons, List.not_mem_nil, or_false] at hMem ⊢
    rcases hMem with rfl | rfl | rfl <;> decide
  noSuffix := by
    intro hHead
    cases hHead
    revert hMem
    decide
  noStar := by
    apply stripFront_none (by decide)
    intro hHead
    cases hHead
    revert hMem
    decide
  noArrow := by
    apply stripFront_none (by decide)
    intro hHead
    cases hHead
    revert hMem
    decide

theorem endsLeft_arrow
    (rest : List Char) :
    EndsLeft (arrow ++ rest) where
  operand := by
    intro c hHead
    cases hHead
    decide
  noSuffix := by
    intro hHead
    revert hHead
    simp [arrow]
  noStar := rfl

theorem endsOperand_star
    (rest : List Char) :
    EndsOperand (star ++ rest) := by
  intro c hHead
  cases hHead
  decide

theorem endsOperand_suffix
    (rank : Nat)
    (rest : List Char) :
    EndsOperand (arraySuffix rank ++ rest) := by
  intro c hHead
  cases hHead
  decide

theorem readSuffixes_ends
    (elem : Ty)
    (hNoSuffix : rest.head? ≠ some '[') :
    readSuffixes elem none rest = some (elem, rest) := by
  unfold readSuffixes
  split
  · exact absurd rfl hNoSuffix
  · rfl
  all_goals simp_all

theorem readSuffixes_comma
    (elem : Ty)
    (rank : Nat)
    (text : List Char) :
    readSuffixes elem (some rank) (',' :: text) =
      readSuffixes elem (some (rank + 1)) text := by
  rw [readSuffixes]

theorem readSuffixes_close
    (elem : Ty)
    (rank : Nat)
    (text : List Char) :
    readSuffixes elem (some rank) (']' :: text) =
      readSuffixes (.Array elem rank) none text := by
  simp only [readSuffixes]

theorem readSuffixes_commas
    (elem : Ty)
    (rank more : Nat)
    (rest : List Char) :
    readSuffixes elem (some rank)
        (List.replicate more ',' ++ ']' :: rest) =
      readSuffixes (.Array elem (rank + more)) none rest := by
  induction more generalizing rank with
  | zero =>
      rw [List.replicate_zero, List.nil_append, readSuffixes_close,
        Nat.add_zero]
  | succ more ih =>
      rw [List.replicate_succ, List.cons_append, readSuffixes_comma, ih,
        Nat.add_assoc, Nat.add_comm 1 more]

theorem readSuffixes_arraySuffix
    (elem : Ty)
    (hRank : 1 ≤ rank)
    (rest : List Char) :
    readSuffixes elem none (arraySuffix rank ++ rest) =
      readSuffixes (.Array elem rank) none rest := by
  unfold arraySuffix
  rw [List.append_assoc, List.cons_append, readSuffixes,
    List.singleton_append, readSuffixes_commas, Nat.add_sub_cancel' hRank]

section

variable (hName : ∀ c ∈ name, isName c = true)

include hName

theorem takeWhile_name
    (hRest : ∀ c ∈ rest.head?, isName c = false) :
    (name ++ rest).takeWhile isName = name ∧
      (name ++ rest).dropWhile isName = rest := by
  rw [List.takeWhile_append_of_pos hName,
    List.dropWhile_append_of_pos hName]
  cases rest with
  | nil =>
      simp
  | cons c rest =>
      have hStop : isName c = false := hRest c rfl
      simp [hStop]

/- A name does not open a parenthesis. -/
theorem stripFront_name
    (hRest : rest.head? ≠ some '(') :
    stripFront ['('] (name ++ rest) = none := by
  apply stripFront_none (by decide)
  cases name with
  | nil =>
      exact hRest
  | cons c name =>
      intro hHead
      have hOpen : c = '(' := by simpa using hHead
      have hSign := hName c List.mem_cons_self
      rw [hOpen] at hSign
      cases hSign

theorem readPrimary_name
    (hEnds : EndsOperand rest)
    (n : Nat) :
    readPrimary (n + 1) (name ++ rest) = some (leafTy name, rest) := by
  have hStop : ∀ c ∈ rest.head?, isName c = false := by
    intro c hHead
    have hSign := hEnds c hHead
    simp only [List.mem_cons, List.not_mem_nil, or_false] at hSign
    rcases hSign with rfl | rfl | rfl | rfl | rfl <;> decide
  have hOpen : rest.head? ≠ some '(' := by
    intro hHead
    have hSign := hEnds '(' hHead
    revert hSign
    decide
  have hArgs : rest.head? ≠ some '<' := by
    intro hHead
    have hSign := hEnds '<' hHead
    revert hSign
    decide
  have hNone : stripFront ['<'] rest = none :=
    stripFront_none (by decide) hArgs
  rcases takeWhile_name hName hStop with ⟨hTake, hDrop⟩
  rw [readPrimary]
  simp only [stripFront_name hName hOpen, hTake, hDrop, hNone]

theorem readPrimary_apply
    (text : List Char)
    (n : Nat) :
    readPrimary (n + 1) (name ++ '<' :: text) =
      (readArgs n text).map fun args =>
        (.Named (pathOf name) args.1, args.2) := by
  have hStop : ∀ c ∈ ('<' :: text).head?, isName c = false := by
    intro c hHead
    cases hHead
    decide
  have hOpen : ('<' :: text).head? ≠ some '(' := by
    simp
  have hArgs : stripFront ['<'] ('<' :: text) = some text :=
    stripFront_append ['<'] text
  rcases takeWhile_name hName hStop with ⟨hTake, hDrop⟩
  rw [readPrimary]
  simp only [stripFront_name hName hOpen, hTake, hDrop, hArgs]

end

------------------------------------------------------------
-- One Turn of the Reader
------------------------------------------------------------

section Turns

variable {ty ret : Ty} {text rest : List Char}

theorem readMore_ends
    (hEnds : EndsLeft rest) :
    Settles (fun n => readMore n rest) (some ([], rest)) := by
  apply Settles.step _ (Settles.const _)
  intro n
  rw [readMore]
  simp only [hEnds.noStar]

theorem readOperand_primary
    (hPrimary :
      Settles (fun n => readPrimary n text) (some (ty, rest))) :
    Settles (fun n => readOperand n text) (readSuffixes ty none rest) := by
  apply Settles.step (fun n => by rw [readOperand])
  exact hPrimary.bind (Settles.const _)

theorem readLeft_operand
    (hEnds : EndsLeft rest)
    (hOperand :
      Settles (fun n => readOperand n text)
        (readSuffixes ty none rest)) :
    Settles (fun n => readLeft n text) (some (ty, rest)) := by
  rw [readSuffixes_ends ty hEnds.noSuffix] at hOperand
  apply Settles.step (fun n => by rw [readLeft])
  exact hOperand.bind ((readMore_ends hEnds).map _)

theorem readTy_left
    (hEnds : EndsTy rest)
    (hLeft : Settles (fun n => readLeft n text) (some (ty, rest))) :
    Settles (fun n => readTy n text) (some (ty, rest)) := by
  apply Settles.step (fun n => by rw [readTy])
  apply hLeft.bind
  simp only [hEnds.noArrow]
  exact Settles.const _

theorem readTy_function
    {behind : List Char}
    (hArg : Settles (fun n => readLeft n text)
      (some (ty, arrow ++ behind)))
    (hRet : Settles (fun n => readTy n behind) (some (ret, rest))) :
    Settles (fun n => readTy n text) (some (.Fun ty ret, rest)) := by
  apply Settles.step (fun n => by rw [readTy])
  apply hArg.bind
  simp only [stripFront_append]
  exact hRet.map _

theorem readOperand_parenthesized
    (hTy : Settles (fun n => readTy n (text ++ ')' :: rest))
      (some (ty, ')' :: rest))) :
    Settles (fun n => readOperand n (parenthesized text ++ rest))
      (readSuffixes ty none rest) := by
  have hOpen : parenthesized text ++ rest =
      ['('] ++ (text ++ ')' :: rest) := by
    simp [parenthesized]
  have hClose : stripFront [')'] (')' :: rest) = some rest :=
    stripFront_append [')'] rest
  rw [hOpen]
  apply readOperand_primary
  apply Settles.step (fun n => by rw [readPrimary])
  simp only [stripFront_append]
  apply hTy.bind
  simp only [hClose, Option.map_some]
  exact Settles.const _

end Turns

/- The text of a type is read at each place it may stand. -/
structure Ty.Reads
    (ty : Ty) :
    Prop where
  operand : ∀ rest, EndsOperand rest →
    Settles (fun n => readOperand n (operandText ty ty.render ++ rest))
      (readSuffixes ty.erase none rest)
  left : ∀ rest, EndsLeft rest →
    Settles (fun n => readLeft n (domainText ty ty.render ++ rest))
      (some (ty.erase, rest))
  whole : ∀ rest, EndsTy rest →
    Settles (fun n => readTy n (ty.render ++ rest))
      (some (ty.erase, rest))

/- A type that needs no parentheses is read as an operand. -/
theorem Ty.Reads.ofOperand
    (hOperandText : operandText ty ty.render = ty.render)
    (hDomainText : domainText ty ty.render = ty.render)
    (hOperand : ∀ rest, EndsOperand rest →
      Settles (fun n => readOperand n (ty.render ++ rest))
        (readSuffixes ty.erase none rest)) :
    ty.Reads where
  operand := by
    rw [hOperandText]
    exact hOperand
  left := by
    intro rest hEnds
    rw [hDomainText]
    exact readLeft_operand hEnds (hOperand rest hEnds.operand)
  whole := by
    intro rest hEnds
    apply readTy_left hEnds
    exact readLeft_operand hEnds.toEndsLeft (hOperand rest hEnds.operand)

/- A name is read with what may stand behind an operand. -/
theorem readOperand_name
    (hName : ∀ c ∈ name, isName c = true)
    (hEnds : EndsOperand rest) :
    Settles (fun n => readOperand n (name ++ rest))
      (readSuffixes (leafTy name) none rest) := by
  apply readOperand_primary
  apply Settles.step _ (Settles.const _)
  exact readPrimary_name hName hEnds

/- The arguments behind the first one. -/
def behindArg
    (tys : List Ty)
    (rest : List Char) :
    List Char :=
  (renderAll tys).flatMap ([',', ' '] ++ ·) ++ '>' :: rest

theorem endsTy_behindArg
    (tys : List Ty)
    (rest : List Char) :
    EndsTy (behindArg tys rest) := by
  cases tys with
  | nil => exact endsTy_cons (by decide) rest
  | cons ty tys =>
      simp only [behindArg, renderAll, List.flatMap_cons, List.cons_append]
      exact endsTy_cons (by decide) _

theorem readArgs_reads
    (hReads : ∀ c ∈ ty :: tys, c.Reads)
    (rest : List Char) :
    Settles (fun n => readArgs n (ty.render ++ behindArg tys rest))
      (some (eraseAll (ty :: tys), rest)) := by
  induction tys generalizing ty with
  | nil =>
      have hFirst := (hReads ty List.mem_cons_self).whole
        (behindArg [] rest) (endsTy_behindArg [] rest)
      have hComma : stripFront [',', ' '] (behindArg [] rest) = none :=
        rfl
      have hClose : stripFront ['>'] (behindArg [] rest) = some rest :=
        stripFront_append ['>'] rest
      apply Settles.step (fun n => by rw [readArgs])
      apply hFirst.bind
      simp only [hComma, hClose, Option.map_some]
      exact Settles.const _
  | cons next tys ih =>
      have hFirst := (hReads ty List.mem_cons_self).whole
        (behindArg (next :: tys) rest) (endsTy_behindArg _ rest)
      have hNext := ih fun c hMem =>
        hReads c (List.mem_cons_of_mem _ hMem)
      have hComma : behindArg (next :: tys) rest =
          [',', ' '] ++ (next.render ++ behindArg tys rest) := by
        simp only [behindArg, renderAll, List.flatMap_cons,
          List.append_assoc]
      apply Settles.step (fun n => by rw [readArgs])
      apply hFirst.bind
      simp only [hComma, stripFront_append]
      exact hNext.map _

/- A tuple's elements behind the first one. -/
def behindOperand
    (tys : List Ty)
    (rest : List Char) :
    List Char :=
  (renderOperands tys).flatMap (star ++ ·) ++ rest

theorem endsOperand_behindOperand
    (hEnds : EndsLeft rest)
    (tys : List Ty) :
    EndsOperand (behindOperand tys rest) ∧
      (behindOperand tys rest).head? ≠ some '[' := by
  cases tys with
  | nil => exact ⟨hEnds.operand, hEnds.noSuffix⟩
  | cons ty tys =>
      simp only [behindOperand, renderOperands, List.flatMap_cons,
        List.append_assoc]
      refine ⟨endsOperand_star _, ?_⟩
      simp [star]

theorem readMore_reads
    (hReads : ∀ c ∈ tys, c.Reads)
    (hEnds : EndsLeft rest) :
    Settles (fun n => readMore n (behindOperand tys rest))
      (some (eraseAll tys, rest)) := by
  induction tys with
  | nil => exact readMore_ends hEnds
  | cons ty tys ih =>
      rcases endsOperand_behindOperand hEnds tys with ⟨hOperand, hNoSuffix⟩
      have hFirst := (hReads ty List.mem_cons_self).operand _ hOperand
      rw [readSuffixes_ends _ hNoSuffix] at hFirst
      have hMore := ih fun c hMem => hReads c (List.mem_cons_of_mem _ hMem)
      have hStar : behindOperand (ty :: tys) rest =
          star ++ (operandText ty ty.render ++ behindOperand tys rest) := by
        simp only [behindOperand, renderOperands, List.flatMap_cons,
          List.append_assoc]
      apply Settles.step (fun n => by rw [readMore])
      simp only [hStar, stripFront_append]
      exact hFirst.bind (hMore.map _)

/- A path in full, with or without arguments. -/
theorem readOperand_renderNamed
    (hNames : NamesIdentifiers path)
    (hReads : ∀ c ∈ args, c.Reads)
    (hEnds : EndsOperand rest) :
    Settles
      (fun n => readOperand n
        (renderNamed (joinPath path) (renderAll args) ++ rest))
      (readSuffixes (.Named path (eraseAll args)) none rest) := by
  have hName : ∀ c ∈ joinPath path, isName c = true :=
    fun c hMem => isName_joinPath hNames hMem
  cases args with
  | nil =>
      have hRead := readOperand_name hName hEnds
      rw [leafTy_joinPath hNames] at hRead
      simp only [renderNamed, renderAll, if_true]
      exact hRead
  | cons arg args =>
      have hText : renderNamed (joinPath path) (renderAll (arg :: args)) ++
          rest =
          joinPath path ++ '<' :: (arg.render ++ behindArg args rest) := by
        simp [renderNamed, renderAll, Text.intercalate_cons, behindArg]
      have hArgs := (readArgs_reads hReads rest).map fun args =>
        (Ty.Named (pathOf (joinPath path)) args.1, args.2)
      rw [pathOf_joinPath hNames] at hArgs
      rw [hText]
      apply readOperand_primary
      apply Settles.step (readPrimary_apply hName _)
      rw [pathOf_joinPath hNames]
      exact hArgs

theorem reads_named
    (hNames : NamesIdentifiers path)
    (hReads : ∀ c ∈ args, c.Reads) :
    (Ty.Named path args).Reads := by
  apply Ty.Reads.ofOperand rfl rfl
  intro rest hEnds
  simp only [Ty.render, Ty.erase]
  exact readOperand_renderNamed hNames hReads hEnds

theorem reads_project
    (hNames : NamesIdentifiers path)
    (hReads : ∀ c ∈ args, c.Reads) :
    (Ty.Project path args).Reads := by
  apply Ty.Reads.ofOperand rfl rfl
  intro rest hEnds
  simp only [Ty.render, Ty.erase]
  exact readOperand_renderNamed hNames hReads hEnds

theorem isName_typarName
    (hMem : c ∈ typarName i) :
    isName c = true := by
  have hLetter : ∀ k < 26, isName (Char.ofNat ('a'.toNat + k)) = true := by
    decide
  have hDigit : ∀ d : Char, d.isDigit = true → isName d = true := by
    intro d hIsDigit
    unfold isName
    simp only [decide_eq_true_eq]
    intro hSign
    simp only [List.mem_cons, List.not_mem_nil, or_false] at hSign
    rcases hSign with rfl | rfl | rfl | rfl | rfl | rfl | rfl | rfl <;>
      revert hIsDigit <;> decide
  by_cases hSmall : i < 26
  · simp only [typarName, hSmall, if_true, List.mem_cons,
      List.not_mem_nil, or_false] at hMem
    rcases hMem with rfl | rfl
    · rfl
    · exact hLetter i hSmall
  · simp only [typarName, hSmall, if_false, List.mem_cons] at hMem
    rcases hMem with rfl | rfl | hMem
    · rfl
    · rfl
    · exact hDigit c (Text.isDigit_of_mem_toDigits hMem)

theorem reads_param
    (i : Nat) :
    (Ty.Param i).Reads := by
  apply Ty.Reads.ofOperand rfl rfl
  intro rest hEnds
  have hName : ∀ c ∈ typarName i, isName c = true :=
    fun c hMem => isName_typarName hMem
  have hRead := readOperand_name hName hEnds
  rw [leafTy_typarName] at hRead
  exact hRead

theorem reads_array
    {elem : Ty}
    (hElem : elem.Reads)
    (hRank : 1 ≤ rank) :
    (Ty.Array elem rank).Reads := by
  apply Ty.Reads.ofOperand rfl rfl
  intro rest hEnds
  have hRead := hElem.operand _ (endsOperand_suffix rank rest)
  rw [readSuffixes_arraySuffix _ hRank] at hRead
  simp only [Ty.render, Ty.erase, List.append_assoc]
  exact hRead

theorem reads_tuple
    {elems : List Ty}
    (hReads : ∀ c ∈ elems, c.Reads)
    (hTwo : 2 ≤ elems.length) :
    (Ty.Tuple elems).Reads := by
  match elems, hTwo with
  | first :: second :: elems, _ =>
      have hLeft : ∀ rest, EndsLeft rest →
          Settles
            (fun n => readLeft n
              ((Ty.Tuple (first :: second :: elems)).render ++ rest))
            (some (Ty.Tuple (eraseAll (first :: second :: elems)),
              rest)) := by
        intro rest hEnds
        rcases endsOperand_behindOperand hEnds (second :: elems) with
          ⟨hOperand, hNoSuffix⟩
        have hFirst := (hReads first List.mem_cons_self).operand _ hOperand
        rw [readSuffixes_ends _ hNoSuffix] at hFirst
        have hMore := readMore_reads
          (fun c hMem => hReads c (List.mem_cons_of_mem _ hMem)) hEnds
        have hText : (Ty.Tuple (first :: second :: elems)).render ++ rest =
            operandText first first.render ++
              behindOperand (second :: elems) rest := by
          simp only [Ty.render, renderOperands, Text.intercalate_cons,
            behindOperand, List.append_assoc]
        rw [hText]
        apply Settles.step (fun n => by rw [readLeft])
        exact hFirst.bind (hMore.map _)
      have hWhole := fun rest (hEnds : EndsTy rest) =>
        readTy_left hEnds (hLeft rest hEnds.toEndsLeft)
      constructor
      · intro rest hEnds
        exact readOperand_parenthesized
          (hWhole _ (endsTy_cons (by decide) rest))
      · exact hLeft
      · exact hWhole

theorem reads_function
    {arg ret : Ty}
    (hArg : arg.Reads)
    (hRet : ret.Reads) :
    (Ty.Fun arg ret).Reads := by
  have hWhole : ∀ rest, EndsTy rest →
      Settles (fun n => readTy n ((Ty.Fun arg ret).render ++ rest))
        (some ((Ty.Fun arg ret).erase, rest)) := by
    intro rest hEnds
    have hLeft := hArg.left _ (endsLeft_arrow (ret.render ++ rest))
    simp only [Ty.render, Ty.erase, List.append_assoc]
    exact readTy_function hLeft (hRet.whole rest hEnds)
  have hOperand := fun rest =>
    readOperand_parenthesized (hWhole _ (endsTy_cons (by decide) rest))
  constructor
  · exact fun rest _ => hOperand rest
  · exact fun rest hEnds => readLeft_operand hEnds (hOperand rest)
  · exact hWhole

theorem reads_printable
    (hPrintable : ty.Printable) :
    ty.Reads := by
  revert hPrintable
  refine @Ty.rec (fun ty => ty.Printable → ty.Reads)
    (fun tys => AllPrintable tys → ∀ c ∈ tys, c.Reads)
    ?_ ?_ ?_ ?_ ?_ ?_ ?_ ?_ ?_ ty
  · intro path args ih hPrintable
    rw [Ty.Printable] at hPrintable
    exact reads_named hPrintable.1 (ih hPrintable.2)
  · intro path args ih hPrintable
    rw [Ty.Printable] at hPrintable
    exact reads_project hPrintable.1 (ih hPrintable.2)
  · intro elem rank ih hPrintable
    rw [Ty.Printable] at hPrintable
    exact reads_array (ih hPrintable.1) hPrintable.2
  · intro elems ih hPrintable
    rw [Ty.Printable] at hPrintable
    exact reads_tuple (ih hPrintable.1) hPrintable.2
  · intro arg ret ihArg ihRet hPrintable
    rw [Ty.Printable] at hPrintable
    exact reads_function (ihArg hPrintable.1) (ihRet hPrintable.2)
  · intro i _
    exact reads_param i
  · intro v hPrintable
    rw [Ty.Printable] at hPrintable
    exact hPrintable.elim
  · intro _
    exact List.forall_mem_nil _
  · intro ty tys ih ihs hPrintable c hMem
    rw [AllPrintable] at hPrintable
    rcases List.mem_cons.1 hMem with rfl | hMem
    · exact ih hPrintable.1
    · exact ihs hPrintable.2 c hMem

/- Types with one text differ at most in where a path is declared. -/
theorem render_injective
    {a b : Ty}
    (hLeft : a.Printable)
    (hRight : b.Printable) :
    a.render = b.render ↔ a.erase = b.erase := by
  constructor
  · intro hText
    have hA := (reads_printable hLeft).whole [] endsTy_nil
    have hB := (reads_printable hRight).whole [] endsTy_nil
    rw [hText] at hA
    exact congrArg Prod.fst (Option.some.inj (hA.unique hB))
  · intro hErase
    rw [← render_erase a, ← render_erase b, hErase]

/- A function under an array is not a function to an array. -/
theorem render_injective_parentheses :
    (Ty.Array (.Fun (.Param 0) (.Named ["int"] [])) 2).render ≠
      (Ty.Fun (.Param 0) (.Array (.Named ["int"] []) 2)).render := by
  have hNames : NamesIdentifiers ["int"] := by
    intro segment hMem
    rw [List.mem_singleton.1 hMem]
    exact ⟨by decide, by decide, Text.forall_mem_of_all (by decide)⟩
  intro hText
  have hErase := (render_injective
    (by simp [Ty.Printable, AllPrintable, hNames])
    (by simp [Ty.Printable, AllPrintable, hNames])).1 hText
  simp [Ty.erase] at hErase

end Unify

end Borzoi
