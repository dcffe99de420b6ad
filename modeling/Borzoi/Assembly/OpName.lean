import Borzoi.Program.PrefixCode

/-
  The compiled names of operators.

  An operator with a dedicated name has it from a table; any other run of
  operator characters spells each character after `op_`.  The character
  names are prefix free, and no dedicated name is another operator spelled
  out, so compiling operators loses nothing.  Reading a name back also
  knows the space, which no operator outside the table may have.

  Main declarations:
    * `compileOpName`
    * `decompileOpName`
    * `operatorDisplayName`
    * `op_names_invert`
-/

namespace Borzoi

namespace Assembly

open PrefixCode

def OP_NAME_TABLE :
    List (List Char × List Char) :=
  [("[]", "op_Nil"),
    ("::", "op_ColonColon"),
    ("+", "op_Addition"),
    ("~%", "op_Splice"),
    ("~%%", "op_SpliceUntyped"),
    ("~++", "op_Increment"),
    ("~--", "op_Decrement"),
    ("-", "op_Subtraction"),
    ("*", "op_Multiply"),
    ("**", "op_Exponentiation"),
    ("/", "op_Division"),
    ("@", "op_Append"),
    ("^", "op_Concatenate"),
    ("%", "op_Modulus"),
    ("&&&", "op_BitwiseAnd"),
    ("|||", "op_BitwiseOr"),
    ("^^^", "op_ExclusiveOr"),
    ("<<<", "op_LeftShift"),
    ("~~~", "op_LogicalNot"),
    (">>>", "op_RightShift"),
    ("~+", "op_UnaryPlus"),
    ("~-", "op_UnaryNegation"),
    ("~&", "op_AddressOf"),
    ("~&&", "op_IntegerAddressOf"),
    ("&&", "op_BooleanAnd"),
    ("||", "op_BooleanOr"),
    ("<=", "op_LessThanOrEqual"),
    ("=", "op_Equality"),
    ("<>", "op_Inequality"),
    (">=", "op_GreaterThanOrEqual"),
    ("<", "op_LessThan"),
    (">", "op_GreaterThan"),
    ("|>", "op_PipeRight"),
    ("||>", "op_PipeRight2"),
    ("|||>", "op_PipeRight3"),
    ("<|", "op_PipeLeft"),
    ("<||", "op_PipeLeft2"),
    ("<|||", "op_PipeLeft3"),
    ("!", "op_Dereference"),
    (">>", "op_ComposeRight"),
    ("<<", "op_ComposeLeft"),
    ("<< >>", "op_TypedQuotationUnicode"),
    ("<<| |>>", "op_ChevronsBar"),
    ("<@ @>", "op_Quotation"),
    ("<@@ @@>", "op_QuotationUntyped"),
    ("+=", "op_AdditionAssignment"),
    ("-=", "op_SubtractionAssignment"),
    ("*=", "op_MultiplyAssignment"),
    ("/=", "op_DivisionAssignment"),
    ("..", "op_Range"),
    (".. ..", "op_RangeStep"),
    ("?", "op_Dynamic"),
    ("?<-", "op_DynamicAssignment"),
    (".()", "op_ArrayLookup"),
    (".()<-", "op_ArrayAssign")].map fun (op, compiled) =>
      (op.toList, compiled.toList)

def OP_CHAR_TABLE :
    List (Char × List Char) :=
  [('>', "Greater"),
    ('<', "Less"),
    ('+', "Plus"),
    ('-', "Minus"),
    ('*', "Multiply"),
    ('=', "Equals"),
    ('~', "Twiddle"),
    ('%', "Percent"),
    ('.', "Dot"),
    ('$', "Dollar"),
    ('&', "Amp"),
    ('|', "Bar"),
    ('@', "At"),
    ('#', "Hash"),
    ('^', "Hat"),
    ('!', "Bang"),
    ('?', "Qmark"),
    ('/', "Divide"),
    (':', "Colon"),
    ('(', "LParen"),
    (',', "Comma"),
    (')', "RParen"),
    (' ', "Space"),
    ('[', "LBrack"),
    (']', "RBrack")].map fun (c, name) => (c, name.toList)

def opCharName
    (c : Char) :
    Option (List Char) :=
  nameOf OP_CHAR_TABLE c

/- The dedicated name of an operator. -/
def dedicatedName
    (spelling : List Char) :
    Option (List Char) :=
  (OP_NAME_TABLE.find? fun (op, _) => op == spelling).map Prod.snd

def isOperatorSpelling
    (spelling : List Char) :
    Bool :=
  (OP_NAME_TABLE.any fun (op, _) => op == spelling) ||
    (spelling != [] &&
      spelling.all fun c => c != ' ' && (opCharName c).isSome)

def compileOpName
    (spelling : List Char) :
    List Char :=
  match dedicatedName spelling with
  | some compiled => compiled
  | none =>
      if !isOperatorSpelling spelling then
        spelling
      else
        "op_".toList ++ spell OP_CHAR_TABLE spelling

/- The operator a dedicated name is of. -/
def dedicatedOperator
    (logical : List Char) :
    Option (List Char) :=
  (OP_NAME_TABLE.find? fun (_, compiled) => compiled == logical).map Prod.fst

def decompileOpName
    (logical : List Char) :
    Option (List Char) :=
  match dedicatedOperator logical with
  | some op => some op
  | none =>
      if "op_".toList.isPrefixOf logical then
        (read OP_CHAR_TABLE (logical.drop 3)).bind fun out =>
          if out = [] then none else some out
      else
        none

/- Whether an operator is shown with spaces. -/
def isSpaced
    (op : List Char) :
    Bool :=
  op != ['*'] && (op.head? == some '*' || op.getLast? == some '*')

def operatorDisplayName
    (logical : List Char) :
    Option (List Char) :=
  (decompileOpName logical).map fun op =>
    if isSpaced op then
      "( ".toList ++ op ++ " )".toList
    else
      "(".toList ++ op ++ ")".toList

theorem opCharTable_free :
    PrefixFree OP_CHAR_TABLE where
  nonempty := by decide +kernel
  unique := by
    simp only [OP_CHAR_TABLE, List.map_cons, List.map_nil,
      String.reduceToList]
    decide +kernel
  letters := by decide +kernel

/- No operator and no name stands twice, and a name that could be an
   operator spelled out is that of the same operator. -/
theorem opNameTable_apart :
    (OP_NAME_TABLE.map Prod.fst).Nodup ∧
      (OP_NAME_TABLE.map Prod.snd).Nodup ∧
      ∀ entry ∈ OP_NAME_TABLE,
        read OP_CHAR_TABLE (entry.2.drop 3) = none ∨
          read OP_CHAR_TABLE (entry.2.drop 3) = some entry.1 := by
  simp only [OP_NAME_TABLE, OP_CHAR_TABLE, List.map_cons, List.map_nil,
    String.reduceToList]
  decide +kernel

/- Each operator has one dedicated name. -/
theorem dedicatedName_of_mem :
    ∀ entry ∈ OP_NAME_TABLE, dedicatedName entry.1 = some entry.2 := by
  intro entry hEntry
  unfold dedicatedName
  rw [find_of_nodup opNameTable_apart.1 hEntry]
  rfl

/- Each dedicated name has one operator. -/
theorem dedicatedOperator_of_mem :
    ∀ entry ∈ OP_NAME_TABLE, dedicatedOperator entry.2 = some entry.1 := by
  intro entry hEntry
  unfold dedicatedOperator
  rw [find_of_nodup opNameTable_apart.2.1 hEntry]
  rfl

section Inversion

variable {spelling logical op compiled : List Char}

theorem mem_of_dedicatedName
    (hName : dedicatedName spelling = some compiled) :
    (spelling, compiled) ∈ OP_NAME_TABLE := by
  unfold dedicatedName at hName
  rcases Option.map_eq_some_iff.1 hName with ⟨⟨op, c⟩, hFind, rfl⟩
  have hOp : op = spelling := by
    simpa using List.find?_some hFind
  rw [← hOp]
  exact List.mem_of_find?_eq_some hFind

theorem mem_of_dedicatedOperator
    (hOperator : dedicatedOperator logical = some op) :
    (op, logical) ∈ OP_NAME_TABLE := by
  unfold dedicatedOperator at hOperator
  rcases Option.map_eq_some_iff.1 hOperator with ⟨⟨o, c⟩, hFind, rfl⟩
  have hName : c = logical := by
    simpa using List.find?_some hFind
  rw [← hName]
  exact List.mem_of_find?_eq_some hFind

/- An operator without a dedicated name is a run of operator
   characters. -/
theorem isOperatorSpelling_iff
    (hNone : dedicatedName spelling = none) :
    isOperatorSpelling spelling = true ↔
      spelling ≠ [] ∧
        ∀ c ∈ spelling, c ≠ ' ' ∧ (opCharName c).isSome = true := by
  have hNotTable :
      (OP_NAME_TABLE.any fun (op, _) => op == spelling) = false := by
    rw [List.any_eq_false]
    intro entry hEntry hOp
    rw [beq_iff_eq] at hOp
    have hName := dedicatedName_of_mem entry hEntry
    rw [hOp, hNone] at hName
    cases hName
  unfold isOperatorSpelling
  rw [hNotTable, Bool.false_or, Bool.and_eq_true, bne_iff_ne,
    List.all_eq_true]
  simp only [Bool.and_eq_true, bne_iff_ne]

theorem compileOpName_custom
    (hNone : dedicatedName spelling = none)
    (hOperator : isOperatorSpelling spelling = true) :
    compileOpName spelling = "op_".toList ++ spell OP_CHAR_TABLE spelling := by
  unfold compileOpName
  rw [hNone, hOperator]
  rfl

theorem compileOpName_dedicated
    (hName : dedicatedName spelling = some compiled) :
    compileOpName spelling = compiled := by
  unfold compileOpName
  rw [hName]

theorem decompileOpName_dedicated
    (hOperator : dedicatedOperator logical = some op) :
    decompileOpName logical = some op := by
  unfold decompileOpName
  rw [hOperator]

theorem drop_head
    (rest : List Char) :
    ("op_".toList ++ rest).drop 3 = rest := by
  have hHead : "op_".toList = ['o', 'p', '_'] := by
    decide
  rw [hHead]
  rfl

/- A name spelled out is not a dedicated one. -/
theorem dedicatedOperator_custom
    (hNone : dedicatedName spelling = none)
    (hOperator : isOperatorSpelling spelling = true) :
    dedicatedOperator ("op_".toList ++ spell OP_CHAR_TABLE spelling) =
      none := by
  cases hFind : dedicatedOperator
      ("op_".toList ++ spell OP_CHAR_TABLE spelling) with
  | none => rfl
  | some op =>
      have hMem := mem_of_dedicatedOperator hFind
      have hChars := ((isOperatorSpelling_iff hNone).1 hOperator).2
      have hRead := read_spell opCharTable_free spelling
        fun c hc => (hChars c hc).2
      have hApart := opNameTable_apart.2.2 _ hMem
      rw [drop_head, hRead] at hApart
      rcases hApart with hNever | hSame
      · cases hNever
      · have hName := dedicatedName_of_mem _ hMem
        have hOp : spelling = op := Option.some.inj hSame
        dsimp only at hName
        rw [← hOp, hNone] at hName
        cases hName

theorem decompileOpName_custom
    (hNone : dedicatedName spelling = none)
    (hOperator : isOperatorSpelling spelling = true) :
    decompileOpName ("op_".toList ++ spell OP_CHAR_TABLE spelling) =
      some spelling := by
  rcases (isOperatorSpelling_iff hNone).1 hOperator with ⟨hNonempty, hChars⟩
  have hRead := read_spell opCharTable_free spelling
    fun c hc => (hChars c hc).2
  have hHead : "op_".toList.isPrefixOf
      ("op_".toList ++ spell OP_CHAR_TABLE spelling) = true :=
    List.isPrefixOf_iff_prefix.2 (List.prefix_append _ _)
  unfold decompileOpName
  rw [dedicatedOperator_custom hNone hOperator]
  dsimp only
  rw [if_pos hHead, drop_head, hRead, Option.bind_some, if_neg hNonempty]

/- Compiling an operator and reading the name back. -/
theorem decompile_compile
    (hOperator : isOperatorSpelling spelling = true) :
    decompileOpName (compileOpName spelling) = some spelling := by
  cases hName : dedicatedName spelling with
  | some compiled =>
      rw [compileOpName_dedicated hName]
      exact decompileOpName_dedicated
        (dedicatedOperator_of_mem _ (mem_of_dedicatedName hName))
  | none =>
      rw [compileOpName_custom hName hOperator]
      exact decompileOpName_custom hName hOperator

/- What a name reads back as: a dedicated operator, or a run of characters
   with names, spelled out after `op_`. -/
theorem decompile_cases
    (hRead : decompileOpName logical = some op) :
    (op, logical) ∈ OP_NAME_TABLE ∨
      op ≠ [] ∧ (∀ c ∈ op, (opCharName c).isSome = true) ∧
        logical = "op_".toList ++ spell OP_CHAR_TABLE op := by
  unfold decompileOpName at hRead
  cases hOperator : dedicatedOperator logical with
  | some o =>
      rw [hOperator] at hRead
      cases hRead
      exact Or.inl (mem_of_dedicatedOperator hOperator)
  | none =>
      rw [hOperator] at hRead
      dsimp only at hRead
      rw [Option.ite_none_right_eq_some] at hRead
      rcases hRead with ⟨hHead, hRest⟩
      rcases Option.bind_eq_some_iff.1 hRest with ⟨out, hOut, hSome⟩
      rw [Option.ite_none_left_eq_some] at hSome
      rcases hSome with ⟨hNonempty, hEq⟩
      cases hEq
      rcases spell_of_read opCharTable_free hOut with ⟨hSpell, hNamed⟩
      refine Or.inr ⟨hNonempty, hNamed, ?_⟩
      rw [hSpell]
      exact (List.prefix_iff_eq_append.1
        (List.isPrefixOf_iff_prefix.1 hHead)).symm

/- Compiling what a name reads back as: the name itself or the dedicated
   one, except for an operator with a space, which is left alone. -/
theorem compile_of_decompile
    (hRead : decompileOpName logical = some op) :
    compileOpName op = logical ∨ (op, compileOpName op) ∈ OP_NAME_TABLE ∨
      isOperatorSpelling op = false ∧ ' ' ∈ op ∧ compileOpName op = op := by
  cases hName : dedicatedName op with
  | some compiled =>
      rw [compileOpName_dedicated hName]
      exact Or.inr (Or.inl (mem_of_dedicatedName hName))
  | none =>
      rcases decompile_cases hRead with hMem | ⟨hNonempty, hChars, hLogical⟩
      · have hDedicated := dedicatedName_of_mem _ hMem
        rw [hName] at hDedicated
        cases hDedicated
      · cases hOperator : isOperatorSpelling op with
        | true =>
            rw [compileOpName_custom hName hOperator]
            exact Or.inl hLogical.symm
        | false =>
            refine Or.inr (Or.inr ⟨rfl, ?_, ?_⟩)
            · by_contra hSpace
              have hTrue : isOperatorSpelling op = true := by
                refine (isOperatorSpelling_iff hName).2 ⟨hNonempty, ?_⟩
                intro c hc
                refine ⟨?_, hChars c hc⟩
                rintro rfl
                exact hSpace hc
              rw [hOperator] at hTrue
              cases hTrue
            · unfold compileOpName
              rw [hName, hOperator]
              rfl

end Inversion

/- Operators and their compiled names determine each other.  A name that
   reads back as a table operator or a run without spaces is that
   operator's name or spells it out beside a dedicated one; any other name
   that reads back stands for a run with a space, which compiling leaves
   alone. -/
theorem op_names_invert :
    (∀ spelling, isOperatorSpelling spelling = true →
      decompileOpName (compileOpName spelling) = some spelling ∧
        operatorDisplayName (compileOpName spelling) =
          some (if isSpaced spelling then
            "( ".toList ++ spelling ++ " )".toList
          else
            "(".toList ++ spelling ++ ")".toList)) ∧
      (∀ spelling other, isOperatorSpelling spelling = true →
        isOperatorSpelling other = true →
          compileOpName spelling = compileOpName other →
            spelling = other) ∧
      ∀ logical op, decompileOpName logical = some op →
        compileOpName op = logical ∨
          (op, compileOpName op) ∈ OP_NAME_TABLE ∨
            isOperatorSpelling op = false ∧ ' ' ∈ op ∧
              compileOpName op = op := by
  refine ⟨?_, ?_, fun _ _ => compile_of_decompile⟩
  · intro spelling hOperator
    have hRead := decompile_compile hOperator
    refine ⟨hRead, ?_⟩
    unfold operatorDisplayName
    rw [hRead]
    rfl
  · intro spelling other hOperator hOther hSame
    have hRead := decompile_compile hOperator
    rw [hSame, decompile_compile hOther] at hRead
    cases hRead
    rfl

/- `op_Space` reads back as a space, which is no operator. -/
theorem op_space_not_compiled :
    ¬ ∀ logical op, decompileOpName logical = some op →
      compileOpName op = logical ∨
        (op, compileOpName op) ∈ OP_NAME_TABLE := by
  intro hClaim
  have hRead : decompileOpName "op_Space".toList = some [' '] := by
    decide +kernel
  have hNeither : ¬ (compileOpName [' '] = "op_Space".toList ∨
      ([' '], compileOpName [' ']) ∈ OP_NAME_TABLE) := by
    decide +kernel
  exact hNeither (hClaim _ _ hRead)

end Assembly

end Borzoi
