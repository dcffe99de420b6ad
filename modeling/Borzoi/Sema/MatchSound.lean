import Borzoi.Sema.MatchValues
import Mathlib.Data.List.Forall2

/-
  Reachability and values.

  What usefulness says of the lowered patterns holds of the values: a
  useful pattern matches a value that no row matches.  When every
  constant is spelt canonically the converse holds too.

  Main declarations:
    * `Reached`
    * `splitRow`
    * `usefulFor_spec`
    * `provably_reachable_sound_and_exact`
-/

namespace Borzoi

namespace MatchReach

variable {U : Type} {C : ConstKind → Type} {family : Family U}
variable {den : (kind : ConstKind) → String → C kind}

section Constructors

variable {t : Ty U} {c d : SourceCtor U C} {fields fields' : List (Ty U)}

theorem Applies.builds
    (hApplies : Applies family t c fields) :
    Builds family t (denotes den c) fields := by
  cases hApplies with
  | unit =>
      exact .unit
  | bool b =>
      exact .bool b
  | canonical kind spelling =>
      exact .const kind _
  | spelt kind value =>
      exact .const kind value
  | tuple fields =>
      exact .tuple fields
  | case hCase =>
      exact .case hCase

/- The fields of a value are those of its constructor. -/
theorem Applies.fields_eq
    (hApplies : Applies family t c fields)
    (hBuilds : Builds family t (denotes den c) fields') :
    fields' = fields := by
  cases hApplies with
  | case hCase =>
      cases hBuilds with
      | case hCase' =>
          rw [hCase] at hCase'
          exact (Option.some.inj hCase').symm
  | _ =>
      cases hBuilds
      rfl

theorem sameType_of_applies
    [DecidableEq U]
    (hc : Applies family t c fields)
    (hd : Applies family t d fields') :
    sameType (lowerCtor family c) (lowerCtor family d) = true := by
  cases hc with
  | unit =>
      cases hd
      rfl
  | bool b =>
      cases hd
      rfl
  | canonical kind spelling =>
      cases hd with
      | canonical =>
          exact decide_eq_true rfl
      | spelt =>
          exact decide_eq_true rfl
  | spelt kind value =>
      cases hd with
      | canonical =>
          exact decide_eq_true rfl
      | spelt =>
          exact decide_eq_true rfl
  | tuple fields =>
      cases hd
      exact beq_self_eq_true _
  | case hCase =>
      cases hd
      exact decide_eq_true rfl

/- Constructors that may be equal have the same fields. -/
theorem fields_of_mayEqual
    (hc : Applies family t c fields)
    (hd : Applies family t d fields')
    (hMay : mayEqual (lowerCtor family c) (lowerCtor family d) = true) :
    fields = fields' := by
  cases hc with
  | unit =>
      cases hd
      rfl
  | bool b =>
      cases hd
      rfl
  | canonical kind spelling =>
      cases hd with
      | canonical =>
          rfl
      | spelt =>
          rfl
  | spelt kind value =>
      cases hd with
      | canonical =>
          rfl
      | spelt =>
          rfl
  | tuple fields =>
      cases hd
      rfl
  | case hCase =>
      cases hd with
      | case hCase' =>
          have hIndex := eq_of_beq hMay
          rw [hIndex, hCase'] at hCase
          cases hCase
          rfl

/- Constructors that denote the same may be equal. -/
theorem mayEqual_of_denotes
    (hDen : ∀ kind, Function.Injective (den kind))
    (hc : Applies family t c fields)
    (hd : Applies family t d fields')
    (hSame : denotes den c = denotes den d) :
    mayEqual (lowerCtor family c) (lowerCtor family d) = true := by
  cases hc with
  | unit =>
      cases hd
      rfl
  | bool b =>
      cases hd
      cases hSame
      exact beq_self_eq_true b
  | canonical kind spelling =>
      cases hd with
      | canonical _ spelling' =>
          injection hSame with _ hValue
          have hSpelling := hDen kind hValue
          rw [hSpelling]
          exact beq_self_eq_true spelling'
      | spelt =>
          rfl
  | spelt kind value =>
      cases hd with
      | canonical =>
          rfl
      | spelt =>
          rfl
  | tuple fields =>
      cases hd
      exact beq_self_eq_true _
  | case hCase =>
      cases hd
      cases hSame
      exact beq_self_eq_true _

/- Canonical constructors that may be equal denote the same. -/
theorem denotes_of_mayEqual
    (hc : Applies family t c fields)
    (hd : Applies family t d fields')
    (hcCanonical : ∀ kind value, c ≠ .spelt kind value)
    (hdCanonical : ∀ kind value, d ≠ .spelt kind value)
    (hMay : mayEqual (lowerCtor family c) (lowerCtor family d) = true) :
    denotes den c = denotes den d := by
  cases hc with
  | unit =>
      cases hd
      rfl
  | bool b =>
      cases hd with
      | bool b' =>
          rw [eq_of_beq hMay]
  | canonical kind spelling =>
      cases hd with
      | canonical _ spelling' =>
          have hSpelling : spelling = spelling' := eq_of_beq hMay
          rw [hSpelling]
      | spelt _ value =>
          exact absurd rfl (hdCanonical kind value)
  | spelt kind value =>
      exact absurd rfl (hcCanonical kind value)
  | tuple fields =>
      cases hd
      rfl
  | case hCase =>
      cases hd with
      | @case _ index' _ hCase' =>
          have hIndex := eq_of_beq hMay
          exact congrArg ValueCtor.case hIndex

theorem arityOf_of_applies
    {args : List (ClausePat U)}
    (hc : Applies family t c fields)
    (hArgs : args.length = fields.length) :
    arityOf (lowerCtor family c) args = fields.length := by
  cases hc with
  | case hCase =>
      exact hArgs
  | _ =>
      rfl

end Constructors

variable {row row' : List (SourcePat U C)} {fs vs : List (Value C)}
variable {arity : Nat} {α : Type} {xs : List α} {test : α → Except Fault Bool}

section Rows

variable {β : Type} {ws : List β} {zs : List β} {R : α → β → Prop}

/- A pattern that is related to everything. -/
theorem forall₂_replicate
    {a : α}
    (hAll : ∀ b, R a b)
    (bs : List β) :
    List.Forall₂ R (List.replicate bs.length a) bs := by
  induction bs with
  | nil =>
      exact .nil
  | cons b bs ih =>
      exact .cons (hAll b) ih

/- Related lists fall apart at the same place. -/
theorem forall₂_split
    {xs ys : List α}
    (hLength : xs.length = zs.length)
    (hRel : List.Forall₂ R (xs ++ ys) (zs ++ ws)) :
    List.Forall₂ R xs zs ∧ List.Forall₂ R ys ws := by
  induction xs generalizing zs with
  | nil =>
      cases zs with
      | nil =>
          exact ⟨.nil, hRel⟩
      | cons z zs =>
          cases hLength
  | cons x xs ih =>
      cases zs with
      | nil =>
          cases hLength
      | cons z zs =>
          cases hRel with
          | cons hHead hTail =>
              rcases ih (Nat.succ.inj hLength) hTail with ⟨hXs, hYs⟩
              exact ⟨.cons hHead hXs, hYs⟩

theorem forall₂_append_inv
    (hRel : List.Forall₂ R xs (zs ++ ws)) :
    ∃ ys us, xs = ys ++ us ∧ List.Forall₂ R ys zs ∧
      List.Forall₂ R us ws := by
  induction zs generalizing xs with
  | nil =>
      exact ⟨[], xs, rfl, .nil, hRel⟩
  | cons z zs ih =>
      cases hRel with
      | @cons x _ _ _ hHead hTail =>
          rcases ih hTail with ⟨ys, us, rfl, hYs, hUs⟩
          exact ⟨x :: ys, us, rfl, .cons hHead hYs, hUs⟩

theorem lowerRow_append
    (ps qs : List (SourcePat U C)) :
    lowerRow family (ps ++ qs) =
      lowerRow family ps ++ lowerRow family qs := by
  induction ps with
  | nil =>
      simp only [List.nil_append, lowerRow]
  | cons p ps ih =>
      simp only [List.cons_append, lowerRow, ih]

theorem lowerRow_replicate
    (n : Nat) :
    lowerRow family (List.replicate n (.any : SourcePat U C)) =
      List.replicate n .Any := by
  induction n with
  | zero =>
      simp only [List.replicate_zero, lowerRow]
  | succ n ih =>
      simp only [List.replicate_succ, lowerRow, lowerPat, ih]

theorem lowerRow_length
    (ps : List (SourcePat U C)) :
    (lowerRow family ps).length = ps.length := by
  induction ps with
  | nil =>
      simp only [lowerRow, List.length_nil]
  | cons p ps ih =>
      simp only [lowerRow, List.length_cons, ih]

/- The row a value of the constructor leaves, if it may match. -/
def splitRow
    (family : Family U)
    (c : SourceCtor U C)
    (arity : Nat)
    (row : List (SourcePat U C)) :
    Option (List (SourcePat U C)) :=
  match row with
  | [] => none
  | .any :: rest => some (List.replicate arity .any ++ rest)
  | .ctor d args :: rest =>
      if mayEqual (lowerCtor family c) (lowerCtor family d) then
        some (args ++ rest)
      else
        none

/- A row of patterns of the given types. -/
def RowTyped
    (family : Family U)
    (row : List (SourcePat U C))
    (ts : List (Ty U)) :
    Prop :=
  List.Forall₂ (PatTyped family) row ts

/- A row of values that the patterns match. -/
def RowMatches
    (den : (kind : ConstKind) → String → C kind)
    (row : List (SourcePat U C))
    (vs : List (Value C)) :
    Prop :=
  List.Forall₂ (Matches den) row vs

variable {t : Ty U} {ts fields : List (Ty U)} {c : SourceCtor U C}
variable {rows : List (List (SourcePat U C))}

/- Specialising lowered rows lowers what is left of them. -/
theorem specialise_lower
    [DecidableEq U]
    (hc : Applies family t c fields)
    (hRows : ∀ row ∈ rows, RowTyped family row (t :: ts)) :
    specialise (rows.map (lowerRow family)) (lowerCtor family c)
        fields.length =
      .ok (some ((rows.filterMap
        (splitRow family c fields.length)).map (lowerRow family))) := by
  induction rows with
  | nil =>
      rfl
  | cons row rows ih =>
      have hRest := ih fun row' hMem =>
        hRows row' (List.mem_cons_of_mem _ hMem)
      have hRow := hRows row List.mem_cons_self
      cases hRow with
      | @cons p _ rest _ hHead hTail =>
          rw [List.map_cons, lowerRow]
          cases hHead with
          | any =>
              have hSplit : splitRow family c fields.length
                  (.any :: rest) = some (List.replicate fields.length
                    .any ++ rest) := rfl
              rw [List.filterMap_cons_some hSplit, lowerPat]
              unfold specialise
              rw [hRest]
              unfold pushRow
              dsimp only
              rw [List.map_cons, lowerRow_append, lowerRow_replicate]
          | @ctor _ d fields' args hd hArgs =>
              have hSame := sameType_of_applies hc hd
              rw [lowerPat]
              unfold specialise
              rw [if_pos hSame]
              by_cases hMay : mayEqual (lowerCtor family c)
                  (lowerCtor family d) = true
              · have hLength : (lowerRow family args).length =
                    fields.length := by
                  rw [lowerRow_length, hArgs.length_eq,
                    fields_of_mayEqual hc hd hMay]
                have hSplit : splitRow family c fields.length
                    (.ctor d args :: rest) = some (args ++ rest) :=
                  if_pos hMay
                rw [if_pos hMay, if_neg (not_not_intro hLength), hRest,
                  List.filterMap_cons_some hSplit]
                unfold pushRow
                dsimp only
                rw [List.map_cons, lowerRow_append]
              · have hSplit : splitRow family c fields.length
                    (.ctor d args :: rest) = none := if_neg hMay
                rw [if_neg hMay, hRest, List.filterMap_cons_none hSplit]

/- What is left of a row has the types of the fields in front. -/
theorem splitRow_typed
    (hc : Applies family t c fields)
    (hRow : RowTyped family row (t :: ts))
    (hSplit : splitRow family c fields.length row = some row') :
    RowTyped family row' (fields ++ ts) := by
  cases hRow with
  | cons hHead hTail =>
      cases hHead with
      | any =>
          cases hSplit
          exact List.rel_append (forall₂_replicate PatTyped.any fields)
            hTail
      | ctor hd hArgs =>
          unfold splitRow at hSplit
          dsimp only at hSplit
          split at hSplit
          · next hMay =>
              cases hSplit
              rw [fields_of_mayEqual hc hd hMay]
              exact List.rel_append hArgs hTail
          · cases hSplit

/- A row that matches the value is kept, and matches its fields. -/
theorem splitRow_matches
    (hDen : ∀ kind, Function.Injective (den kind))
    (hc : Applies family t c fields)
    (hFields : fs.length = fields.length)
    (hRow : RowTyped family row (t :: ts))
    (hMatches : RowMatches den row (.mk (denotes den c) fs :: vs)) :
    ∃ row', splitRow family c fields.length row = some row' ∧
      RowMatches den row' (fs ++ vs) := by
  cases hRow with
  | cons hHead hTail =>
      cases hMatches with
      | cons hValue hRest =>
          cases hHead with
          | any =>
              refine ⟨_, rfl, ?_⟩
              rw [← hFields]
              exact List.rel_append (forall₂_replicate Matches.any fs)
                hRest
          | @ctor _ d fields' args hd hArgs =>
              generalize hCtor : denotes den c = ctor at hValue
              cases hValue with
              | ctor hInner =>
                  have hMay := mayEqual_of_denotes hDen hc hd hCtor
                  exact ⟨_, if_pos hMay, List.rel_append hInner hRest⟩

/- A canonical row that is kept matches the value of its fields. -/
theorem matches_of_splitRow
    (hc : Applies family t c fields)
    (hCanonical : ∀ kind value, c ≠ .spelt kind value)
    (hFields : fs.length = fields.length)
    (hRow : RowTyped family row (t :: ts))
    (hPats : ∀ p ∈ row, Canonical p)
    (hSplit : splitRow family c fields.length row = some row')
    (hMatches : RowMatches den row' (fs ++ vs)) :
    RowMatches den row (.mk (denotes den c) fs :: vs) := by
  cases hRow with
  | @cons p _ rest _ hHead hTail =>
      cases hHead with
      | any =>
          cases hSplit
          have hLength : (List.replicate fields.length
              (.any : SourcePat U C)).length = fs.length := by
            rw [List.length_replicate, hFields]
          exact .cons (.any _) (forall₂_split hLength hMatches).2
      | @ctor _ d fields' args hd hArgs =>
          unfold splitRow at hSplit
          dsimp only at hSplit
          split at hSplit
          · next hMay =>
              cases hSplit
              have hLength : args.length = fs.length := by
                rw [hArgs.length_eq, hFields,
                  fields_of_mayEqual hc hd hMay]
              have hArgsCanonical : ∀ kind value,
                  d ≠ .spelt kind value := by
                cases hPats _ List.mem_cons_self with
                | ctor hCtor =>
                    exact hCtor
              rcases forall₂_split hLength hMatches with ⟨hInner, hRest⟩
              rw [denotes_of_mayEqual hc hd hCanonical hArgsCanonical
                hMay]
              exact .cons (.ctor hInner) hRest
          · cases hSplit

end Rows

------------------------------------------------------------
-- Columns
------------------------------------------------------------

section Columns

variable [DecidableEq U] {t : Ty U} {ts : List (Ty U)}
variable {rows : List (List (SourcePat U C))} {sigma : List (Ctor U × Nat)}

/- The constructor heads a row of the column. -/
def Heads
    (rows : List (List (SourcePat U C)))
    (c : SourceCtor U C) :
    Prop :=
  ∃ args rest, (.ctor c args :: rest) ∈ rows

variable {c : SourceCtor U C}

omit [DecidableEq U] in
theorem Heads.applies
    (hRows : ∀ row ∈ rows, RowTyped family row (t :: ts))
    (hHeads : Heads rows c) :
    ∃ fields, Applies family t c fields := by
  rcases hHeads with ⟨args, rest, hMem⟩
  cases hRows _ hMem with
  | cons hHead _ =>
      cases hHead with
      | ctor hApplies _ =>
          exact ⟨_, hApplies⟩

/- The constructors of a column of one type are found. -/
theorem headCtors_found
    {P : Ctor U → Prop}
    {rows : List (List (ClausePat U))}
    {n : Nat}
    (hSame : ∀ c d, P c → P d → sameType c d = true)
    (hAligned : Aligned (n + 1) rows)
    (hRows : ∀ c args rest, (.Ctor c args :: rest) ∈ rows → P c)
    (hSigma : ∀ entry ∈ sigma, P entry.1) :
    ∃ found, headCtors rows sigma = .ok (some found) ∧
      (∀ entry ∈ sigma, entry ∈ found) ∧
      ∀ c args rest, (.Ctor c args :: rest) ∈ rows →
        ∃ arity, (c, arity) ∈ found := by
  fun_induction headCtors rows sigma with
  | case1 sigma =>
      refine ⟨sigma, rfl, fun _ hMem => hMem, ?_⟩
      intro c args rest hMem
      cases hMem
  | case2 =>
      cases hAligned [] List.mem_cons_self
  | case3 sigma rest rows ih =>
      rcases ih (fun row hMem => hAligned row
          (List.mem_cons_of_mem _ hMem))
        (fun c args rest hMem => hRows c args rest
          (List.mem_cons_of_mem _ hMem)) hSigma with
        ⟨found, hFound, hOld, hNew⟩
      refine ⟨found, hFound, hOld, ?_⟩
      intro c args rest' hMem
      rcases List.mem_cons.1 hMem with hHead | hIn
      · cases hHead
      · exact hNew c args rest' hIn
  | case4 sigma c args rest rows hDiffer =>
      -- the first entry is of the column's type
      have hHead := hRows c args rest List.mem_cons_self
      cases hFirst : sigma.head? with
      | none =>
          rw [hFirst] at hDiffer
          cases hDiffer
      | some first =>
          rw [hFirst] at hDiffer
          have hEntry := hSigma first (List.mem_of_head? hFirst)
          rw [Option.any_some, hSame first.1 c hEntry hHead] at hDiffer
          cases hDiffer
  | case5 sigma c args rest rows hSameHead hSeen ih =>
      rcases ih (fun row hMem => hAligned row
          (List.mem_cons_of_mem _ hMem))
        (fun c args rest hMem => hRows c args rest
          (List.mem_cons_of_mem _ hMem)) hSigma with
        ⟨found, hFound, hOld, hNew⟩
      refine ⟨found, hFound, hOld, ?_⟩
      intro d args' rest' hMem
      rcases List.mem_cons.1 hMem with hHead | hIn
      · cases hHead
        rcases List.any_eq_true.1 hSeen with ⟨⟨e, arity⟩, hEntry, hEq⟩
        have hSameCtor : e = c := of_decide_eq_true hEq
        rw [hSameCtor] at hEntry
        exact ⟨arity, hOld _ hEntry⟩
      · exact hNew d args' rest' hIn
  | case6 sigma c args rest rows hSameHead hUnseen ih =>
      have hSigma' : ∀ entry ∈ sigma ++ [(c, arityOf c args)],
          P entry.1 := by
        intro entry hMem
        rcases List.mem_append.1 hMem with hIn | hHere
        · exact hSigma entry hIn
        · rw [List.mem_singleton.1 hHere]
          exact hRows c args rest List.mem_cons_self
      rcases ih (fun row hMem => hAligned row
          (List.mem_cons_of_mem _ hMem))
        (fun c args rest hMem => hRows c args rest
          (List.mem_cons_of_mem _ hMem)) hSigma' with
        ⟨found, hFound, hOld, hNew⟩
      refine ⟨found, hFound, ?_, ?_⟩
      · intro entry hMem
        exact hOld entry (List.mem_append_left _ hMem)
      · intro d args' rest' hMem
        rcases List.mem_cons.1 hMem with hHead | hIn
        · cases hHead
          exact ⟨_, hOld _ (List.mem_append_right _
            (List.mem_singleton.2 rfl))⟩
        · exact hNew d args' rest' hIn

/- The constructors of a well-typed column, each with its arity. -/
structure Column
    (family : Family U)
    (t : Ty U)
    (rows : List (List (SourcePat U C)))
    (sigma : List (Ctor U × Nat)) :
    Prop where
  heads : ∀ c arity, (c, arity) ∈ sigma → ∃ c' fields,
    Heads rows c' ∧ Applies family t c' fields ∧
      c = lowerCtor family c' ∧ arity = fields.length
  found : ∀ c, Heads rows c → ∃ arity,
    (lowerCtor family c, arity) ∈ sigma

omit [DecidableEq U] in
theorem row_of_lowered
    {c : Ctor U}
    {args rest : List (ClausePat U)}
    (hMem : (.Ctor c args :: rest) ∈ rows.map (lowerRow family)) :
    ∃ d args' rest', (.ctor d args' :: rest') ∈ rows ∧
      c = lowerCtor family d ∧ args = lowerRow family args' := by
  rcases List.mem_map.1 hMem with ⟨row, hIn, hLower⟩
  cases row with
  | nil =>
      cases hLower
  | cons p ps =>
      rw [lowerRow] at hLower
      cases p with
      | any =>
          rw [lowerPat] at hLower
          cases hLower
      | ctor d args' =>
          rw [lowerPat] at hLower
          cases hLower
          exact ⟨d, args', ps, hIn, rfl, rfl⟩

theorem headCtors_column
    (hRows : ∀ row ∈ rows, RowTyped family row (t :: ts)) :
    ∃ sigma, headCtors (rows.map (lowerRow family)) [] =
        .ok (some sigma) ∧
      Column family t rows sigma := by
  have hAligned : Aligned (ts.length + 1)
      (rows.map (lowerRow family)) := by
    intro row hMem
    rcases List.mem_map.1 hMem with ⟨row', hIn, rfl⟩
    rw [lowerRow_length, (hRows row' hIn).length_eq, List.length_cons]
  have hSame : ∀ c d, (∃ (c' : SourceCtor U C) (fields : _),
        Applies family t c' fields ∧ c = lowerCtor family c') →
      (∃ (d' : SourceCtor U C) (fields : _),
        Applies family t d' fields ∧ d = lowerCtor family d') →
      sameType c d = true := by
    rintro c d ⟨c', fields, hc, rfl⟩ ⟨d', fields', hd, rfl⟩
    exact sameType_of_applies hc hd
  have hHeads : ∀ c args rest,
      (.Ctor c args :: rest) ∈ rows.map (lowerRow family) →
      ∃ (c' : SourceCtor U C) (fields : _),
        Applies family t c' fields ∧ c = lowerCtor family c' := by
    intro c args rest hMem
    rcases row_of_lowered hMem with ⟨d, args', rest', hIn, hc, -⟩
    rcases Heads.applies hRows ⟨args', rest', hIn⟩ with
      ⟨fields, hApplies⟩
    exact ⟨d, fields, hApplies, hc⟩
  rcases headCtors_found hSame hAligned hHeads
    (List.forall_mem_nil _) with ⟨sigma, hSigma, -, hFound⟩
  refine ⟨sigma, hSigma, ?_, ?_⟩
  · intro c arity hEntry
    rcases headCtors_mem hSigma hEntry with
      hNone | ⟨args, rest, hMem, hArity⟩
    · cases hNone
    · rcases row_of_lowered hMem with ⟨d, args', rest', hIn, hc, hArgs⟩
      cases hRows _ hIn with
      | cons hHead _ =>
          cases hHead with
          | @ctor _ _ fields _ hApplies hFields =>
              refine ⟨d, fields, ⟨args', rest', hIn⟩, hApplies, hc, ?_⟩
              rw [hArity, hc]
              apply arityOf_of_applies hApplies
              rw [hArgs, lowerRow_length, hFields.length_eq]
  · rintro c ⟨args, rest, hIn⟩
    apply hFound _ (lowerRow family args) (lowerRow family rest)
    apply List.mem_map.2
    refine ⟨_, hIn, ?_⟩
    rw [lowerRow, lowerPat]

/- The first constructor of a column that is not empty. -/
omit [DecidableEq U] in
theorem Column.first
    {first : Ctor U}
    {rest : List (Ctor U × Nat)}
    (hColumn : Column family t rows ((first, arity) :: rest)) :
    ∃ c fields, Heads rows c ∧ Applies family t c fields ∧
      first = lowerCtor family c ∧ arity = fields.length :=
  hColumn.heads first arity List.mem_cons_self

/- A complete column names every constructor of its type. -/
theorem Column.covers
    {ctor : ValueCtor C}
    {fields : List (Ty U)}
    (hColumn : Column family t rows sigma)
    (hComplete : complete sigma = true)
    (hBuilds : Builds family t ctor fields) :
    ∃ c, Heads rows c ∧ Applies family t c fields ∧
      denotes den c = ctor ∧
      (lowerCtor family c, fields.length) ∈ sigma := by
  cases sigma with
  | nil =>
      cases hComplete
  | cons entry rest =>
      rcases entry with ⟨first, arity⟩
      rcases hColumn.first with ⟨c, fields', hHeads, hApplies, rfl, rfl⟩
      cases hBuilds with
      | unit =>
          cases hApplies
          exact ⟨_, hHeads, .unit, rfl, List.mem_cons_self⟩
      | tuple fields =>
          cases hApplies
          exact ⟨_, hHeads, .tuple fields, rfl, List.mem_cons_self⟩
      | const kind value =>
          cases hApplies with
          | canonical =>
              cases hComplete
          | spelt =>
              cases hComplete
      | bool b =>
          cases hApplies
          have hNamed := List.all_eq_true.1 hComplete b
            (by cases b <;> simp)
          rcases List.any_eq_true.1 hNamed with
            ⟨⟨d, arity⟩, hMem, hEq⟩
          have hCtor : d = .Bool b := of_decide_eq_true hEq
          rcases hColumn.heads d arity hMem with
            ⟨d', fields', hHeads', hApplies', hLower, hArity⟩
          cases hApplies' with
          | bool b' =>
              rw [hCtor] at hLower hMem
              cases hLower
              rw [hArity] at hMem
              exact ⟨_, hHeads', .bool b, rfl, hMem⟩
      | @case name index fields hCase =>
          cases hApplies
          have hIndex : index < (family name).length :=
            (List.getElem?_eq_some_iff.1 hCase).1
          have hNamed := List.all_eq_true.1 hComplete index
            (List.mem_range.2 hIndex)
          rcases List.any_eq_true.1 hNamed with
            ⟨⟨d, arity⟩, hMem, hIs⟩
          rcases hColumn.heads d arity hMem with
            ⟨d', fields', hHeads', hApplies', hLower, hArity⟩
          cases hApplies' with
          | @case _ index' _ hCase' =>
              rw [hLower] at hIs hMem
              have hSame : index' = index := eq_of_beq hIs
              rw [hSame] at hHeads' hMem hCase'
              rw [hCase] at hCase'
              cases hCase'
              rw [hArity] at hMem
              exact ⟨_, hHeads', .case hCase, rfl, hMem⟩

omit [DecidableEq U] in
theorem Column.no_heads
    (hColumn : Column family t rows []) :
    ¬ Heads rows c := by
  intro hHeads
  rcases hColumn.found c hHeads with ⟨arity, hMem⟩
  cases hMem

/- A value that no constant spells is built by no head. -/
omit [DecidableEq U] in
theorem fresh_leaves
    {kind : ConstKind}
    (hFresh : ∃ value : C kind, ∀ row ∈ rows, ∀ p ∈ row,
      ¬ Spells den kind value p) :
    ∃ (ctor : ValueCtor C) (fields : List (Ty U)),
      Builds family (.const kind) ctor fields ∧
      ∀ c, Heads rows c → denotes den c ≠ ctor := by
  rcases hFresh with ⟨value, hNone⟩
  refine ⟨.const kind value, [], .const kind value, ?_⟩
  rintro c ⟨args, rest, hMem⟩ hSame
  exact hNone _ hMem _ List.mem_cons_self (.here hSame)

/- An open column leaves a constructor of its type. -/
theorem Column.leaves
    (hRows : ∀ row ∈ rows, RowTyped family row (t :: ts))
    (hColumn : Column family t rows sigma)
    (hOpen : complete sigma = false)
    (hInhabited : ∃ v : Value C, HasType family v t)
    (hFresh : ∀ kind, ∃ value : C kind, ∀ row ∈ rows, ∀ p ∈ row,
      ¬ Spells den kind value p) :
    ∃ (ctor : ValueCtor C) (fields : List (Ty U)),
      Builds family t ctor fields ∧
      ∀ c, Heads rows c → denotes den c ≠ ctor := by
  cases sigma with
  | nil =>
      rcases hInhabited with ⟨v, hTyped⟩
      cases hTyped with
      | mk hBuilds _ =>
          refine ⟨_, _, hBuilds, ?_⟩
          intro c hHeads
          exact absurd hHeads hColumn.no_heads
  | cons entry rest =>
      rcases entry with ⟨first, arity⟩
      rcases hColumn.first with ⟨c, fields', hHeads, hApplies, rfl, rfl⟩
      cases hApplies with
      | unit =>
          cases hOpen
      | tuple fields =>
          cases hOpen
      | bool b =>
          -- one of the two is not in the column
          rcases List.all_eq_false.1 hOpen with ⟨missing, -, hMissing⟩
          refine ⟨.bool missing, [], .bool missing, ?_⟩
          intro d hHeads' hSame
          rcases Heads.applies hRows hHeads' with ⟨fields', hApplies'⟩
          cases hApplies' with
          | bool b' =>
              cases hSame
              rcases hColumn.found _ hHeads' with ⟨arity, hMem⟩
              apply hMissing
              exact List.any_eq_true.2 ⟨_, hMem, decide_eq_true rfl⟩
      | canonical kind spelling =>
          exact fresh_leaves (hFresh kind)
      | spelt kind value =>
          exact fresh_leaves (hFresh kind)
      | @case name index fields hCase =>
          rcases List.all_eq_false.1 hOpen with
            ⟨missing, hRange, hMissing⟩
          have hIndex := List.mem_range.1 hRange
          refine ⟨.case missing, _,
            .case (List.getElem?_eq_getElem hIndex), ?_⟩
          intro d hHeads' hSame
          rcases Heads.applies hRows hHeads' with ⟨fields', hApplies'⟩
          cases hApplies' with
          | case hCase' =>
              cases hSame
              rcases hColumn.found _ hHeads' with ⟨arity, hMem⟩
              apply hMissing
              exact List.any_eq_true.2 ⟨_, hMem, beq_self_eq_true _⟩

end Columns

------------------------------------------------------------
-- Reached Values
------------------------------------------------------------

/- Some values match the patterns and no row. -/
def Reached
    (family : Family U)
    (den : (kind : ConstKind) → String → C kind)
    (ts : List (Ty U))
    (rows : List (List (SourcePat U C)))
    (q : List (SourcePat U C)) :
    Prop :=
  ∃ vs, List.Forall₂ (HasType family) vs ts ∧ RowMatches den q vs ∧
    ∀ row ∈ rows, ¬ RowMatches den row vs

/- Every kind has a value that no constant of the rows has. -/
def Fresh
    (den : (kind : ConstKind) → String → C kind)
    (rows : List (List (SourcePat U C))) :
    Prop :=
  ∀ kind, ∃ value : C kind, ∀ row ∈ rows, ∀ p ∈ row,
    ¬ Spells den kind value p

/- Every constant of the rows is spelt canonically. -/
def AllCanonical
    (rows : List (List (SourcePat U C))) :
    Prop :=
  ∀ row ∈ rows, ∀ p ∈ row, Canonical p

/- The rest of a row whose head matches everything. -/
def openRow
    (row : List (SourcePat U C)) :
    Option (List (SourcePat U C)) :=
  match row with
  | .any :: rest => some rest
  | _ => none

section Reaching

variable {t : Ty U} {ts fields : List (Ty U)} {c : SourceCtor U C}
variable {rows : List (List (SourcePat U C))} {p : SourcePat U C}
variable {qs rest : List (SourcePat U C)}

theorem splitRow_mem
    (hSplit : splitRow family c arity row = some row')
    (hMem : p ∈ row') :
    p = .any ∨ p ∈ row ∨
      ∃ d args, (.ctor d args) ∈ row ∧ p ∈ args := by
  cases row with
  | nil =>
      cases hSplit
  | cons head rest =>
      cases head with
      | any =>
          cases hSplit
          rcases List.mem_append.1 hMem with hAny | hRest
          · exact Or.inl (List.eq_of_mem_replicate hAny)
          · exact Or.inr (Or.inl (List.mem_cons_of_mem _ hRest))
      | ctor d args =>
          unfold splitRow at hSplit
          dsimp only at hSplit
          split at hSplit
          · cases hSplit
            rcases List.mem_append.1 hMem with hArg | hRest
            · exact Or.inr (Or.inr ⟨d, args, List.mem_cons_self, hArg⟩)
            · exact Or.inr (Or.inl (List.mem_cons_of_mem _ hRest))
          · cases hSplit

theorem Fresh.split
    (hFresh : Fresh den rows) :
    Fresh den (rows.filterMap (splitRow family c arity)) := by
  intro kind
  rcases hFresh kind with ⟨value, hNone⟩
  refine ⟨value, ?_⟩
  intro row' hRow' p hMem hSpells
  rcases List.mem_filterMap.1 hRow' with ⟨row, hRow, hSplit⟩
  rcases splitRow_mem hSplit hMem with rfl | hIn | ⟨d, args, hCtor, hArg⟩
  · cases hSpells
  · exact hNone row hRow p hIn hSpells
  · exact hNone row hRow _ hCtor (.inside hArg hSpells)

theorem AllCanonical.split
    (hCanonical : AllCanonical rows) :
    AllCanonical (rows.filterMap (splitRow family c arity)) := by
  intro row' hRow' p hMem
  rcases List.mem_filterMap.1 hRow' with ⟨row, hRow, hSplit⟩
  rcases splitRow_mem hSplit hMem with rfl | hIn | ⟨d, args, hCtor, hArg⟩
  · exact .any
  · exact hCanonical row hRow p hIn
  · cases hCanonical row hRow _ hCtor with
    | ctor _ hArgs =>
        exact hArgs p hArg

theorem split_typed
    (hc : Applies family t c fields)
    (hRows : ∀ row ∈ rows, RowTyped family row (t :: ts)) :
    ∀ row ∈ rows.filterMap (splitRow family c fields.length),
      RowTyped family row (fields ++ ts) := by
  intro row' hRow'
  rcases List.mem_filterMap.1 hRow' with ⟨row, hRow, hSplit⟩
  exact splitRow_typed hc (hRows row hRow) hSplit

/- Values for the fields give a value for the constructor. -/
theorem reached_of_split
    (hDen : ∀ kind, Function.Injective (den kind))
    (hc : Applies family t c fields)
    (hRows : ∀ row ∈ rows, RowTyped family row (t :: ts))
    (hLength : qs.length = fields.length)
    (hHead : ∀ fs, RowMatches den qs fs →
      Matches den p (.mk (denotes den c) fs))
    (hReached : Reached family den (fields ++ ts)
      (rows.filterMap (splitRow family c fields.length)) (qs ++ rest)) :
    Reached family den (t :: ts) rows (p :: rest) := by
  rcases hReached with ⟨ws, hTyped, hMatches, hNone⟩
  rcases forall₂_append_inv hTyped with ⟨fs, vs, rfl, hFs, hVs⟩
  have hCount : fs.length = fields.length := hFs.length_eq
  have hSplit := forall₂_split (hLength.trans hCount.symm) hMatches
  refine ⟨.mk (denotes den c) fs :: vs, ?_, ?_, ?_⟩
  · exact .cons (.mk hc.builds hFs) hVs
  · exact .cons (hHead fs hSplit.1) hSplit.2
  · intro row hMem hRow
    rcases splitRow_matches hDen hc hCount (hRows row hMem) hRow with
      ⟨row', hRow', hLeft⟩
    exact hNone row' (List.mem_filterMap.2 ⟨row, hMem, hRow'⟩) hLeft

/- The fields of a value are reached, if the rows are canonical. -/
theorem split_of_reached
    (hc : Applies family t c fields)
    (hCtor : ∀ kind value, c ≠ .spelt kind value)
    (hRows : ∀ row ∈ rows, RowTyped family row (t :: ts))
    (hCanonical : AllCanonical rows)
    (hFs : List.Forall₂ (HasType family) fs fields)
    (hVs : List.Forall₂ (HasType family) vs ts)
    (hQs : RowMatches den qs fs)
    (hRest : RowMatches den rest vs)
    (hNone : ∀ row ∈ rows,
      ¬ RowMatches den row (.mk (denotes den c) fs :: vs)) :
    Reached family den (fields ++ ts)
      (rows.filterMap (splitRow family c fields.length))
      (qs ++ rest) := by
  refine ⟨fs ++ vs, List.rel_append hFs hVs, List.rel_append hQs hRest,
    ?_⟩
  intro row' hRow' hMatches
  rcases List.mem_filterMap.1 hRow' with ⟨row, hRow, hSplit⟩
  apply hNone row hRow
  exact matches_of_splitRow hc hCtor hFs.length_eq (hRows row hRow)
    (hCanonical row hRow) hSplit hMatches

theorem defaultRows_lower :
    defaultRows (rows.map (lowerRow family)) =
      (rows.filterMap openRow).map (lowerRow family) := by
  induction rows with
  | nil =>
      rfl
  | cons row rows ih =>
      unfold defaultRows at ih ⊢
      cases row with
      | nil =>
          have hOpen : openRow ([] : List (SourcePat U C)) = none := rfl
          rw [List.map_cons, lowerRow, List.filterMap_cons_none hOpen,
            List.filter_cons_of_neg Bool.false_ne_true]
          exact ih
      | cons head rest =>
          cases head with
          | any =>
              have hOpen : openRow (.any :: rest) = some rest := rfl
              rw [List.map_cons, lowerRow, lowerPat,
                List.filterMap_cons_some hOpen,
                List.filter_cons_of_pos rfl, List.map_cons,
                List.map_cons, ih]
              rfl
          | ctor d args =>
              have hOpen : openRow (.ctor d args :: rest) = none := rfl
              rw [List.map_cons, lowerRow, lowerPat,
                List.filterMap_cons_none hOpen,
                List.filter_cons_of_neg Bool.false_ne_true]
              exact ih

theorem row_of_openRow
    (hOpen : openRow row = some row') :
    row = .any :: row' := by
  unfold openRow at hOpen
  split at hOpen
  · cases hOpen
    rfl
  · cases hOpen

theorem open_typed
    (hRows : ∀ row ∈ rows, RowTyped family row (t :: ts)) :
    ∀ row ∈ rows.filterMap openRow, RowTyped family row ts := by
  intro row' hRow'
  rcases List.mem_filterMap.1 hRow' with ⟨row, hRow, hOpen⟩
  have hTyped := hRows row hRow
  rw [row_of_openRow hOpen] at hTyped
  cases hTyped with
  | cons _ hTail =>
      exact hTail

theorem Fresh.opened
    (hFresh : Fresh den rows) :
    Fresh den (rows.filterMap openRow) := by
  intro kind
  rcases hFresh kind with ⟨value, hNone⟩
  refine ⟨value, ?_⟩
  intro row' hRow' p hMem hSpells
  rcases List.mem_filterMap.1 hRow' with ⟨row, hRow, hOpen⟩
  apply hNone row hRow p _ hSpells
  rw [row_of_openRow hOpen]
  exact List.mem_cons_of_mem _ hMem

theorem AllCanonical.opened
    (hCanonical : AllCanonical rows) :
    AllCanonical (rows.filterMap openRow) := by
  intro row' hRow' p hMem
  rcases List.mem_filterMap.1 hRow' with ⟨row, hRow, hOpen⟩
  apply hCanonical row hRow p
  rw [row_of_openRow hOpen]
  exact List.mem_cons_of_mem _ hMem

/- A value that no head builds reaches what its row leaves. -/
theorem reached_of_open
    {v : Value C}
    {ctor : ValueCtor C}
    (hValue : v = .mk ctor fs)
    (hTyped : HasType family v t)
    (hLeaves : ∀ d, Heads rows d → denotes den d ≠ ctor)
    (hReached : Reached family den ts (rows.filterMap openRow) rest) :
    Reached family den (t :: ts) rows (.any :: rest) := by
  rcases hReached with ⟨vs, hVs, hMatches, hNone⟩
  refine ⟨v :: vs, .cons hTyped hVs, .cons (.any v) hMatches, ?_⟩
  intro row hMem hRow
  cases hRow with
  | @cons head _ rest' _ hHead hTail =>
      cases head with
      | any =>
          apply hNone rest' _ hTail
          exact List.mem_filterMap.2 ⟨_, hMem, rfl⟩
      | ctor d args =>
          rw [hValue] at hHead
          generalize hCtor : ctor = k at hHead
          cases hHead with
          | ctor _ =>
              exact hLeaves d ⟨args, rest', hMem⟩ hCtor.symm

theorem open_of_reached
    (hReached : Reached family den (t :: ts) rows (.any :: rest)) :
    Reached family den ts (rows.filterMap openRow) rest := by
  rcases hReached with ⟨ws, hTyped, hMatches, hNone⟩
  cases hTyped with
  | cons _ hVs =>
      cases hMatches with
      | cons _ hRest =>
          refine ⟨_, hVs, hRest, ?_⟩
          intro row' hRow' hRow
          rcases List.mem_filterMap.1 hRow' with ⟨row, hMem, hOpen⟩
          apply hNone row hMem
          rw [row_of_openRow hOpen]
          exact .cons (.any _) hRow

end Reaching

mutual
theorem inhabitant
    (hUnions : ∀ name, ∃ v : Value C, HasType family v (.union name))
    (hConsts : ∀ kind, Nonempty (C kind)) :
    ∀ t : Ty U, ∃ v : Value C, HasType family v t
  | .unit => ⟨_, .mk .unit .nil⟩
  | .bool => ⟨_, .mk (.bool true) .nil⟩
  | .const kind => by
      rcases hConsts kind with ⟨value⟩
      exact ⟨_, .mk (.const kind value) .nil⟩
  | .tuple fields => by
      rcases inhabitants hUnions hConsts fields with ⟨vs, hVs⟩
      exact ⟨_, .mk (.tuple fields) hVs⟩
  | .union name => hUnions name

theorem inhabitants
    (hUnions : ∀ name, ∃ v : Value C, HasType family v (.union name))
    (hConsts : ∀ kind, Nonempty (C kind)) :
    ∀ ts : List (Ty U), ∃ vs : List (Value C),
      List.Forall₂ (HasType family) vs ts
  | [] => ⟨[], .nil⟩
  | t :: ts => by
      rcases inhabitant hUnions hConsts t with ⟨v, hv⟩
      rcases inhabitants hUnions hConsts ts with ⟨vs, hVs⟩
      exact ⟨v :: vs, .cons hv hVs⟩
end

------------------------------------------------------------
-- Usefulness
------------------------------------------------------------

theorem anyOk_true
    (hAny : anyOk test xs = .ok true) :
    ∃ x ∈ xs, test x = .ok true := by
  induction xs with
  | nil =>
      cases hAny
  | cons x xs ih =>
      unfold anyOk at hAny
      split at hAny
      · next hTest =>
          exact ⟨x, List.mem_cons_self, hTest⟩
      · rcases ih hAny with ⟨y, hMem, hTest⟩
        exact ⟨y, List.mem_cons_of_mem _ hMem, hTest⟩
      · cases hAny

theorem anyOk_false
    (hAny : anyOk test xs = .ok false) :
    ∀ x ∈ xs, test x = .ok false := by
  induction xs with
  | nil =>
      intro x hMem
      cases hMem
  | cons x xs ih =>
      unfold anyOk at hAny
      split at hAny
      · cases hAny
      · next hTest =>
          intro y hMem
          rcases List.mem_cons.1 hMem with rfl | hIn
          · exact hTest
          · exact ih hAny y hIn
      · cases hAny

section Usefulness

variable [DecidableEq U]

/- What an answer says of the values. -/
structure Answers
    (family : Family U)
    (den : (kind : ConstKind) → String → C kind)
    (ts : List (Ty U))
    (rows : List (List (SourcePat U C)))
    (q : List (SourcePat U C))
    (b : Bool) :
    Prop where
  sound : b = true → Reached family den ts rows q
  exact : AllCanonical rows → (∀ p ∈ q, Canonical p) →
    Reached family den ts rows q → b = true

variable {fuel : Nat} {t : Ty U} {ts : List (Ty U)}
variable {rows : List (List (SourcePat U C))} {q rest : List (SourcePat U C)}
variable {b : Bool}

/- An answer for the fields is one for the constructor. -/
omit [DecidableEq U] in
theorem Answers.ctor
    {c : SourceCtor U C}
    {fields : List (Ty U)}
    {args : List (SourcePat U C)}
    (hDen : ∀ kind, Function.Injective (den kind))
    (hc : Applies family t c fields)
    (hArgs : args.length = fields.length)
    (hRows : ∀ row ∈ rows, RowTyped family row (t :: ts))
    (hAnswers : Answers family den (fields ++ ts)
      (rows.filterMap (splitRow family c fields.length)) (args ++ rest)
      b) :
    Answers family den (t :: ts) rows (.ctor c args :: rest) b := by
  constructor
  · intro hTrue
    apply reached_of_split hDen hc hRows hArgs _ (hAnswers.sound hTrue)
    intro fs hFs
    exact .ctor hFs
  · intro hCanonical hq hReached
    have hHead := hq _ List.mem_cons_self
    rcases hReached with ⟨ws, hTyped, hMatches, hNone⟩
    cases hMatches with
    | cons hValue hRest =>
        cases hValue with
        | ctor hFs =>
            cases hTyped with
            | cons hv hVs =>
                cases hv with
                | mk hBuilds hInner =>
                    rw [hc.fields_eq hBuilds] at hInner
                    cases hHead with
                    | ctor hCtor hInnerCanonical =>
                        have hSplit := split_of_reached hc hCtor hRows
                          hCanonical hInner hVs hFs hRest hNone
                        apply hAnswers.exact hCanonical.split _ hSplit
                        intro p hMem
                        rcases List.mem_append.1 hMem with hArg | hLater
                        · exact hInnerCanonical p hArg
                        · exact hq p (List.mem_cons_of_mem _ hLater)

variable {sigma : List (Ctor U × Nat)}

/- An answer for each constructor of a complete column. -/
theorem Answers.complete
    {test : Ctor U × Nat → Except Fault Bool}
    (hDen : ∀ kind, Function.Injective (den kind))
    (hRows : ∀ row ∈ rows, RowTyped family row (t :: ts))
    (hColumn : Column family t rows sigma)
    (hComplete : MatchReach.complete sigma = true)
    (hTests : ∀ c fields r, Heads rows c → Applies family t c fields →
      test (lowerCtor family c, fields.length) = .ok r →
      Answers family den (fields ++ ts)
        (rows.filterMap (splitRow family c fields.length))
        (List.replicate fields.length .any ++ rest) r)
    (hAny : anyOk test sigma = .ok b) :
    Answers family den (t :: ts) rows (.any :: rest) b := by
  constructor
  · intro hTrue
    rw [hTrue] at hAny
    rcases anyOk_true hAny with ⟨⟨c, arity⟩, hMem, hTest⟩
    rcases hColumn.heads c arity hMem with
      ⟨c', fields, hHeads, hc, rfl, rfl⟩
    have hAnswers := hTests c' fields true hHeads hc hTest
    apply reached_of_split hDen hc hRows List.length_replicate _
      (hAnswers.sound rfl)
    intro fs _
    exact .any _
  · intro hCanonical hq hReached
    rcases hReached with ⟨ws, hTyped, hMatches, hNone⟩
    cases hTyped with
    | cons hv hVs =>
        cases hv with
        | @mk _ ctor fields fs hBuilds hFs =>
            cases hMatches with
            | cons _ hRest =>
                rcases hColumn.covers hComplete hBuilds with
                  ⟨c, hHeads, hc, hSame, hMem⟩
                rw [← hSame] at hNone
                by_contra hFalse
                have hNot : b = false := Bool.not_eq_true b ▸ hFalse
                rw [hNot] at hAny
                have hTest := anyOk_false hAny _ hMem
                have hAnswers := hTests c _ false hHeads hc hTest
                rcases hHeads with ⟨args, rest', hRow⟩
                have hCtor : ∀ kind value, c ≠ .spelt kind value := by
                  cases hCanonical _ hRow _ List.mem_cons_self with
                  | ctor hCtor _ =>
                      exact hCtor
                have hAnys : RowMatches den (List.replicate fs.length
                    (.any : SourcePat U C)) fs :=
                  forall₂_replicate Matches.any fs
                rw [hFs.length_eq] at hAnys
                have hSplit := split_of_reached hc hCtor hRows
                  hCanonical hFs hVs hAnys hRest hNone
                have hContra : false = true := by
                  apply hAnswers.exact hCanonical.split _ hSplit
                  intro p hIn
                  rcases List.mem_append.1 hIn with hReplica | hLater
                  · rw [List.eq_of_mem_replicate hReplica]
                    exact .any
                  · exact hq p (List.mem_cons_of_mem _ hLater)
                cases hContra

/- An answer for the rows whose head matches everything. -/
theorem Answers.opened
    (hInhabited : ∀ ts : List (Ty U), ∃ vs : List (Value C),
      List.Forall₂ (HasType family) vs ts)
    (hFresh : Fresh den rows)
    (hRows : ∀ row ∈ rows, RowTyped family row (t :: ts))
    (hColumn : Column family t rows sigma)
    (hOpen : MatchReach.complete sigma = false)
    (hAnswers : Answers family den ts (rows.filterMap openRow) rest b) :
    Answers family den (t :: ts) rows (.any :: rest) b := by
  constructor
  · intro hTrue
    have hSome : ∃ v : Value C, HasType family v t := by
      rcases hInhabited [t] with ⟨vs, hVs⟩
      cases hVs with
      | cons hv _ =>
          exact ⟨_, hv⟩
    rcases hColumn.leaves hRows hOpen hSome hFresh with
      ⟨ctor, fields, hBuilds, hLeaves⟩
    rcases hInhabited fields with ⟨fs, hFs⟩
    exact reached_of_open rfl (.mk hBuilds hFs) hLeaves
      (hAnswers.sound hTrue)
  · intro hCanonical hq hReached
    apply hAnswers.exact hCanonical.opened _ (open_of_reached hReached)
    intro p hMem
    exact hq p (List.mem_cons_of_mem _ hMem)

/- Usefulness of lowered patterns answers for their values. -/
theorem usefulFor_spec
    (hDen : ∀ kind, Function.Injective (den kind))
    (hInhabited : ∀ ts : List (Ty U), ∃ vs : List (Value C),
      List.Forall₂ (HasType family) vs ts)
    (hFresh : Fresh den rows)
    (hRows : ∀ row ∈ rows, RowTyped family row ts)
    (hq : RowTyped family q ts)
    (hUseful : usefulFor fuel (rows.map (lowerRow family))
      (lowerRow family q) = .ok b) :
    Answers family den ts rows q b := by
  induction fuel generalizing rows q ts b with
  | zero =>
      cases hUseful
  | succ fuel ih =>
      cases hq with
      | nil =>
          rw [lowerRow] at hUseful
          cases rows with
          | nil =>
              cases hUseful
              constructor
              · intro _
                exact ⟨[], .nil, .nil, List.forall_mem_nil _⟩
              · intro _ _ _
                rfl
          | cons row rows =>
              cases hUseful
              constructor
              · intro hTrue
                cases hTrue
              · rintro _ _ ⟨vs, hVs, -, hNone⟩
                cases hVs
                have hRow := hRows row List.mem_cons_self
                cases hRow
                exact absurd .nil (hNone [] List.mem_cons_self)
      | @cons p t rest ts hHead hTail =>
          rw [lowerRow] at hUseful
          cases hHead with
          | @ctor _ c fields args hc hArgs =>
              rw [lowerPat] at hUseful
              unfold usefulFor at hUseful
              dsimp only at hUseful
              rw [lowerRow_length, hArgs.length_eq,
                specialise_lower hc hRows] at hUseful
              dsimp only at hUseful
              rw [← lowerRow_append] at hUseful
              apply Answers.ctor hDen hc hArgs.length_eq hRows
              exact ih hFresh.split (split_typed hc hRows)
                (List.rel_append hArgs hTail) hUseful
          | any =>
              rw [lowerPat] at hUseful
              unfold usefulFor at hUseful
              dsimp only at hUseful
              rcases headCtors_column hRows with ⟨sigma, hSigma, hColumn⟩
              rw [hSigma] at hUseful
              dsimp only at hUseful
              split at hUseful
              · next hComplete =>
                  apply Answers.complete hDen hRows hColumn hComplete _
                    hUseful
                  intro c fields r hHeads hc hTest
                  dsimp only at hTest
                  rw [specialise_lower hc hRows] at hTest
                  dsimp only at hTest
                  rw [← lowerRow_replicate, ← lowerRow_append] at hTest
                  apply ih hFresh.split (split_typed hc hRows) _ hTest
                  exact List.rel_append
                    (forall₂_replicate PatTyped.any fields) hTail
              · next hOpen =>
                  rw [defaultRows_lower] at hUseful
                  apply Answers.opened hInhabited hFresh hRows hColumn
                    (Bool.eq_false_iff.2 hOpen)
                  exact ih hFresh.opened (open_typed hRows) hTail hUseful

omit [DecidableEq U] in
theorem reached_single
    {earlier : List (SourcePat U C)}
    {clause : SourcePat U C} :
    Reached family den [t] (earlier.map fun p => [p]) [clause] ↔
      ∃ v, HasType family v t ∧ Matches den clause v ∧
        ∀ p ∈ earlier, ¬ Matches den p v := by
  constructor
  · rintro ⟨vs, hVs, hMatches, hNone⟩
    cases hVs with
    | cons hv hNil =>
        cases hNil
        cases hMatches with
        | cons hHead _ =>
            refine ⟨_, hv, hHead, ?_⟩
            intro p hMem hp
            exact hNone [p] (List.mem_map.2 ⟨p, hMem, rfl⟩)
              (.cons hp .nil)
  · rintro ⟨v, hv, hMatches, hNone⟩
    refine ⟨[v], .cons hv .nil, .cons hMatches .nil, ?_⟩
    intro row hRow hMatch
    rcases List.mem_map.1 hRow with ⟨p, hMem, rfl⟩
    cases hMatch with
    | cons hp _ =>
        exact hNone p hMem hp

/-
  A clause that is provably reachable matches a value that no earlier
  pattern matches, whatever its constants denote; when all constants
  are spelt canonically every such clause is provably reachable.  The
  recursion ends on every input.
-/
theorem provably_reachable_sound_and_exact
    (family : Family U)
    (den : (kind : ConstKind) → String → C kind)
    (hDen : ∀ kind, Function.Injective (den kind))
    (hInhabited : ∀ name, ∃ v : Value C,
      HasType family v (.union name)) :
    (∀ (earlier : List (ClausePat U)) (clause : ClausePat U),
      ∃ bound b, ∀ fuel, bound ≤ fuel →
        provablyReachableFor fuel earlier clause = .ok b) ∧
    (∀ (t : Ty U) (earlier : List (SourcePat U C))
      (clause : SourcePat U C) (fuel : Nat) (b : Bool),
      (∀ p ∈ clause :: earlier, PatTyped family p t) →
      (∀ kind, ∃ value : C kind, ∀ p ∈ clause :: earlier,
        ¬ Spells den kind value p) →
      provablyReachableFor fuel (earlier.map (lowerPat family))
        (lowerPat family clause) = .ok b →
      (b = true → ∃ v, HasType family v t ∧ Matches den clause v ∧
        ∀ p ∈ earlier, ¬ Matches den p v) ∧
      ((∀ p ∈ clause :: earlier, Canonical p) →
        (b = true ↔ ∃ v, HasType family v t ∧ Matches den clause v ∧
          ∀ p ∈ earlier, ¬ Matches den p v))) := by
  constructor
  · intro earlier clause
    have hAligned : Aligned [clause].length
        (earlier.map fun p => [p]) := by
      intro row hMem
      rcases List.mem_map.1 hMem with ⟨p, -, rfl⟩
      rfl
    rcases usefulFor_terminates hAligned (Nat.lt_succ_self _) with
      ⟨b, hUseful⟩
    exact ⟨_, b, fun fuel hLe => usefulFor_mono hUseful hLe⟩
  · intro t earlier clause fuel b hTyped hOpen hUseful
    have hConsts : ∀ kind, Nonempty (C kind) := by
      intro kind
      rcases hOpen kind with ⟨value, -⟩
      exact ⟨value⟩
    have hFresh : Fresh den (earlier.map fun p => [p]) := by
      intro kind
      rcases hOpen kind with ⟨value, hNone⟩
      refine ⟨value, ?_⟩
      intro row hRow p hMem
      rcases List.mem_map.1 hRow with ⟨p', hIn, rfl⟩
      rw [List.mem_singleton.1 hMem]
      exact hNone p' (List.mem_cons_of_mem _ hIn)
    have hRows : ∀ row ∈ earlier.map (fun p => [p]),
        RowTyped family row [t] := by
      intro row hRow
      rcases List.mem_map.1 hRow with ⟨p, hIn, rfl⟩
      exact .cons (hTyped p (List.mem_cons_of_mem _ hIn)) .nil
    have hq : RowTyped family [clause] [t] :=
      .cons (hTyped clause List.mem_cons_self) .nil
    have hLower : (earlier.map fun p => [p]).map (lowerRow family) =
        (earlier.map (lowerPat family)).map fun p => [p] := by
      rw [List.map_map, List.map_map]
      apply List.map_congr_left
      intro p _
      rfl
    unfold provablyReachableFor at hUseful
    rw [← hLower] at hUseful
    have hAnswers := usefulFor_spec hDen
      (inhabitants hInhabited hConsts) hFresh hRows hq hUseful
    have hReached : Reached family den [t] (earlier.map fun p => [p])
        [clause] ↔ ∃ v, HasType family v t ∧ Matches den clause v ∧
          ∀ p ∈ earlier, ¬ Matches den p v := reached_single
    constructor
    · intro hTrue
      exact hReached.1 (hAnswers.sound hTrue)
    · intro hCanonical
      constructor
      · intro hTrue
        exact hReached.1 (hAnswers.sound hTrue)
      · intro hSome
        apply hAnswers.exact _ _ (hReached.2 hSome)
        · intro row hRow p hMem
          rcases List.mem_map.1 hRow with ⟨p', hIn, rfl⟩
          rw [List.mem_singleton.1 hMem]
          exact hCanonical p' (List.mem_cons_of_mem _ hIn)
        · intro p hMem
          rw [List.mem_singleton.1 hMem]
          exact hCanonical clause List.mem_cons_self

/- The union of nothing and a truth value. -/
def optionFamily : Family Unit :=
  fun _ => [[], [.bool]]

/- `Some true` is reached behind `Some false` and `None`. -/
theorem provably_reachable_option :
    ∃ v : Value (fun _ => Option String),
      HasType optionFamily v (.union ()) ∧
      Matches (fun _ => some) (.ctor (.case () 1)
        [.ctor (.bool true) []]) v ∧
      ∀ p ∈ [SourcePat.ctor (.case () 1) [.ctor (.bool false) []],
          .ctor (.case () 0) []],
        ¬ Matches (fun _ => some) p v := by
  have hDen : ∀ kind : ConstKind, Function.Injective
      ((fun _ => some : ConstKind → String → Option String) kind) :=
    fun _ _ _ hSame => Option.some.inj hSame
  have hInhabited : ∀ name, ∃ v : Value (fun _ => Option String),
      HasType optionFamily v (.union name) :=
    fun _ => ⟨.mk (.case 0) [], .mk (.case rfl) .nil⟩
  have hBool : ∀ b, PatTyped optionFamily
      (.ctor (.case () 1) [.ctor (.bool b) []] :
        SourcePat Unit (fun _ => Option String)) (.union ()) :=
    fun b => .ctor (.case rfl) (.cons (.ctor (.bool b) .nil) .nil)
  have hNone : PatTyped optionFamily
      (.ctor (.case () 0) [] :
        SourcePat Unit (fun _ => Option String)) (.union ()) :=
    .ctor (.case rfl) .nil
  have hAnswer := (provably_reachable_sound_and_exact optionFamily
    (fun _ => some) hDen hInhabited).2 (.union ())
    [.ctor (.case () 1) [.ctor (.bool false) []], .ctor (.case () 0) []]
    (.ctor (.case () 1) [.ctor (.bool true) []]) 10 true
  refine (hAnswer ?_ ?_ rfl).1 rfl
  · intro p hMem
    simp only [List.mem_cons, List.not_mem_nil, or_false] at hMem
    rcases hMem with rfl | rfl | rfl
    · exact hBool true
    · exact hBool false
    · exact hNone
  · intro kind
    have hQuiet : ∀ b, ¬ Spells (U := Unit) (fun _ => some) kind none
        (.ctor (.case () 1) [.ctor (.bool b) []]) := by
      intro b hSpells
      rcases hSpells with hConst | ⟨hIn, hInner⟩
      · cases hConst
      · rw [List.mem_singleton.1 hIn] at hInner
        rcases hInner with hConst | ⟨hIn', -⟩
        · cases hConst
        · cases hIn'
    refine ⟨none, ?_⟩
    intro p hMem hSpells
    simp only [List.mem_cons, List.not_mem_nil, or_false] at hMem
    rcases hMem with rfl | rfl | rfl
    · exact hQuiet true hSpells
    · exact hQuiet false hSpells
    · rcases hSpells with hConst | ⟨hIn, -⟩
      · cases hConst
      · cases hIn

end Usefulness

end MatchReach

end Borzoi
