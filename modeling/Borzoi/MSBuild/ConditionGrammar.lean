import Borzoi.MSBuild.Condition

/-
  The grammar of conditions.

  `Or` binds weaker than `And`, `And` weaker than a comparison, and `!`
  stronger than both.  The parser accepts just what the grammar derives,
  as the expression that it derives it for.

  Main declarations:
    * `Spells`
    * `condition_parser_exact`
-/

namespace Borzoi

namespace MSBuild

inductive Level
  | Or
  | And
  | Primary
  | Factor

/- A token that is an operand. -/
inductive Operand :
    Token → ScalarExpr → Prop
  | string (s) : Operand (.String s) (.String s)
  | bare (s) : Operand (.Bare s) (.Bare s)
  | version (arg part) :
      Operand (.SystemVersionPart arg part) (.SystemVersionPart arg part)
  | property (raw) : Operand (.Property raw) (.Property raw)
  | yes : Operand .True (.Bare "true".toList)
  | no : Operand .False (.Bare "false".toList)

/- The argument of a function. -/
inductive Argument :
    Token → List Char → Prop
  | string (s) : Argument (.String s) s
  | property (raw) : Argument (.Property raw) raw

/- The tokens that spell an expression at a level of precedence. -/
inductive Spells :
    Level → BoolExpr → List Token → Prop
  | or {l r ts us} :
      Spells .Or l ts → Spells .And r us →
        Spells .Or (.Or l r) (ts ++ .Or :: us)
  | ofAnd {e ts} : Spells .And e ts → Spells .Or e ts
  | and {l r ts us} :
      Spells .And l ts → Spells .Primary r us →
        Spells .And (.And l r) (ts ++ .And :: us)
  | ofPrimary {e ts} : Spells .Primary e ts → Spells .And e ts
  | compare {a b o l r op} :
      Operand a l → o.compareOp = some op → Operand b r →
        Spells .Primary (.Compare op l r) [a, o, b]
  | operand {a s} : Operand a s → Spells .Primary (.CoerceBool s) [a]
  | ofFactor {e t ts} :
      Spells .Factor e (t :: ts) → t.isScalarStart = false →
        Spells .Primary e (t :: ts)
  | not {e ts} : Spells .Factor e ts → Spells .Factor (.Not e) (.Bang :: ts)
  | paren {e ts} :
      Spells .Or e ts → Spells .Factor e (.LParen :: ts ++ [.RParen])
  | yes : Spells .Factor .True [.True]
  | no : Spells .Factor .False [.False]
  | «exists» {a raw} :
      Argument a raw → Spells .Factor (.Exists raw) [.Exists, .LParen, a, .RParen]
  | slash {a raw} :
      Argument a raw →
        Spells .Factor (.HasTrailingSlash raw)
          [.HasTrailingSlash, .LParen, a, .RParen]
  | version (inner) :
      Spells .Factor (.MsbuildVersionFunction inner)
        [.MsbuildVersionFunction inner]
  | coerce {a s} :
      Operand a s → a ≠ .True → a ≠ .False →
        Spells .Factor (.CoerceBool s) [a]

variable {e : BoolExpr}

section Parts

variable {tokens rest : List Token} {a : Token}
variable {scalar : ScalarExpr} {raw : List Char}

theorem andThen_ok
    {α β : Type}
    {result : ParseResult α}
    {next : α → List Token → ParseResult β}
    {out : β × List Token}
    (hOk : andThen result next = .ok out) :
    ∃ value rest, result = .ok (value, rest) ∧ next value rest = .ok out := by
  cases result with
  | error fault => cases hOk
  | ok pair => exact ⟨pair.1, pair.2, rfl, hOk⟩

theorem Operand.parseScalar_eq
    (hOperand : Operand a scalar)
    (rest : List Token) :
    parseScalar (a :: rest) = .ok (scalar, rest) := by
  cases hOperand <;> rfl

theorem Operand.isScalarStart
    (hOperand : Operand a scalar) :
    a.isScalarStart = true := by
  cases hOperand <;> rfl

theorem operand_of_parseScalar
    (hOk : parseScalar tokens = .ok (scalar, rest)) :
    ∃ a, Operand a scalar ∧ tokens = a :: rest := by
  unfold parseScalar at hOk
  split at hOk <;> cases hOk <;> exact ⟨_, by constructor, rfl⟩

theorem argument_of_parse
    (hOk : parseSingleStringArgument tokens = .ok (raw, rest)) :
    ∃ a, Argument a raw ∧ tokens = .LParen :: a :: .RParen :: rest := by
  unfold parseSingleStringArgument at hOk
  split at hOk <;> cases hOk <;> exact ⟨_, by constructor, rfl⟩

theorem Argument.parse_eq
    (hArgument : Argument a raw)
    (rest : List Token) :
    parseSingleStringArgument (.LParen :: a :: .RParen :: rest) =
      .ok (raw, rest) := by
  cases hArgument <;> rfl

theorem primary_of_parseScalarBool
    (hOk : parseScalarBool tokens = .ok (e, rest)) :
    ∃ ts, tokens = ts ++ rest ∧ Spells .Primary e ts := by
  rcases andThen_ok hOk with ⟨lhs, others, hFirst, hNext⟩
  rcases operand_of_parseScalar hFirst with ⟨a, hA, rfl⟩
  cases others with
  | nil =>
      cases hNext
      exact ⟨[a], rfl, .operand hA⟩
  | cons o more =>
      rw [List.head?_cons, Option.bind_some] at hNext
      split at hNext
      · cases hNext
        exact ⟨[a], rfl, .operand hA⟩
      · next op hOp =>
          rcases andThen_ok hNext with ⟨rhs, last, hSecond, hEnd⟩
          rcases operand_of_parseScalar hSecond with ⟨b, hB, hRest⟩
          cases hEnd
          rw [List.tail_cons] at hRest
          rw [hRest]
          exact ⟨[a, o, b], rfl, .compare hA hOp hB⟩

end Parts

/- What each function takes off the tokens spells what it returns. -/
theorem parser_sound
    (fuel : Nat) :
    ∀ (tokens rest : List Token) (e : BoolExpr),
      (parseOr fuel tokens = .ok (e, rest) →
        ∃ ts, tokens = ts ++ rest ∧ Spells .Or e ts) ∧
      (∀ left us, Spells .Or left us → orLoop fuel left tokens = .ok (e, rest) →
        ∃ ts, tokens = ts ++ rest ∧ Spells .Or e (us ++ ts)) ∧
      (parseAnd fuel tokens = .ok (e, rest) →
        ∃ ts, tokens = ts ++ rest ∧ Spells .And e ts) ∧
      (∀ left us, Spells .And left us → andLoop fuel left tokens = .ok (e, rest) →
        ∃ ts, tokens = ts ++ rest ∧ Spells .And e (us ++ ts)) ∧
      (parsePrimaryBool fuel tokens = .ok (e, rest) →
        ∃ ts, tokens = ts ++ rest ∧ Spells .Primary e ts) ∧
      (parseBoolFactor fuel tokens = .ok (e, rest) →
        ∃ ts, tokens = ts ++ rest ∧ Spells .Factor e ts) := by
  induction fuel with
  | zero =>
      intro tokens rest e
      exact ⟨nofun, fun _ _ _ => nofun, nofun, fun _ _ _ => nofun, nofun, nofun⟩
  | succ fuel ih =>
      intro tokens rest e
      refine ⟨?_, ?_, ?_, ?_, ?_, ?_⟩
      · intro hOk
        rw [parseOr] at hOk
        rcases andThen_ok hOk with ⟨left, others, hFirst, hNext⟩
        rcases (ih _ _ _).2.2.1 hFirst with ⟨us, rfl, hLeft⟩
        rcases (ih _ _ _).2.1 left us (.ofAnd hLeft) hNext with ⟨ts, rfl, hAll⟩
        exact ⟨us ++ ts, (List.append_assoc ..).symm, hAll⟩
      · intro left us hLeft hOk
        rw [orLoop.eq_def] at hOk
        simp only at hOk
        split at hOk
        · rcases andThen_ok hOk with ⟨right, others, hFirst, hNext⟩
          rcases (ih _ _ _).2.2.1 hFirst with ⟨vs, rfl, hRight⟩
          rcases (ih _ _ _).2.1 _ _ (.or hLeft hRight) hNext with ⟨ts, rfl, hAll⟩
          exact ⟨.Or :: vs ++ ts, by simp, by simpa using hAll⟩
        · cases hOk
          exact ⟨[], rfl, (List.append_nil us).symm ▸ hLeft⟩
      · intro hOk
        rw [parseAnd] at hOk
        rcases andThen_ok hOk with ⟨left, others, hFirst, hNext⟩
        rcases (ih _ _ _).2.2.2.2.1 hFirst with ⟨us, rfl, hLeft⟩
        rcases (ih _ _ _).2.2.2.1 left us (.ofPrimary hLeft) hNext with
          ⟨ts, rfl, hAll⟩
        exact ⟨us ++ ts, (List.append_assoc ..).symm, hAll⟩
      · intro left us hLeft hOk
        rw [andLoop.eq_def] at hOk
        simp only at hOk
        split at hOk
        · rcases andThen_ok hOk with ⟨right, others, hFirst, hNext⟩
          rcases (ih _ _ _).2.2.2.2.1 hFirst with ⟨vs, rfl, hRight⟩
          rcases (ih _ _ _).2.2.2.1 _ _ (.and hLeft hRight) hNext with
            ⟨ts, rfl, hAll⟩
          exact ⟨.And :: vs ++ ts, by simp, by simpa using hAll⟩
        · cases hOk
          exact ⟨[], rfl, (List.append_nil us).symm ▸ hLeft⟩
      · intro hOk
        rw [parsePrimaryBool] at hOk
        split at hOk
        · exact primary_of_parseScalarBool hOk
        · next hStart =>
            rcases (ih _ _ _).2.2.2.2.2 hOk with ⟨ts, rfl, hFactor⟩
            cases ts with
            | nil => cases hFactor
            | cons t ts =>
                rw [List.cons_append, List.head?_cons, Option.any_some,
                  Bool.not_eq_true] at hStart
                exact ⟨t :: ts, rfl, .ofFactor hFactor hStart⟩
      · intro hOk
        rw [parseBoolFactor.eq_def] at hOk
        simp only at hOk
        split at hOk
        · rcases andThen_ok hOk with ⟨inner, others, hFirst, hNext⟩
          rcases (ih _ _ _).2.2.2.2.2 hFirst with ⟨ts, rfl, hInner⟩
          cases hNext
          exact ⟨.Bang :: ts, rfl, .not hInner⟩
        · rcases andThen_ok hOk with ⟨inner, others, hFirst, hNext⟩
          rcases (ih _ _ _).1 hFirst with ⟨ts, rfl, hInner⟩
          split at hNext
          · cases hNext
            exact ⟨.LParen :: ts ++ [.RParen], by simp, .paren hInner⟩
          · cases hNext
        · cases hOk
          exact ⟨[.True], rfl, .yes⟩
        · cases hOk
          exact ⟨[.False], rfl, .no⟩
        · rcases andThen_ok hOk with ⟨raw, others, hFirst, hNext⟩
          rcases argument_of_parse hFirst with ⟨a, hA, rfl⟩
          cases hNext
          exact ⟨[.Exists, .LParen, a, .RParen], rfl, .exists hA⟩
        · rcases andThen_ok hOk with ⟨raw, others, hFirst, hNext⟩
          rcases argument_of_parse hFirst with ⟨a, hA, rfl⟩
          cases hNext
          exact ⟨[.HasTrailingSlash, .LParen, a, .RParen], rfl, .slash hA⟩
        · cases hOk
          exact ⟨[.MsbuildVersionFunction _], rfl, .version _⟩
        · next hTrue hFalse _ _ _ =>
            split at hOk
            · rcases andThen_ok hOk with ⟨scalar, others, hFirst, hNext⟩
              rcases operand_of_parseScalar hFirst with ⟨a, hA, rfl⟩
              cases hNext
              exact ⟨[a], rfl, .coerce hA (fun h => hTrue _ (by rw [h]))
                fun h => hFalse _ (by rw [h])⟩
            · cases hOk

/- The functions of a level accept the tokens, in front of what cannot go
   on with them. -/
def Parses :
    Level → BoolExpr → List Token → Prop
  | .Or, e, ts => ∀ rest out fuel,
      rest.head?.bind Token.compareOp = none → rest.head? ≠ some .And →
        (∀ left, 5 * rest.length + 1 ≤ left → orLoop left e rest = out) →
        5 * (ts.length + rest.length) + 5 ≤ fuel →
        parseOr fuel (ts ++ rest) = out
  | .And, e, ts => ∀ rest out fuel,
      rest.head?.bind Token.compareOp = none →
        (∀ left, 5 * rest.length + 1 ≤ left → andLoop left e rest = out) →
        5 * (ts.length + rest.length) + 4 ≤ fuel →
        parseAnd fuel (ts ++ rest) = out
  | .Primary, e, ts => ∀ rest fuel,
      rest.head?.bind Token.compareOp = none →
        5 * (ts.length + rest.length) + 3 ≤ fuel →
        parsePrimaryBool fuel (ts ++ rest) = .ok (e, rest)
  | .Factor, e, ts => ∀ rest fuel,
      5 * (ts.length + rest.length) + 2 ≤ fuel →
        parseBoolFactor fuel (ts ++ rest) = .ok (e, rest)

section Accepted

variable {left : BoolExpr} {rest : List Token} {fuel n : Nat}

theorem fuel_left
    (hFuel : n + 1 ≤ fuel) :
    ∃ less, fuel = less + 1 :=
  ⟨fuel - 1, by omega⟩

theorem orLoop_stop
    (hRest : rest.head? ≠ some .Or)
    (hFuel : 1 ≤ fuel) :
    orLoop fuel left rest = .ok (left, rest) := by
  rcases fuel_left hFuel with ⟨fuel, rfl⟩
  rw [orLoop]
  rintro tail rfl
  exact hRest rfl

theorem andLoop_stop
    (hRest : rest.head? ≠ some .And)
    (hFuel : 1 ≤ fuel) :
    andLoop fuel left rest = .ok (left, rest) := by
  rcases fuel_left hFuel with ⟨fuel, rfl⟩
  rw [andLoop]
  rintro tail rfl
  exact hRest rfl

theorem Spells.parses
    {level : Level}
    {ts : List Token}
    (hSpells : Spells level e ts) :
    Parses level e ts := by
  induction hSpells with
  | @or l r ts us _ _ ihLeft ihRight =>
      intro rest out fuel hRest hAnd hNext hFuel
      rw [List.length_append, List.length_cons] at hFuel
      rw [List.append_assoc, List.cons_append]
      apply ihLeft (.Or :: (us ++ rest)) out fuel rfl (by simp)
      · intro n hN
        rw [List.length_cons, List.length_append] at hN
        rcases fuel_left hN with ⟨n, rfl⟩
        rw [orLoop, ihRight rest (.ok (r, rest)) n hRest
          (fun m hM => andLoop_stop hAnd (by omega)) (by omega)]
        exact hNext n (by omega)
      · rw [List.length_cons, List.length_append]
        omega
  | ofAnd _ ih =>
      intro rest out fuel hRest hAnd hNext hFuel
      rcases fuel_left hFuel with ⟨fuel, rfl⟩
      rw [parseOr, ih rest (.ok (_, rest)) fuel hRest
        (fun m hM => andLoop_stop hAnd (by omega)) (by omega)]
      exact hNext fuel (by omega)
  | @and l r ts us _ _ ihLeft ihRight =>
      intro rest out fuel hRest hNext hFuel
      rw [List.length_append, List.length_cons] at hFuel
      rw [List.append_assoc, List.cons_append]
      apply ihLeft (.And :: (us ++ rest)) out fuel rfl
      · intro n hN
        rw [List.length_cons, List.length_append] at hN
        rcases fuel_left hN with ⟨n, rfl⟩
        rw [andLoop, ihRight rest n hRest (by omega)]
        exact hNext n (by omega)
      · rw [List.length_cons, List.length_append]
        omega
  | ofPrimary _ ih =>
      intro rest out fuel hRest hNext hFuel
      rcases fuel_left hFuel with ⟨fuel, rfl⟩
      rw [parseAnd, ih rest fuel hRest (by omega)]
      exact hNext fuel (by omega)
  | @compare a b o l r op hA hOp hB =>
      intro rest fuel hRest hFuel
      rcases fuel_left hFuel with ⟨fuel, rfl⟩
      rw [parsePrimaryBool, List.cons_append, List.head?_cons,
        Option.any_some, if_pos hA.isScalarStart, parseScalarBool,
        hA.parseScalar_eq]
      simp only [andThen, List.cons_append, List.nil_append,
        List.head?_cons, Option.bind_some, hOp, List.tail_cons,
        hB.parseScalar_eq]
  | operand hA =>
      intro rest fuel hRest hFuel
      rcases fuel_left hFuel with ⟨fuel, rfl⟩
      rw [parsePrimaryBool, List.cons_append, List.head?_cons,
        Option.any_some, if_pos hA.isScalarStart, parseScalarBool,
        hA.parseScalar_eq]
      simp only [andThen, List.nil_append, hRest]
  | ofFactor _ hStart ih =>
      intro rest fuel hRest hFuel
      rcases fuel_left hFuel with ⟨fuel, rfl⟩
      rw [parsePrimaryBool, List.cons_append, List.head?_cons,
        Option.any_some, hStart, if_neg Bool.false_ne_true]
      exact ih rest fuel (by omega)
  | not _ ih =>
      intro rest fuel hFuel
      rw [List.length_cons] at hFuel
      rcases fuel_left hFuel with ⟨fuel, rfl⟩
      rw [List.cons_append, parseBoolFactor, ih rest fuel (by omega)]
      rfl
  | @paren e ts _ ih =>
      intro rest fuel hFuel
      rw [List.length_append, List.length_cons, List.length_singleton] at hFuel
      rcases fuel_left hFuel with ⟨fuel, rfl⟩
      rw [List.append_assoc, List.cons_append, parseBoolFactor,
        List.singleton_append,
        ih (.RParen :: rest) (.ok (e, .RParen :: rest)) fuel rfl (by simp)
          (fun m hM => orLoop_stop (by simp) (by omega))
          (by rw [List.length_cons]; omega)]
      rfl
  | yes | no | version inner =>
      intro rest fuel hFuel
      rcases fuel_left hFuel with ⟨fuel, rfl⟩
      rfl
  | «exists» hA | slash hA =>
      intro rest fuel hFuel
      rcases fuel_left hFuel with ⟨fuel, rfl⟩
      cases hA <;> rfl
  | coerce hA hTrue hFalse =>
      intro rest fuel hFuel
      rcases fuel_left hFuel with ⟨fuel, rfl⟩
      cases hA with
      | yes => exact absurd rfl hTrue
      | no => exact absurd rfl hFalse
      | _ => rfl

end Accepted

/- The parser accepts all of the tokens as an expression exactly when the
   grammar derives the tokens from it. -/
theorem condition_parser_exact
    (tokens : List Token)
    (e : BoolExpr) :
    parseOr (parserFuel tokens) tokens = .ok (e, []) ↔ Spells .Or e tokens := by
  constructor
  · intro hOk
    rcases (parser_sound _ tokens [] e).1 hOk with ⟨ts, hTokens, hSpells⟩
    rwa [hTokens, List.append_nil]
  · intro hSpells
    have hParses := hSpells.parses [] (.ok (e, [])) (parserFuel tokens) rfl
      (by decide) (fun m hM => orLoop_stop (by decide) hM) (Nat.le_refl _)
    rwa [List.append_nil] at hParses

end MSBuild

end Borzoi
