import Borzoi.Directives.Line

/-
  The grammar of `#if` expressions, and the parser against it.

  The grammar is over tokens: `!` binds tighter than `&&`, which binds
  tighter than `||`, and both are left associative.  The parser accepts
  what the grammar derives, with the grammar's tree, and the canonical
  printing of a tree is read back as that tree.

  Main declarations:
    * `Expr.toCanonical`
    * `Derives`
    * `HasValue`
    * `Sees`
    * `if_expr_round_trip_and_value`
-/

namespace Borzoi

namespace Directives

inductive Level
  | primary
  | negation
  | conjunction
  | disjunction
  deriving DecidableEq, Repr

/- The trees of a token list, level by level. -/
inductive Derives :
    Level → List Tok → Expr → Prop
  | ident
      (name : List UInt8) :
      Derives .primary [.Ident name] (.Ident name)
  | paren
      {toks : List Tok}
      {e : Expr}
      (hInner : Derives .disjunction toks e) :
      Derives .primary (.LParen :: toks ++ [.RParen]) e
  | ofPrimary
      {toks : List Tok}
      {e : Expr}
      (hInner : Derives .primary toks e) :
      Derives .negation toks e
  | not
      {toks : List Tok}
      {e : Expr}
      (hInner : Derives .negation toks e) :
      Derives .negation (.Not :: toks) (.Not e)
  | ofNegation
      {toks : List Tok}
      {e : Expr}
      (hInner : Derives .negation toks e) :
      Derives .conjunction toks e
  | and
      {left right : List Tok}
      {a b : Expr}
      (hLeft : Derives .conjunction left a)
      (hRight : Derives .negation right b) :
      Derives .conjunction (left ++ .And :: right) (.And a b)
  | ofConjunction
      {toks : List Tok}
      {e : Expr}
      (hInner : Derives .conjunction toks e) :
      Derives .disjunction toks e
  | or
      {left right : List Tok}
      {a b : Expr}
      (hLeft : Derives .disjunction left a)
      (hRight : Derives .conjunction right b) :
      Derives .disjunction (left ++ .Or :: right) (.Or a b)

/- The values of a token list under a symbol set, by the same grammar. -/
inductive HasValue
    (lookup : List UInt8 → Bool) :
    Level → List Tok → Bool → Prop
  | ident
      (name : List UInt8) :
      HasValue lookup .primary [.Ident name] (lookup name)
  | paren
      {toks : List Tok}
      {v : Bool}
      (hInner : HasValue lookup .disjunction toks v) :
      HasValue lookup .primary (.LParen :: toks ++ [.RParen]) v
  | ofPrimary
      {toks : List Tok}
      {v : Bool}
      (hInner : HasValue lookup .primary toks v) :
      HasValue lookup .negation toks v
  | not
      {toks : List Tok}
      {v : Bool}
      (hInner : HasValue lookup .negation toks v) :
      HasValue lookup .negation (.Not :: toks) (!v)
  | ofNegation
      {toks : List Tok}
      {v : Bool}
      (hInner : HasValue lookup .negation toks v) :
      HasValue lookup .conjunction toks v
  | and
      {left right : List Tok}
      {v w : Bool}
      (hLeft : HasValue lookup .conjunction left v)
      (hRight : HasValue lookup .negation right w) :
      HasValue lookup .conjunction (left ++ .And :: right) (v && w)
  | ofConjunction
      {toks : List Tok}
      {v : Bool}
      (hInner : HasValue lookup .conjunction toks v) :
      HasValue lookup .disjunction toks v
  | or
      {left right : List Tok}
      {v w : Bool}
      (hLeft : HasValue lookup .disjunction left v)
      (hRight : HasValue lookup .conjunction right w) :
      HasValue lookup .disjunction (left ++ .Or :: right) (v || w)

variable {e : Expr} {pos : Nat} {tok : Tok}

section Grammar

variable {lookup : List UInt8 → Bool} {level : Level} {toks : List Tok}

theorem Derives.hasValue
    (hDerives : Derives level toks e) :
    HasValue lookup level toks (e.eval lookup) := by
  induction hDerives with
  | ident name => exact .ident name
  | paren _ ih => exact .paren ih
  | ofPrimary _ ih => exact .ofPrimary ih
  | not _ ih => exact .not ih
  | ofNegation _ ih => exact .ofNegation ih
  | and _ _ ihLeft ihRight => exact .and ihLeft ihRight
  | ofConjunction _ ih => exact .ofConjunction ih
  | or _ _ ihLeft ihRight => exact .or ihLeft ihRight

theorem HasValue.derives
    {v : Bool}
    (hValue : HasValue lookup level toks v) :
    ∃ e, Derives level toks e ∧ e.eval lookup = v := by
  induction hValue with
  | ident name =>
      exact ⟨_, .ident name, rfl⟩
  | paren _ ih =>
      rcases ih with ⟨e, hDerives, hEval⟩
      exact ⟨e, .paren hDerives, hEval⟩
  | ofPrimary _ ih =>
      rcases ih with ⟨e, hDerives, hEval⟩
      exact ⟨e, .ofPrimary hDerives, hEval⟩
  | not _ ih =>
      rcases ih with ⟨e, hDerives, hEval⟩
      refine ⟨_, .not hDerives, ?_⟩
      rw [Expr.eval, hEval]
  | ofNegation _ ih =>
      rcases ih with ⟨e, hDerives, hEval⟩
      exact ⟨e, .ofNegation hDerives, hEval⟩
  | and _ _ ihLeft ihRight =>
      rcases ihLeft with ⟨a, hLeft, hEvalLeft⟩
      rcases ihRight with ⟨b, hRight, hEvalRight⟩
      refine ⟨_, .and hLeft hRight, ?_⟩
      rw [Expr.eval, hEvalLeft, hEvalRight]
  | ofConjunction _ ih =>
      rcases ih with ⟨e, hDerives, hEval⟩
      exact ⟨e, .ofConjunction hDerives, hEval⟩
  | or _ _ ihLeft ihRight =>
      rcases ihLeft with ⟨a, hLeft, hEvalLeft⟩
      rcases ihRight with ⟨b, hRight, hEvalRight⟩
      refine ⟨_, .or hLeft hRight, ?_⟩
      rw [Expr.eval, hEvalLeft, hEvalRight]

theorem Derives.nonempty
    (hDerives : Derives level toks e) :
    1 ≤ toks.length := by
  induction hDerives with
  | ident name => exact Nat.le_refl _
  | paren _ _ => exact Nat.succ_le_succ (Nat.zero_le _)
  | ofPrimary _ ih => exact ih
  | not _ _ => exact Nat.succ_le_succ (Nat.zero_le _)
  | ofNegation _ ih => exact ih
  | and _ _ ihLeft _ =>
      rw [List.length_append]
      exact Nat.le_add_right_of_le ihLeft
  | ofConjunction _ ih => exact ih
  | or _ _ ihLeft _ =>
      rw [List.length_append]
      exact Nat.le_add_right_of_le ihLeft

end Grammar

/- The tokens of the input from a place to its end. -/
inductive Lexes
    (input : List UInt8) :
    Nat → List Tok → Prop
  | eof
      {pos start stop : Nat}
      (hNext : nextToken input pos = .ok (.Eof, start, stop)) :
      Lexes input pos []
  | cons
      {pos start stop : Nat}
      {tok : Tok}
      {toks : List Tok}
      (hNext : nextToken input pos = .ok (tok, start, stop))
      (hTok : tok ≠ .Eof)
      (hRest : Lexes input stop toks) :
      Lexes input pos (tok :: toks)

/- The tokens ahead of the parser, the peeked one included. -/
def Sees
    (input : List UInt8)
    (p : Parser)
    (toks : List Tok) :
    Prop :=
  match p.peeked with
  | none => Lexes input p.pos toks
  | some (.Eof, _) => toks = []
  | some (tok, _) => ∃ rest, toks = tok :: rest ∧ Lexes input p.pos rest

section Ahead

variable {input : List UInt8} {p p₁ : Parser} {tok : Tok} {toks : List Tok}
variable {start : Nat}

theorem sees_peeked
    (hTok : tok ≠ .Eof) :
    Sees input ⟨pos, some (tok, start)⟩ toks ↔
      ∃ rest, toks = tok :: rest ∧ Lexes input pos rest := by
  unfold Sees
  cases tok with
  | Eof => exact absurd rfl hTok
  | _ => rfl

/- What peeking shows is the first token ahead. -/
theorem peek_of_sees
    (hSees : Sees input p toks) :
    ∃ p₁, p.peek input = .ok (toks.headD .Eof, p₁) ∧ Sees input p₁ toks := by
  rcases p with ⟨pos, peeked⟩
  cases peeked with
  | some entry =>
      rcases entry with ⟨tok, start⟩
      refine ⟨⟨pos, some (tok, start)⟩, ?_, hSees⟩
      by_cases hTok : tok = .Eof
      · subst hTok
        have hNil : toks = [] := hSees
        rw [hNil]
        rfl
      · rcases (sees_peeked hTok).1 hSees with ⟨rest, hToks, _⟩
        rw [hToks]
        rfl
  | none =>
      cases hSees with
      | @eof _ start stop hNext =>
          refine ⟨⟨stop, some (.Eof, start)⟩, ?_, rfl⟩
          unfold Parser.peek
          dsimp only
          rw [hNext]
          rfl
      | @cons _ start stop tok rest hNext hTok hRest =>
          refine ⟨⟨stop, some (tok, start)⟩, ?_,
            (sees_peeked hTok).2 ⟨rest, rfl, hRest⟩⟩
          unfold Parser.peek
          dsimp only
          rw [hNext]
          rfl

theorem bump_of_sees
    (hSees : Sees input p (tok :: toks)) :
    ∃ start p₁, p.bump input = .ok (tok, start, p₁) ∧ Sees input p₁ toks := by
  rcases p with ⟨pos, peeked⟩
  cases peeked with
  | some entry =>
      rcases entry with ⟨tok', start⟩
      by_cases hTok : tok' = .Eof
      · subst hTok
        cases hSees
      · rcases (sees_peeked hTok).1 hSees with ⟨rest, hToks, hRest⟩
        cases hToks
        exact ⟨start, ⟨pos, none⟩, rfl, hRest⟩
  | none =>
      cases hSees with
      | @cons _ start stop _ _ hNext hTok hRest =>
          refine ⟨start, ⟨stop, none⟩, ?_, hRest⟩
          unfold Parser.bump
          dsimp only
          rw [hNext]

theorem bump_of_sees_nil
    (hSees : Sees input p []) :
    ∃ start p₁, p.bump input = .ok (.Eof, start, p₁) := by
  rcases p with ⟨pos, peeked⟩
  cases peeked with
  | some entry =>
      rcases entry with ⟨tok, start⟩
      by_cases hTok : tok = .Eof
      · subst hTok
        exact ⟨start, ⟨pos, none⟩, rfl⟩
      · rcases (sees_peeked hTok).1 hSees with ⟨rest, hToks, _⟩
        cases hToks
  | none =>
      cases hSees with
      | @eof _ start stop hNext =>
          refine ⟨start, ⟨stop, none⟩, ?_⟩
          unfold Parser.bump
          dsimp only
          rw [hNext]

/- A peek leaves the same tokens ahead. -/
theorem sees_of_peek
    (hPeek : p.peek input = .ok (tok, p₁))
    (hSees : Sees input p₁ toks) :
    Sees input p toks ∧ tok = toks.headD .Eof := by
  rcases p with ⟨pos, peeked⟩
  cases peeked with
  | some entry =>
      rcases entry with ⟨tok', start⟩
      cases hPeek
      refine ⟨hSees, ?_⟩
      by_cases hTok : tok = .Eof
      · subst hTok
        have hNil : toks = [] := hSees
        rw [hNil]
        rfl
      · rcases (sees_peeked hTok).1 hSees with ⟨rest, hToks, _⟩
        rw [hToks]
        rfl
  | none =>
      unfold Parser.peek at hPeek
      dsimp only at hPeek
      split at hPeek
      · cases hPeek
      · next tok' start stop hNext =>
          cases hPeek
          by_cases hTok : tok = .Eof
          · subst hTok
            have hNil : toks = [] := hSees
            rw [hNil]
            exact ⟨.eof hNext, rfl⟩
          · rcases (sees_peeked hTok).1 hSees with ⟨rest, hToks, hRest⟩
            rw [hToks]
            exact ⟨.cons hNext hTok hRest, rfl⟩

theorem sees_of_bump
    (hBump : p.bump input = .ok (tok, start, p₁))
    (hTok : tok ≠ .Eof)
    (hSees : Sees input p₁ toks) :
    Sees input p (tok :: toks) := by
  rcases p with ⟨pos, peeked⟩
  cases peeked with
  | some entry =>
      rcases entry with ⟨tok', start'⟩
      cases hBump
      exact (sees_peeked hTok).2 ⟨toks, rfl, hSees⟩
  | none =>
      unfold Parser.bump at hBump
      dsimp only at hBump
      split at hBump
      · cases hBump
      · next tok' start' stop hNext =>
          cases hBump
          exact .cons hNext hTok hSees

theorem sees_of_bump_eof
    (hBump : p.bump input = .ok (.Eof, start, p₁)) :
    Sees input p [] := by
  rcases p with ⟨pos, peeked⟩
  cases peeked with
  | some entry =>
      rcases entry with ⟨tok', start'⟩
      cases hBump
      rfl
  | none =>
      unfold Parser.bump at hBump
      dsimp only at hBump
      split at hBump
      · cases hBump
      · next tok' start' stop hNext =>
          cases hBump
          exact .eof hNext

theorem bump_of_peek
    {tok' : Tok}
    {p₂ : Parser}
    (hPeek : p.peek input = .ok (tok, p₁))
    (hBump : p₁.bump input = .ok (tok', start, p₂)) :
    tok' = tok := by
  have hPeeked : ∃ start, p₁.peeked = some (tok, start) := by
    unfold Parser.peek at hPeek
    split at hPeek
    · next entry start hSome =>
        cases hPeek
        exact ⟨start, hSome⟩
    · split at hPeek
      · cases hPeek
      · next start stop _ =>
          cases hPeek
          exact ⟨start, rfl⟩
  rcases hPeeked with ⟨start', hSome⟩
  unfold Parser.bump at hBump
  rw [hSome] at hBump
  cases hBump
  rfl

end Ahead

section Complete

variable {input : List UInt8}

/-
  How each level's function reads a derived token list.  The two loops
  are left with the tree as their accumulator, and a loop ends at a
  token that does not continue it.
-/
def Parses
    (input : List UInt8)
    (level : Level)
    (toks : List Tok)
    (e : Expr) :
    Prop :=
  ∀ (fuel : Nat) (p : Parser) (rest : List Tok),
    Sees input p (toks ++ rest) →
    match level with
    | .primary => 3 * toks.length ≤ fuel + 2 →
        ∃ p₁, parsePrimary input fuel p = some (.ok (e, p₁)) ∧
          Sees input p₁ rest
    | .negation => 3 * toks.length ≤ fuel + 1 →
        ∃ p₁, parseNot input fuel p = some (.ok (e, p₁)) ∧
          Sees input p₁ rest
    | .conjunction => 3 * toks.length ≤ fuel →
        ∃ fuel₁ p₁, parseAnd input fuel p = parseAndRest input fuel₁ e p₁ ∧
          Sees input p₁ rest ∧ fuel ≤ fuel₁ + toks.length
    | .disjunction => 3 * toks.length + 1 ≤ fuel →
        rest.headD .Eof ≠ .And →
        ∃ fuel₁ p₁, parseOr input fuel p = parseOrRest input fuel₁ e p₁ ∧
          Sees input p₁ rest ∧ fuel ≤ fuel₁ + toks.length

variable {rest toks : List Tok} {fuel : Nat} {p : Parser}

theorem parseAndRest_stop
    (e : Expr)
    (hFuel : 1 ≤ fuel)
    (hSees : Sees input p rest)
    (hStop : rest.headD .Eof ≠ .And) :
    ∃ p₁, parseAndRest input fuel e p = some (.ok (e, p₁)) ∧
      Sees input p₁ rest := by
  cases fuel with
  | zero => omega
  | succ fuel =>
      rcases peek_of_sees hSees with ⟨p₁, hPeek, hSees₁⟩
      refine ⟨p₁, ?_, hSees₁⟩
      generalize rest.headD .Eof = tok at hPeek hStop
      rw [parseAndRest, hPeek]
      cases tok with
      | And => exact absurd rfl hStop
      | _ => rfl

theorem parseOrRest_stop
    (e : Expr)
    (hFuel : 1 ≤ fuel)
    (hSees : Sees input p rest)
    (hStop : rest.headD .Eof ≠ .Or) :
    ∃ p₁, parseOrRest input fuel e p = some (.ok (e, p₁)) ∧
      Sees input p₁ rest := by
  cases fuel with
  | zero => omega
  | succ fuel =>
      rcases peek_of_sees hSees with ⟨p₁, hPeek, hSees₁⟩
      refine ⟨p₁, ?_, hSees₁⟩
      generalize rest.headD .Eof = tok at hPeek hStop
      rw [parseOrRest, hPeek]
      cases tok with
      | Or => exact absurd rfl hStop
      | _ => rfl

theorem Derives.head_ne_not
    (hDerives : Derives .primary toks e)
    (rest : List Tok) :
    (toks ++ rest).headD .Eof ≠ .Not := by
  cases hDerives with
  | ident name =>
      intro hEq
      cases hEq
  | paren _ =>
      intro hEq
      cases hEq

theorem Derives.parses
    {level : Level}
    (hDerives : Derives level toks e) :
    Parses input level toks e := by
  induction hDerives with
  | ident name =>
      intro fuel p rest hSees hFuel
      cases fuel with
      | zero =>
          rw [List.length_singleton] at hFuel
          omega
      | succ fuel =>
          rcases bump_of_sees hSees with ⟨start, p₁, hBump, hSees₁⟩
          refine ⟨p₁, ?_, hSees₁⟩
          rw [parsePrimary, hBump]
  | @paren toks e hInner ih =>
      intro fuel p rest hSees hFuel
      have hSome := hInner.nonempty
      have hLength : (Tok.LParen :: toks ++ [Tok.RParen]).length =
          toks.length + 2 := by
        rw [List.length_append, List.length_cons]
        rfl
      rw [hLength] at hFuel
      cases fuel with
      | zero => omega
      | succ fuel =>
          have hToks : Tok.LParen :: toks ++ [Tok.RParen] ++ rest =
              Tok.LParen :: (toks ++ Tok.RParen :: rest) := by
            simp
          rw [hToks] at hSees
          rcases bump_of_sees hSees with ⟨start, p₁, hBump, hSees₁⟩
          have hNotAnd : (Tok.RParen :: rest).headD .Eof ≠ .And := by
            intro hEq
            cases hEq
          have hNotOr : (Tok.RParen :: rest).headD .Eof ≠ .Or := by
            intro hEq
            cases hEq
          rcases ih fuel p₁ _ hSees₁ (by omega) hNotAnd with
            ⟨fuel₂, p₂, hParse, hSees₂, hLeft⟩
          have hEnough : 1 ≤ fuel₂ := by omega
          rcases parseOrRest_stop e hEnough hSees₂ hNotOr with
            ⟨p₃, hStop, hSees₃⟩
          rcases bump_of_sees hSees₃ with ⟨start₄, p₄, hBump₄, hSees₄⟩
          refine ⟨p₄, ?_, hSees₄⟩
          rw [parsePrimary, hBump]
          dsimp only
          rw [hParse, hStop]
          dsimp only
          rw [hBump₄]
  | @ofPrimary toks e hInner ih =>
      intro fuel p rest hSees hFuel
      have hSome := hInner.nonempty
      cases fuel with
      | zero => omega
      | succ fuel =>
          rcases peek_of_sees hSees with ⟨p₁, hPeek, hSees₁⟩
          rcases ih fuel p₁ rest hSees₁ (by omega) with ⟨p₂, hParse, hSees₂⟩
          refine ⟨p₂, ?_, hSees₂⟩
          have hNot := hInner.head_ne_not rest
          generalize (toks ++ rest).headD .Eof = tok at hPeek hNot
          rw [parseNot, hPeek]
          cases tok with
          | Not => exact absurd rfl hNot
          | _ => exact hParse
  | @not toks e hInner ih =>
      intro fuel p rest hSees hFuel
      rw [List.length_cons] at hFuel
      cases fuel with
      | zero => omega
      | succ fuel =>
          rcases peek_of_sees hSees with ⟨p₁, hPeek, hSees₁⟩
          rcases bump_of_sees hSees₁ with ⟨start, p₂, hBump, hSees₂⟩
          rcases ih fuel p₂ rest hSees₂ (by omega) with ⟨p₃, hParse, hSees₃⟩
          refine ⟨p₃, ?_, hSees₃⟩
          have hPeek : p.peek input = .ok (Tok.Not, p₁) := hPeek
          rw [parseNot, hPeek]
          dsimp only
          rw [hBump]
          dsimp only
          rw [hParse]
  | @ofNegation toks e hInner ih =>
      intro fuel p rest hSees hFuel
      have hSome := hInner.nonempty
      cases fuel with
      | zero => omega
      | succ fuel =>
          rcases ih fuel p rest hSees (by omega) with ⟨p₁, hParse, hSees₁⟩
          refine ⟨fuel, p₁, ?_, hSees₁, by omega⟩
          rw [parseAnd, hParse]
  | @and left right a b hLeft hRight ihLeft ihRight =>
      intro fuel p rest hSees hFuel
      rw [List.length_append, List.length_cons] at hFuel
      have hToks : left ++ Tok.And :: right ++ rest =
          left ++ Tok.And :: (right ++ rest) := by
        simp
      rw [hToks] at hSees
      have hSome := hLeft.nonempty
      rcases ihLeft fuel p _ hSees (by omega) with
        ⟨fuel₁, p₁, hParse, hSees₁, hUsed⟩
      cases fuel₁ with
      | zero => omega
      | succ fuel₁ =>
          rcases peek_of_sees hSees₁ with ⟨p₂, hPeek, hSees₂⟩
          rcases bump_of_sees hSees₂ with ⟨start, p₃, hBump, hSees₃⟩
          rcases ihRight fuel₁ p₃ rest hSees₃ (by omega) with
            ⟨p₄, hParseRight, hSees₄⟩
          refine ⟨fuel₁, p₄, ?_, hSees₄, ?_⟩
          · have hPeek : p₁.peek input = .ok (Tok.And, p₂) := hPeek
            rw [hParse, parseAndRest, hPeek]
            dsimp only
            rw [hBump]
            dsimp only
            rw [hParseRight]
          · rw [List.length_append, List.length_cons]
            omega
  | @ofConjunction toks e hInner ih =>
      intro fuel p rest hSees hFuel hNotAnd
      have hSome := hInner.nonempty
      cases fuel with
      | zero => omega
      | succ fuel =>
          rcases ih fuel p rest hSees (by omega) with
            ⟨fuel₁, p₁, hParse, hSees₁, hUsed⟩
          have hEnough : 1 ≤ fuel₁ := by omega
          rcases parseAndRest_stop e hEnough hSees₁ hNotAnd with
            ⟨p₂, hStop, hSees₂⟩
          refine ⟨fuel, p₂, ?_, hSees₂, by omega⟩
          rw [parseOr, hParse, hStop]
  | @or left right a b hLeft hRight ihLeft ihRight =>
      intro fuel p rest hSees hFuel hNotAnd
      rw [List.length_append, List.length_cons] at hFuel
      have hToks : left ++ Tok.Or :: right ++ rest =
          left ++ Tok.Or :: (right ++ rest) := by
        simp
      rw [hToks] at hSees
      have hSome := hLeft.nonempty
      have hSomeRight := hRight.nonempty
      have hOr : (Tok.Or :: (right ++ rest)).headD .Eof ≠ .And := by
        intro hEq
        cases hEq
      rcases ihLeft fuel p _ hSees (by omega) hOr with
        ⟨fuel₁, p₁, hParse, hSees₁, hUsed⟩
      cases fuel₁ with
      | zero => omega
      | succ fuel₁ =>
          rcases peek_of_sees hSees₁ with ⟨p₂, hPeek, hSees₂⟩
          rcases bump_of_sees hSees₂ with ⟨start, p₃, hBump, hSees₃⟩
          rcases ihRight fuel₁ p₃ rest hSees₃ (by omega) with
            ⟨fuel₄, p₄, hParseRight, hSees₄, hUsed₄⟩
          have hEnough : 1 ≤ fuel₄ := by omega
          rcases parseAndRest_stop b hEnough hSees₄ hNotAnd with
            ⟨p₅, hStop, hSees₅⟩
          refine ⟨fuel₁, p₅, ?_, hSees₅, ?_⟩
          · have hPeek : p₁.peek input = .ok (Tok.Or, p₂) := hPeek
            rw [hParse, parseOrRest, hPeek]
            dsimp only
            rw [hBump]
            dsimp only
            rw [hParseRight, hStop]
          · rw [List.length_append, List.length_cons]
            omega

end Complete

------------------------------------------------------------
-- Soundness
------------------------------------------------------------

/-
  What the parser accepted with a bound on its calls was derived by the
  grammar.  A loop extends the tree it was given.
-/
structure ReadsGrammar
    (input : List UInt8)
    (fuel : Nat) :
    Prop where
  primary :
    ∀ {p p' : Parser} {e : Expr} {rest : List Tok},
      parsePrimary input fuel p = some (.ok (e, p')) →
      Sees input p' rest →
      ∃ toks, Sees input p (toks ++ rest) ∧ Derives .primary toks e
  negation :
    ∀ {p p' : Parser} {e : Expr} {rest : List Tok},
      parseNot input fuel p = some (.ok (e, p')) →
      Sees input p' rest →
      ∃ toks, Sees input p (toks ++ rest) ∧ Derives .negation toks e
  conjunction :
    ∀ {p p' : Parser} {e : Expr} {rest : List Tok},
      parseAnd input fuel p = some (.ok (e, p')) →
      Sees input p' rest →
      ∃ toks, Sees input p (toks ++ rest) ∧ Derives .conjunction toks e
  conjuncts :
    ∀ {p p' : Parser} {left e : Expr} {rest : List Tok},
      parseAndRest input fuel left p = some (.ok (e, p')) →
      Sees input p' rest →
      ∃ toks, Sees input p (toks ++ rest) ∧
        ∀ before, Derives .conjunction before left →
          Derives .conjunction (before ++ toks) e
  disjunction :
    ∀ {p p' : Parser} {e : Expr} {rest : List Tok},
      parseOr input fuel p = some (.ok (e, p')) →
      Sees input p' rest →
      ∃ toks, Sees input p (toks ++ rest) ∧ Derives .disjunction toks e
  disjuncts :
    ∀ {p p' : Parser} {left e : Expr} {rest : List Tok},
      parseOrRest input fuel left p = some (.ok (e, p')) →
      Sees input p' rest →
      ∃ toks, Sees input p (toks ++ rest) ∧
        ∀ before, Derives .disjunction before left →
          Derives .disjunction (before ++ toks) e

section Sound

variable {input : List UInt8} {fuel : Nat} {p p' : Parser} {left e : Expr}
variable {rest : List Tok}

section

variable (hReads : ReadsGrammar input fuel)

include hReads

theorem ReadsGrammar.parsePrimary_step
    (hParse : parsePrimary input (fuel + 1) p = some (.ok (e, p')))
    (hSees : Sees input p' rest) :
    ∃ toks, Sees input p (toks ++ rest) ∧ Derives .primary toks e := by
  rw [parsePrimary] at hParse
  split at hParse
  · cases hParse
  · next name start p₁ hBump =>
      cases hParse
      exact ⟨_, sees_of_bump hBump (by simp) hSees, .ident name⟩
  · next start p₁ hBump =>
      split at hParse
      · cases hParse
      · cases hParse
      · next inner p₂ hInner =>
          split at hParse
          · cases hParse
          · next close p₃ hClose =>
              cases hParse
              have hSees₂ := sees_of_bump hClose (by simp) hSees
              rcases hReads.disjunction hInner hSees₂ with
                ⟨toks, hSees₁, hDerives⟩
              refine ⟨_, ?_, .paren hDerives⟩
              have hToks : Tok.LParen :: toks ++ [Tok.RParen] ++ rest =
                  Tok.LParen :: (toks ++ Tok.RParen :: rest) := by
                simp
              rw [hToks]
              exact sees_of_bump hBump (by simp) hSees₁
          · cases hParse
          · cases hParse
  · cases hParse
  · cases hParse

theorem ReadsGrammar.parseNot_step
    (hParse : parseNot input (fuel + 1) p = some (.ok (e, p')))
    (hSees : Sees input p' rest) :
    ∃ toks, Sees input p (toks ++ rest) ∧ Derives .negation toks e := by
  rw [parseNot] at hParse
  split at hParse
  · cases hParse
  · next p₁ hPeek =>
      split at hParse
      · cases hParse
      · next tok start p₂ hBump =>
          split at hParse
          · cases hParse
          · cases hParse
          · next inner p₃ hInner =>
              cases hParse
              rcases hReads.negation hInner hSees with
                ⟨toks, hSees₂, hDerives⟩
              have hNot := bump_of_peek hPeek hBump
              subst hNot
              have hSees₁ := sees_of_bump hBump (by simp) hSees₂
              exact ⟨_, (sees_of_peek hPeek hSees₁).1, .not hDerives⟩
  · next tok p₁ _ hPeek =>
      rcases hReads.primary hParse hSees with ⟨toks, hSees₁, hDerives⟩
      exact ⟨toks, (sees_of_peek hPeek hSees₁).1, .ofPrimary hDerives⟩

theorem ReadsGrammar.parseAnd_step
    (hParse : parseAnd input (fuel + 1) p = some (.ok (e, p')))
    (hSees : Sees input p' rest) :
    ∃ toks, Sees input p (toks ++ rest) ∧ Derives .conjunction toks e := by
  rw [parseAnd] at hParse
  split at hParse
  · cases hParse
  · cases hParse
  · next first p₁ hFirst =>
      -- The first operand's derivation needs what the loop leaves ahead.
      rcases hReads.conjuncts hParse hSees with ⟨toks₁, hSees₁, hExtends⟩
      rcases hReads.negation hFirst hSees₁ with ⟨toks, hSees₀, hDerives⟩
      refine ⟨toks ++ toks₁, ?_, hExtends _ (.ofNegation hDerives)⟩
      rw [List.append_assoc]
      exact hSees₀

theorem ReadsGrammar.parseOr_step
    (hParse : parseOr input (fuel + 1) p = some (.ok (e, p')))
    (hSees : Sees input p' rest) :
    ∃ toks, Sees input p (toks ++ rest) ∧ Derives .disjunction toks e := by
  rw [parseOr] at hParse
  split at hParse
  · cases hParse
  · cases hParse
  · next first p₁ hFirst =>
      rcases hReads.disjuncts hParse hSees with ⟨toks₁, hSees₁, hExtends⟩
      rcases hReads.conjunction hFirst hSees₁ with ⟨toks, hSees₀, hDerives⟩
      refine ⟨toks ++ toks₁, ?_, hExtends _ (.ofConjunction hDerives)⟩
      rw [List.append_assoc]
      exact hSees₀

theorem ReadsGrammar.parseAndRest_step
    (hParse : parseAndRest input (fuel + 1) left p = some (.ok (e, p')))
    (hSees : Sees input p' rest) :
    ∃ toks, Sees input p (toks ++ rest) ∧
      ∀ before, Derives .conjunction before left →
        Derives .conjunction (before ++ toks) e := by
  rw [parseAndRest] at hParse
  split at hParse
  · cases hParse
  · next p₁ hPeek =>
      split at hParse
      · cases hParse
      · next tok start p₂ hBump =>
          split at hParse
          · cases hParse
          · cases hParse
          · next right p₃ hRight =>
              rcases hReads.conjuncts hParse hSees with
                ⟨toks₃, hSees₃, hExtends⟩
              rcases hReads.negation hRight hSees₃ with
                ⟨toks₂, hSees₂, hDerives⟩
              have hAnd := bump_of_peek hPeek hBump
              subst hAnd
              have hSees₁ := sees_of_bump hBump (by simp) hSees₂
              refine ⟨Tok.And :: (toks₂ ++ toks₃), ?_, ?_⟩
              · rw [List.cons_append, List.append_assoc]
                exact (sees_of_peek hPeek hSees₁).1
              · intro before hBefore
                have hBoth := hExtends _ (.and hBefore hDerives)
                rw [List.append_assoc, List.cons_append] at hBoth
                exact hBoth
  · next tok p₁ _ hPeek =>
      cases hParse
      refine ⟨[], (sees_of_peek hPeek hSees).1, ?_⟩
      intro before hBefore
      rw [List.append_nil]
      exact hBefore

theorem ReadsGrammar.parseOrRest_step
    (hParse : parseOrRest input (fuel + 1) left p = some (.ok (e, p')))
    (hSees : Sees input p' rest) :
    ∃ toks, Sees input p (toks ++ rest) ∧
      ∀ before, Derives .disjunction before left →
        Derives .disjunction (before ++ toks) e := by
  rw [parseOrRest] at hParse
  split at hParse
  · cases hParse
  · next p₁ hPeek =>
      split at hParse
      · cases hParse
      · next tok start p₂ hBump =>
          split at hParse
          · cases hParse
          · cases hParse
          · next right p₃ hRight =>
              rcases hReads.disjuncts hParse hSees with
                ⟨toks₃, hSees₃, hExtends⟩
              rcases hReads.conjunction hRight hSees₃ with
                ⟨toks₂, hSees₂, hDerives⟩
              have hOr := bump_of_peek hPeek hBump
              subst hOr
              have hSees₁ := sees_of_bump hBump (by simp) hSees₂
              refine ⟨Tok.Or :: (toks₂ ++ toks₃), ?_, ?_⟩
              · rw [List.cons_append, List.append_assoc]
                exact (sees_of_peek hPeek hSees₁).1
              · intro before hBefore
                have hBoth := hExtends _ (.or hBefore hDerives)
                rw [List.append_assoc, List.cons_append] at hBoth
                exact hBoth
  · next tok p₁ _ hPeek =>
      cases hParse
      refine ⟨[], (sees_of_peek hPeek hSees).1, ?_⟩
      intro before hBefore
      rw [List.append_nil]
      exact hBefore

end

theorem readsGrammar
    (input : List UInt8)
    (fuel : Nat) :
    ReadsGrammar input fuel := by
  induction fuel with
  | zero =>
      constructor
      all_goals
        intros
        contradiction
  | succ fuel ih =>
      constructor
      · exact ih.parsePrimary_step
      · exact ih.parseNot_step
      · exact ih.parseAnd_step
      · exact ih.parseAndRest_step
      · exact ih.parseOr_step
      · exact ih.parseOrRest_step

end Sound

section Accepts

variable {input : List UInt8} {toks : List Tok} {e : Expr}

/- A token takes at least one byte, and none reaches past the input. -/
theorem nextToken_span
    {pos start stop : Nat}
    (hNext : nextToken input pos = .ok (tok, start, stop))
    (hTok : tok ≠ .Eof) :
    pos < stop ∧ stop ≤ input.length := by
  have hStart := le_scanWhile isBlank input pos input.length
  unfold nextToken at hNext
  dsimp only at hNext
  generalize scanWhile isBlank input pos input.length = place at hNext hStart
  split at hNext
  · cases hNext
    exact absurd rfl hTok
  · next b hByte =>
      have hIn : place < input.length := (List.getElem?_eq_some_iff.1 hByte).1
      have hSecond : ∀ c, input[place + 1]? = some c →
          place + 1 < input.length := by
        intro c hSome
        exact (List.getElem?_eq_some_iff.1 hSome).1
      split at hNext
      · cases hNext
        omega
      · split at hNext
        · split at hNext
          · next hAnd =>
              have := hSecond _ hAnd
              cases hNext
              omega
          · cases hNext
        · split at hNext
          · split at hNext
            · next hOr =>
                have := hSecond _ hOr
                cases hNext
                omega
            · cases hNext
          · split at hNext
            · split at hNext
              · cases hNext
              · cases hNext
                omega
            · split at hNext
              · cases hNext
                omega
              · split at hNext
                · split at hNext
                  · cases hNext
                    exact absurd rfl hTok
                  · cases hNext
                · split at hNext
                  · have hEnd : scanWhile isIdentContinue input (place + 1)
                        input.length ≤ input.length := scanWhile_le hIn
                    have hBehind := le_scanWhile isIdentContinue input
                      (place + 1) input.length
                    cases hNext
                    omega
                  · cases hNext

theorem Lexes.length_le
    (hLexes : Lexes input pos toks)
    (hPos : pos ≤ input.length) :
    pos + toks.length ≤ input.length := by
  induction hLexes with
  | eof hNext => exact hPos
  | cons hNext hTok hRest ih =>
      rcases nextToken_span hNext hTok with ⟨hBehind, hIn⟩
      have hLength := ih hIn
      rw [List.length_cons]
      omega

theorem parseIfExpr_of_derives
    (hLexes : Lexes input 0 toks)
    (hDerives : Derives .disjunction toks e) :
    parseIfExpr input = .ok e := by
  have hLength := hLexes.length_le (Nat.zero_le _)
  have hSees : Sees input ⟨0, none⟩ (toks ++ []) := by
    rw [List.append_nil]
    exact hLexes
  have hFuel : 3 * toks.length + 1 ≤ 5 * (input.length + 1) := by
    omega
  have hNotAnd : ([] : List Tok).headD .Eof ≠ .And := by
    simp
  have hNotOr : ([] : List Tok).headD .Eof ≠ .Or := by
    simp
  rcases hDerives.parses _ _ _ hSees hFuel hNotAnd with
    ⟨fuel₁, p₁, hParse, hSees₁, hUsed⟩
  have hEnough : 1 ≤ fuel₁ := by
    omega
  rcases parseOrRest_stop e hEnough hSees₁ hNotOr with ⟨p₂, hStop, hSees₂⟩
  rcases bump_of_sees_nil hSees₂ with ⟨start, p₃, hBump⟩
  unfold parseIfExpr expectEof
  rw [hParse, hStop]
  dsimp only
  rw [hBump]

theorem derives_of_parseIfExpr
    (hParse : parseIfExpr input = .ok e) :
    ∃ toks, Lexes input 0 toks ∧ Derives .disjunction toks e := by
  unfold parseIfExpr at hParse
  split at hParse
  · cases hParse
  · cases hParse
  · next expr p hOr =>
      split at hParse
      · cases hParse
      · next hEof =>
          cases hParse
          have hSees : Sees input p [] := by
            unfold expectEof at hEof
            split at hEof
            · cases hEof
            · next start p₁ hBump =>
                exact sees_of_bump_eof hBump
            · cases hEof
          rcases (readsGrammar input _).disjunction hOr hSees with
            ⟨toks, hSees₀, hDerives⟩
          rw [List.append_nil] at hSees₀
          exact ⟨toks, hSees₀, hDerives⟩

end Accepts

------------------------------------------------------------
-- Canonical Printing
------------------------------------------------------------

namespace Expr

/- `Expr::write_canonical`. -/
def toCanonical :
    Expr → List UInt8
  | .Ident name => name
  | .Not e => ascii "(!" ++ e.toCanonical ++ ascii ")"
  | .And a b =>
      ascii "(" ++ a.toCanonical ++ ascii " && " ++ b.toCanonical ++ ascii ")"
  | .Or a b =>
      ascii "(" ++ a.toCanonical ++ ascii " || " ++ b.toCanonical ++ ascii ")"

/- The bytes that the tokenizer reads as one identifier. -/
def isLexable
    (name : List UInt8) :
    Bool :=
  match name with
  | [] => false
  | b :: more => isIdentStart b && more.all isIdentContinue

/- Every identifier is one that the tokenizer reads. -/
def Lexable :
    Expr → Prop
  | .Ident name => isLexable name = true
  | .Not e => e.Lexable
  | .And a b => a.Lexable ∧ b.Lexable
  | .Or a b => a.Lexable ∧ b.Lexable

/- The tokens of the canonical printing. -/
def tokens :
    Expr → List Tok
  | .Ident name => [.Ident name]
  | .Not e => .LParen :: (.Not :: e.tokens) ++ [.RParen]
  | .And a b => .LParen :: (a.tokens ++ .And :: b.tokens) ++ [.RParen]
  | .Or a b => .LParen :: (a.tokens ++ .Or :: b.tokens) ++ [.RParen]

theorem derives_tokens
    (e : Expr) :
    Derives .primary e.tokens e := by
  induction e with
  | Ident name => exact .ident name
  | Not e ih =>
      exact .paren (.ofConjunction (.ofNegation (.not (.ofPrimary ih))))
  | And a b ihA ihB =>
      exact .paren (.ofConjunction
        (.and (.ofNegation (.ofPrimary ihA)) (.ofPrimary ihB)))
  | Or a b ihA ihB =>
      exact .paren (.or
        (.ofConjunction (.ofNegation (.ofPrimary ihA)))
        (.ofNegation (.ofPrimary ihB)))

end Expr

section Printing

variable {input : List UInt8} {toks : List Tok} {tail : List UInt8} {pos : Nat}

theorem scanWhile_end
    (p : UInt8 → Bool)
    (input : List UInt8)
    (pos : Nat) :
    scanWhile p input pos input.length =
      pos + ((input.drop pos).takeWhile p).length := by
  unfold scanWhile
  rw [List.take_of_length_le]
  exact Nat.le_of_eq List.length_drop

theorem drop_step
    (front : List UInt8)
    (hDrop : input.drop pos = front ++ tail) :
    input.drop (pos + front.length) = tail := by
  rw [← List.drop_drop, hDrop, List.drop_left]

variable {b : UInt8}

/- The tokenizer at a byte that is no blank. -/
theorem nextToken_start
    (hDrop : input.drop pos = b :: tail)
    (hBlank : isBlank b = false) :
    scanWhile isBlank input pos input.length = pos ∧
      input[pos]? = some b ∧ input[pos + 1]? = tail.head? := by
  refine ⟨?_, ?_, ?_⟩
  · rw [scanWhile_end, hDrop, List.takeWhile_cons_of_neg]
    · rfl
    · rw [hBlank]
      decide
  · have hGet : (input.drop pos)[0]? = input[pos + 0]? := List.getElem?_drop
    rw [hDrop] at hGet
    exact hGet.symm
  · have hGet : (input.drop pos)[1]? = input[pos + 1]? := List.getElem?_drop
    rw [hDrop] at hGet
    rw [← hGet, List.head?_eq_getElem?]
    rfl

/- A blank is skipped. -/
theorem Lexes.blank
    (hDrop : input.drop pos = byte ' ' :: tail)
    (hLexes : Lexes input (pos + 1) toks) :
    Lexes input pos toks := by
  have hTail : input.drop (pos + 1) = tail :=
    drop_step [byte ' '] hDrop
  have hScan : scanWhile isBlank input pos input.length =
      scanWhile isBlank input (pos + 1) input.length := by
    rw [scanWhile_end, scanWhile_end, hDrop, hTail]
    rw [List.takeWhile_cons_of_pos (by decide)]
    rw [List.length_cons]
    omega
  have hNext : nextToken input pos = nextToken input (pos + 1) := by
    unfold nextToken
    rw [hScan]
  cases hLexes with
  | eof hEof => exact .eof (hNext.trans hEof)
  | cons hTok hNe hRest => exact .cons (hNext.trans hTok) hNe hRest

theorem Lexes.bang
    (hDrop : input.drop pos = byte '!' :: tail)
    (hLexes : Lexes input (pos + 1) toks) :
    Lexes input pos (.Not :: toks) := by
  rcases nextToken_start hDrop (by decide) with ⟨hScan, hByte, _⟩
  have hNext : nextToken input pos = .ok (Tok.Not, pos, pos + 1) := by
    unfold nextToken
    rw [hScan]
    dsimp only
    rw [hByte]
    exact if_pos rfl
  exact .cons hNext (by simp) hLexes

theorem Lexes.openParen
    (hDrop : input.drop pos = byte '(' :: tail)
    (hStar : tail.head? ≠ some (byte '*'))
    (hLexes : Lexes input (pos + 1) toks) :
    Lexes input pos (.LParen :: toks) := by
  rcases nextToken_start hDrop (by decide) with ⟨hScan, hByte, hSecond⟩
  have hNext : nextToken input pos = .ok (Tok.LParen, pos, pos + 1) := by
    unfold nextToken
    rw [hScan]
    dsimp only
    rw [hByte, hSecond]
    exact if_neg hStar
  exact .cons hNext (by simp) hLexes

theorem Lexes.closeParen
    (hDrop : input.drop pos = byte ')' :: tail)
    (hLexes : Lexes input (pos + 1) toks) :
    Lexes input pos (.RParen :: toks) := by
  rcases nextToken_start hDrop (by decide) with ⟨hScan, hByte, _⟩
  have hNext : nextToken input pos = .ok (Tok.RParen, pos, pos + 1) := by
    unfold nextToken
    rw [hScan]
    dsimp only
    rw [hByte]
    rfl
  exact .cons hNext (by simp) hLexes

theorem Lexes.ampersands
    (hDrop : input.drop pos = byte '&' :: byte '&' :: tail)
    (hLexes : Lexes input (pos + 2) toks) :
    Lexes input pos (.And :: toks) := by
  rcases nextToken_start hDrop (by decide) with ⟨hScan, hByte, hSecond⟩
  have hNext : nextToken input pos = .ok (Tok.And, pos, pos + 2) := by
    unfold nextToken
    rw [hScan]
    dsimp only
    rw [hByte, hSecond]
    rfl
  exact .cons hNext (by simp) hLexes

theorem Lexes.bars
    (hDrop : input.drop pos = byte '|' :: byte '|' :: tail)
    (hLexes : Lexes input (pos + 2) toks) :
    Lexes input pos (.Or :: toks) := by
  rcases nextToken_start hDrop (by decide) with ⟨hScan, hByte, hSecond⟩
  have hNext : nextToken input pos = .ok (Tok.Or, pos, pos + 2) := by
    unfold nextToken
    rw [hScan]
    dsimp only
    rw [hByte, hSecond]
    rfl
  exact .cons hNext (by simp) hLexes

/- The byte behind an identifier ends it. -/
def EndsIdent
    (tail : List UInt8) :
    Prop :=
  ∀ b, tail.head? = some b → isIdentContinue b = false

theorem takeWhile_identifier
    {more : List UInt8}
    (hMore : more.all isIdentContinue = true)
    (hEnds : EndsIdent tail) :
    (more ++ tail).takeWhile isIdentContinue = more := by
  induction more with
  | nil =>
      cases tail with
      | nil => rfl
      | cons b rest =>
          rw [List.nil_append, List.takeWhile_cons_of_neg]
          rw [hEnds b rfl]
          decide
  | cons b more ih =>
      rw [List.all_cons, Bool.and_eq_true] at hMore
      rw [List.cons_append, List.takeWhile_cons_of_pos hMore.1, ih hMore.2]

theorem Lexes.identifier
    {name : List UInt8}
    (hName : Expr.isLexable name = true)
    (hDrop : input.drop pos = name ++ tail)
    (hEnds : EndsIdent tail)
    (hLexes : Lexes input (pos + name.length) toks) :
    Lexes input pos (.Ident name :: toks) := by
  cases name with
  | nil => cases hName
  | cons b more =>
      rw [Expr.isLexable, Bool.and_eq_true] at hName
      rcases hName with ⟨hStart, hMore⟩
      have hOther : ∀ c, isIdentStart c = false → b ≠ c := by
        intro c hNot hEq
        rw [hEq, hNot] at hStart
        cases hStart
      have hBlank : isBlank b = false := by
        unfold isBlank
        rw [Bool.or_eq_false_iff]
        exact ⟨beq_false_of_ne (hOther _ (by decide)),
          beq_false_of_ne (hOther _ (by decide))⟩
      rcases nextToken_start hDrop hBlank with ⟨hScan, hByte, _⟩
      have hTail := drop_step [b] hDrop
      have hStop : scanWhile isIdentContinue input (pos + 1) input.length =
          pos + (b :: more).length := by
        rw [scanWhile_end]
        change _ + ((input.drop (pos + [b].length)).takeWhile _).length = _
        rw [hTail, List.append_eq, takeWhile_identifier hMore hEnds,
          List.length_cons]
        omega
      have hSlice : slice input pos (pos + (b :: more).length) = b :: more := by
        unfold slice
        rw [hDrop, Nat.add_sub_cancel_left]
        exact List.take_left
      have hNext : nextToken input pos =
          .ok (Tok.Ident (b :: more), pos, pos + (b :: more).length) := by
        unfold nextToken
        rw [hScan]
        dsimp only
        rw [hByte]
        dsimp only
        rw [if_neg (hOther _ (by decide)), if_neg (hOther _ (by decide)),
          if_neg (hOther _ (by decide)), if_neg (hOther _ (by decide)),
          if_neg (hOther _ (by decide)), if_neg (hOther _ (by decide)),
          if_pos hStart, hStop, hSlice]
      exact .cons hNext (by simp) hLexes

theorem Expr.canonical_head
    (hLexable : e.Lexable)
    (tail : List UInt8) :
    (e.toCanonical ++ tail).head? ≠ some (byte '*') := by
  cases e with
  | Ident name =>
      cases name with
      | nil => cases hLexable
      | cons b more =>
          have hName : isLexable (b :: more) = true := hLexable
          rw [isLexable, Bool.and_eq_true] at hName
          intro hEq
          have hByte : b = byte '*' := Option.some.inj hEq
          rw [hByte] at hName
          exact absurd hName.1 (by decide)
  | Not e =>
      intro hEq
      exact absurd (Option.some.inj hEq) (by decide)
  | And a b =>
      intro hEq
      exact absurd (Option.some.inj hEq) (by decide)
  | Or a b =>
      intro hEq
      exact absurd (Option.some.inj hEq) (by decide)

theorem endsIdent_cons
    (hByte : isIdentContinue b = false)
    (tail : List UInt8) :
    EndsIdent (b :: tail) := by
  intro c hSome
  cases hSome
  exact hByte

/-
  Wherever the text stands in an input, the tokens are what the
  tokenizer reads there.
-/
def Spells
    (text : List UInt8)
    (spelled : List Tok) :
    Prop :=
  ∀ ⦃input tail : List UInt8⦄ ⦃pos : Nat⦄ ⦃toks : List Tok⦄,
    input.drop pos = text ++ tail →
    EndsIdent tail →
    Lexes input (pos + text.length) toks →
    Lexes input pos (spelled ++ toks)

/- An operator between its blanks. -/
def SpellsBetween
    (text : List UInt8)
    (tok : Tok) :
    Prop :=
  ∀ ⦃input tail : List UInt8⦄ ⦃pos : Nat⦄ ⦃toks : List Tok⦄,
    input.drop pos = text ++ tail →
    Lexes input (pos + text.length) toks →
    Lexes input pos (tok :: toks)

theorem spellsBetween_and :
    SpellsBetween (ascii " && ") .And := by
  intro input tail pos toks hDrop hLexes
  have hOperator := drop_step [byte ' '] hDrop
  have hBlank := drop_step [byte '&', byte '&'] hOperator
  exact .blank hDrop (.ampersands hOperator (.blank hBlank hLexes))

theorem spellsBetween_or :
    SpellsBetween (ascii " || ") .Or := by
  intro input tail pos toks hDrop hLexes
  have hOperator := drop_step [byte ' '] hDrop
  have hBlank := drop_step [byte '|', byte '|'] hOperator
  exact .blank hDrop (.bars hOperator (.blank hBlank hLexes))

theorem Spells.bang
    {text : List UInt8}
    {spelled : List Tok}
    (hSpells : Spells text spelled) :
    Spells (byte '!' :: text) (.Not :: spelled) := by
  intro input tail pos toks hDrop hEnds hLexes
  have hText := drop_step [byte '!'] hDrop
  refine .bang hDrop (hSpells hText hEnds ?_)
  rw [Nat.add_assoc, Nat.add_comm 1 text.length]
  exact hLexes

theorem Spells.between
    {left right operator : List UInt8}
    {leftToks rightToks : List Tok}
    (hLeft : Spells left leftToks)
    (hOperator : SpellsBetween (byte ' ' :: operator) tok)
    (hRight : Spells right rightToks) :
    Spells (left ++ byte ' ' :: operator ++ right)
      (leftToks ++ tok :: rightToks) := by
  intro input tail pos toks hDrop hEnds hLexes
  have hDropLeft : input.drop pos =
      left ++ (byte ' ' :: operator ++ (right ++ tail)) := by
    rw [hDrop]
    simp
  have hDropOperator := drop_step left hDropLeft
  have hDropRight := drop_step (byte ' ' :: operator) hDropOperator
  rw [List.append_assoc]
  refine hLeft hDropLeft (endsIdent_cons (by decide) _) ?_
  refine hOperator hDropOperator ?_
  refine hRight hDropRight hEnds ?_
  rw [List.length_append, List.length_append] at hLexes
  rw [Nat.add_assoc, Nat.add_assoc]
  rw [Nat.add_assoc] at hLexes
  exact hLexes

theorem Spells.paren
    {text : List UInt8}
    {spelled : List Tok}
    (hSpells : Spells text spelled)
    (hStar : ∀ tail, (text ++ tail).head? ≠ some (byte '*')) :
    Spells (ascii "(" ++ text ++ ascii ")")
      (.LParen :: spelled ++ [.RParen]) := by
  intro input tail pos toks hDrop hEnds hLexes
  have hDropOpen : input.drop pos =
      byte '(' :: (text ++ (byte ')' :: tail)) := by
    rw [hDrop]
    simp [ascii]
  have hDropText := drop_step [byte '('] hDropOpen
  have hDropClose := drop_step text hDropText
  rw [List.append_assoc]
  refine .openParen hDropOpen (hStar _) ?_
  refine hSpells hDropText (endsIdent_cons (by decide) _) ?_
  refine .closeParen hDropClose ?_
  rw [List.length_append, List.length_append] at hLexes
  rw [Nat.add_assoc pos, Nat.add_assoc pos]
  exact hLexes

theorem Expr.spells_canonical
    (hLexable : e.Lexable) :
    Spells e.toCanonical e.tokens := by
  induction e with
  | Ident name =>
      intro input tail pos toks hDrop hEnds hLexes
      exact .identifier hLexable hDrop hEnds hLexes
  | Not e ih =>
      have hBang : Spells (byte '!' :: e.toCanonical) _ := (ih hLexable).bang
      refine hBang.paren ?_
      intro tail hEq
      exact absurd (Option.some.inj hEq) (by decide)
  | And a b ihA ihB =>
      have hBoth := (ihA hLexable.1).between spellsBetween_and
        (ihB hLexable.2)
      have hParen := hBoth.paren ?_
      · rw [toCanonical, List.append_assoc (ascii "("), List.append_assoc (ascii "(")]
        exact hParen
      · intro tail
        rw [List.append_assoc, List.append_assoc]
        exact canonical_head hLexable.1 _
  | Or a b ihA ihB =>
      have hBoth := (ihA hLexable.1).between spellsBetween_or
        (ihB hLexable.2)
      have hParen := hBoth.paren ?_
      · rw [toCanonical, List.append_assoc (ascii "("), List.append_assoc (ascii "(")]
        exact hParen
      · intro tail
        rw [List.append_assoc, List.append_assoc]
        exact canonical_head hLexable.1 _

theorem Expr.lexes_canonical
    (hLexable : e.Lexable) :
    Lexes e.toCanonical 0 e.tokens := by
  have hDrop : e.toCanonical.drop 0 = e.toCanonical ++ [] := by
    rw [List.drop_zero, List.append_nil]
  have hEnds : EndsIdent [] := by
    intro b hSome
    cases hSome
  have hEof : Lexes e.toCanonical (0 + e.toCanonical.length) [] := by
    rw [Nat.zero_add]
    have hNext : nextToken e.toCanonical e.toCanonical.length =
        .ok (.Eof, e.toCanonical.length, e.toCanonical.length) := by
      unfold nextToken
      rw [scanWhile_end, List.drop_length]
      dsimp only [List.takeWhile_nil, List.length_nil, Nat.add_zero]
      rw [List.getElem?_length]
    exact .eof hNext
  have hLexes := spells_canonical hLexable hDrop hEnds hEof
  rw [List.append_nil] at hLexes
  exact hLexes

end Printing

/-
  The canonical printing is read back, and what the parser accepts has
  the value that the grammar gives its tokens, and no other.
-/
theorem if_expr_round_trip_and_value :
    (∀ e : Expr, e.Lexable → parseIfExpr e.toCanonical = .ok e) ∧
    (∀ (input : List UInt8) (e : Expr), parseIfExpr input = .ok e →
      ∃ toks, Lexes input 0 toks ∧
        ∀ (lookup : List UInt8 → Bool) (v : Bool),
          HasValue lookup .disjunction toks v ↔ v = e.eval lookup) := by
  constructor
  · intro e hLexable
    have hDerives : Derives .disjunction e.tokens e :=
      .ofConjunction (.ofNegation (.ofPrimary e.derives_tokens))
    exact parseIfExpr_of_derives (Expr.lexes_canonical hLexable) hDerives
  · intro input e hParse
    rcases derives_of_parseIfExpr hParse with ⟨toks, hLexes, hDerives⟩
    refine ⟨toks, hLexes, ?_⟩
    intro lookup v
    constructor
    · intro hValue
      rcases hValue.derives with ⟨other, hOther, hEval⟩
      have hSame := parseIfExpr_of_derives hLexes hOther
      rw [hParse] at hSame
      cases hSame
      exact hEval.symm
    · intro hEq
      rw [hEq]
      exact hDerives.hasValue

theorem if_expr_round_trip_and_value_mixed :
    parseIfExpr (Expr.Or (.Ident (ascii "A"))
        (.Not (.And (.Ident (ascii "B'")) (.Ident (ascii "_c"))))).toCanonical =
      .ok (Expr.Or (.Ident (ascii "A"))
        (.Not (.And (.Ident (ascii "B'")) (.Ident (ascii "_c"))))) ∧
    ∃ toks, Lexes (ascii "A || !B && C") 0 toks ∧
      ∀ (lookup : List UInt8 → Bool) (v : Bool),
        HasValue lookup .disjunction toks v ↔
          v = (lookup (ascii "A") || (!lookup (ascii "B") && lookup (ascii "C"))) := by
  constructor
  · apply if_expr_round_trip_and_value.1
    have hNames : Expr.isLexable (ascii "A") = true ∧
        Expr.isLexable (ascii "B'") = true ∧
        Expr.isLexable (ascii "_c") = true := by
      decide
    exact hNames
  · have hParse : parseIfExpr (ascii "A || !B && C") =
        .ok (.Or (.Ident (ascii "A"))
          (.And (.Not (.Ident (ascii "B"))) (.Ident (ascii "C")))) := by
      decide
    exact if_expr_round_trip_and_value.2 _ _ hParse

end Directives

end Borzoi
