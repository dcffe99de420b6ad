import Mathlib.Tactic.Common
import Mathlib.Algebra.GroupWithZero.Nat

/-
  Which clauses of a match some value can reach.

  A clause is reached when its pattern is useful behind the patterns of
  the clauses before it.  The recursion takes fuel: what is left of a
  column never outweighs what was taken apart.
-/

namespace Borzoi

namespace MatchReach

/- Constants of different kinds belong to different types. -/
inductive ConstKind
  | Int
  | Str
  | Char
  deriving DecidableEq, Repr

/- A constructor.  `U` names a union. -/
inductive Ctor
    (U : Type)
  | Unit
  | Tuple (n : Nat)
  | Case (union : U) (index siblings : Nat)
  | Bool (b : Bool)
  | Const (kind : ConstKind) (value : Option String)
  deriving DecidableEq, Repr

inductive ClausePat
    (U : Type)
  | Any
  | Ctor (c : Ctor U) (args : List (ClausePat U))

variable {U : Type}

/- `row[0] == ClausePat::Any`. -/
def ClausePat.isAny
    (p : ClausePat U) :
    Bool :=
  match p with
  | .Any => true
  | .Ctor _ _ => false

/- `arity_of`. -/
def arityOf
    (c : Ctor U)
    (args : List (ClausePat U)) :
    Nat :=
  match c with
  | .Tuple n => n
  | .Case _ _ _ => args.length
  | .Unit | .Bool _ | .Const _ _ => 0

/- `same_type`. -/
def sameType
    [DecidableEq U]
    (c d : Ctor U) :
    Bool :=
  match c, d with
  | .Unit, .Unit => true
  | .Bool _, .Bool _ => true
  | .Tuple a, .Tuple b => a == b
  | .Case a _ _, .Case b _ _ => decide (a = b)
  | .Const a _, .Const b _ => decide (a = b)
  | _, _ => false

/- `may_equal`. -/
def mayEqual
    (c d : Ctor U) :
    Bool :=
  match c, d with
  | .Unit, .Unit => true
  | .Tuple a, .Tuple b => a == b
  | .Case _ a _, .Case _ b _ => a == b
  | .Bool a, .Bool b => a == b
  | .Const _ (some a), .Const _ (some b) => a == b
  | .Const _ _, .Const _ _ => true
  | _, _ => false

/- Whether a constructor is case `i` of a union. -/
def isCase
    (c : Ctor U)
    (i : Nat) :
    Bool :=
  match c with
  | .Case _ index _ => index == i
  | _ => false

/- How the recursion stops without an answer. -/
inductive Fault
  | OutOfFuel
  | IndexOutOfBounds
  deriving DecidableEq, Repr

section Usefulness

variable [DecidableEq U]

/- A row in front of those still to come. -/
def pushRow
    (row : List (ClausePat U))
    (result : Except Fault (Option (List (List (ClausePat U))))) :
    Except Fault (Option (List (List (ClausePat U)))) :=
  match result with
  | .ok (some out) => .ok (some (row :: out))
  | stop => stop

/- `specialise`. -/
def specialise
    (rows : List (List (ClausePat U)))
    (c : Ctor U)
    (arity : Nat) :
    Except Fault (Option (List (List (ClausePat U)))) :=
  match rows with
  | [] => .ok (some [])
  | [] :: _ => .error .IndexOutOfBounds
  | (.Any :: rest) :: rows =>
      pushRow (List.replicate arity .Any ++ rest)
        (specialise rows c arity)
  | (.Ctor d args :: rest) :: rows =>
      if sameType c d then
        if mayEqual c d then
          if args.length ≠ arity then
            .ok none
          else
            pushRow (args ++ rest) (specialise rows c arity)
        else
          specialise rows c arity
      else
        .ok none

/-
  The constructors at the head of a column, each once with its arity,
  behind those found so far.  `none` when they are of several types.
-/
def headCtors
    (rows : List (List (ClausePat U)))
    (sigma : List (Ctor U × Nat)) :
    Except Fault (Option (List (Ctor U × Nat))) :=
  match rows with
  | [] => .ok (some sigma)
  | [] :: _ => .error .IndexOutOfBounds
  | (.Any :: _) :: rows => headCtors rows sigma
  | (.Ctor c args :: _) :: rows =>
      if sigma.head?.any fun first => !sameType first.1 c then
        .ok none
      else if sigma.any fun entry => entry.1 = c then
        headCtors rows sigma
      else
        headCtors rows (sigma ++ [(c, arityOf c args)])

/- `complete`. -/
def complete
    (sigma : List (Ctor U × Nat)) :
    Bool :=
  match sigma.head? with
  | none => false
  | some (first, _) =>
      match first with
      | .Unit | .Tuple _ => true
      | .Bool _ => [true, false].all fun b =>
          sigma.any fun entry => entry.1 = .Bool b
      | .Case _ _ siblings => (List.range siblings).all fun i =>
          sigma.any fun entry => isCase entry.1 i
      | .Const _ _ => false

/- The rows whose head matches everything, without their heads. -/
def defaultRows
    (rows : List (List (ClausePat U))) :
    List (List (ClausePat U)) :=
  (rows.filter fun row => row.head?.any ClausePat.isAny).map List.tail

/- `Iterator::any` with a test that may stop. -/
def anyOk
    {α : Type}
    (test : α → Except Fault Bool) :
    List α → Except Fault Bool
  | [] => .ok false
  | x :: xs =>
      match test x with
      | .ok true => .ok true
      | .ok false => anyOk test xs
      | .error e => .error e

/- `useful`. -/
def usefulFor
    (fuel : Nat)
    (rows : List (List (ClausePat U)))
    (q : List (ClausePat U)) :
    Except Fault Bool :=
  match fuel with
  | 0 => .error .OutOfFuel
  | fuel + 1 =>
      match q with
      | [] => .ok rows.isEmpty
      | .Ctor c args :: rest =>
          match specialise rows c args.length with
          | .error e => .error e
          | .ok none => .ok false
          | .ok (some rows) => usefulFor fuel rows (args ++ rest)
      | .Any :: rest =>
          match headCtors rows [] with
          | .error e => .error e
          | .ok none => .ok false
          | .ok (some sigma) =>
              if complete sigma then
                anyOk (fun entry : Ctor U × Nat =>
                  match specialise rows entry.1 entry.2 with
                  | .error e => .error e
                  | .ok none => .ok false
                  | .ok (some rows) => usefulFor fuel rows
                      (List.replicate entry.2 .Any ++ rest)) sigma
              else
                usefulFor fuel (defaultRows rows) rest

/- `provably_reachable`. -/
def provablyReachableFor
    (fuel : Nat)
    (earlier : List (ClausePat U))
    (clause : ClausePat U) :
    Except Fault Bool :=
  usefulFor fuel (earlier.map fun p => [p]) [clause]

end Usefulness

/- What a pattern adds to the work.  A name or `_` adds nothing. -/
mutual
def ClausePat.weight : ClausePat U → Nat
  | .Any => 0
  | .Ctor _ args => args.length + 1 + rowWeight args

def rowWeight : List (ClausePat U) → Nat
  | [] => 0
  | p :: ps => p.weight + rowWeight ps
end

def matrixWeight
    (rows : List (List (ClausePat U))) :
    Nat :=
  (rows.map rowWeight).sum

@[simp]
theorem rowWeight_append
    (ps qs : List (ClausePat U)) :
    rowWeight (ps ++ qs) = rowWeight ps + rowWeight qs := by
  induction ps with
  | nil =>
      simp only [List.nil_append, rowWeight, Nat.zero_add]
  | cons p ps ih =>
      simp only [List.cons_append, rowWeight, ih, Nat.add_assoc]

@[simp]
theorem rowWeight_replicate
    (n : Nat) :
    rowWeight (List.replicate n (.Any : ClausePat U)) = 0 := by
  induction n with
  | zero =>
      rfl
  | succ n ih =>
      rw [List.replicate_succ, rowWeight, ih]
      rfl

@[simp]
theorem matrixWeight_cons
    (row : List (ClausePat U))
    (rows : List (List (ClausePat U))) :
    matrixWeight (row :: rows) = rowWeight row + matrixWeight rows := by
  unfold matrixWeight
  rw [List.map_cons, List.sum_cons]

theorem matrixWeight_defaultRows
    (rows : List (List (ClausePat U))) :
    matrixWeight (defaultRows rows) ≤ matrixWeight rows := by
  induction rows with
  | nil =>
      exact Nat.le_refl _
  | cons row rows ih =>
      unfold defaultRows at ih ⊢
      rw [List.filter_cons]
      split
      · have hTail : rowWeight row.tail ≤ rowWeight row := by
          cases row with
          | nil =>
              exact Nat.le_refl _
          | cons p ps =>
              exact Nat.le_add_left _ _
        rw [List.map_cons, matrixWeight_cons, matrixWeight_cons]
        omega
      · rw [matrixWeight_cons]
        omega

/- Every row has the same width. -/
def Aligned
    (n : Nat)
    (rows : List (List (ClausePat U))) :
    Prop :=
  ∀ row ∈ rows, row.length = n

section Widths

variable {c : Ctor U} {n arity : Nat}
variable {rows out : List (List (ClausePat U))}

variable {result : Except Fault (Option (List (List (ClausePat U))))}
variable {row : List (ClausePat U)}

theorem pushRow_eq
    (hPush : pushRow row result = .ok (some out)) :
    ∃ out', result = .ok (some out') ∧ out = row :: out' := by
  unfold pushRow at hPush
  split at hPush
  · next out' =>
      cases hPush
      exact ⟨out', rfl, rfl⟩
  · next hNot =>
      exact absurd hPush (hNot out)

theorem pushRow_ok
    (hOk : ∃ r, result = .ok r) :
    ∃ r, pushRow row result = .ok r := by
  rcases hOk with ⟨r, rfl⟩
  cases r with
  | none =>
      exact ⟨none, rfl⟩
  | some out =>
      exact ⟨some (row :: out), rfl⟩

variable [DecidableEq U]

theorem specialise_ok
    (hAligned : Aligned (n + 1) rows) :
    ∃ r, specialise rows c arity = .ok r := by
  fun_induction specialise rows c arity with
  | case1 =>
      exact ⟨_, rfl⟩
  | case2 =>
      cases hAligned [] List.mem_cons_self
  | case3 rest rows ih =>
      apply pushRow_ok
      exact ih fun row hMem => hAligned row (List.mem_cons_of_mem _ hMem)
  | case4 =>
      exact ⟨_, rfl⟩
  | case5 d args rest rows hSame hMay hArity ih =>
      apply pushRow_ok
      exact ih fun row hMem => hAligned row (List.mem_cons_of_mem _ hMem)
  | case6 d args rest rows hSame hMay ih =>
      exact ih fun row hMem => hAligned row (List.mem_cons_of_mem _ hMem)
  | case7 =>
      exact ⟨_, rfl⟩

theorem specialise_aligned
    (hAligned : Aligned (n + 1) rows)
    (hOut : specialise rows c arity = .ok (some out)) :
    Aligned (arity + n) out := by
  fun_induction specialise rows c arity generalizing out with
  | case1 =>
      cases hOut
      intro row hMem
      cases hMem
  | case2 =>
      cases hOut
  | case3 rest rows ih =>
      rcases pushRow_eq hOut with ⟨out', hRest, rfl⟩
      intro row hMem
      rcases List.mem_cons.1 hMem with rfl | hIn
      · have hRow := hAligned _ List.mem_cons_self
        rw [List.length_cons] at hRow
        rw [List.length_append, List.length_replicate]
        omega
      · exact ih (fun row hMem => hAligned row
          (List.mem_cons_of_mem _ hMem)) hRest row hIn
  | case4 =>
      cases hOut
  | case5 d args rest rows hSame hMay hArity ih =>
      rcases pushRow_eq hOut with ⟨out', hRest, rfl⟩
      intro row hMem
      rcases List.mem_cons.1 hMem with rfl | hIn
      · have hRow := hAligned _ List.mem_cons_self
        rw [List.length_cons] at hRow
        rw [List.length_append]
        omega
      · exact ih (fun row hMem => hAligned row
          (List.mem_cons_of_mem _ hMem)) hRest row hIn
  | case6 d args rest rows hSame hMay ih =>
      exact ih (fun row hMem => hAligned row
        (List.mem_cons_of_mem _ hMem)) hOut
  | case7 =>
      cases hOut

omit [DecidableEq U] in
theorem mayEqual_self
    (c : Ctor U) :
    mayEqual c c = true := by
  cases c with
  | Case union index siblings =>
      exact beq_self_eq_true index
  | Const kind value =>
      cases value with
      | none =>
          rfl
      | some a =>
          exact beq_self_eq_true a
  | Tuple n =>
      exact beq_self_eq_true n
  | Bool b =>
      exact beq_self_eq_true b
  | Unit =>
      rfl

theorem specialise_weight
    (hOut : specialise rows c arity = .ok (some out)) :
    matrixWeight out ≤ matrixWeight rows := by
  fun_induction specialise rows c arity generalizing out with
  | case1 =>
      cases hOut
      exact Nat.le_refl _
  | case2 =>
      cases hOut
  | case3 rest rows ih =>
      rcases pushRow_eq hOut with ⟨out', hRest, rfl⟩
      have hLe := ih hRest
      simp only [matrixWeight_cons, rowWeight_append,
        rowWeight_replicate, rowWeight, ClausePat.weight]
      omega
  | case4 =>
      cases hOut
  | case5 d args rest rows hSame hMay hArity ih =>
      rcases pushRow_eq hOut with ⟨out', hRest, rfl⟩
      have hLe := ih hRest
      simp only [matrixWeight_cons, rowWeight_append, rowWeight,
        ClausePat.weight]
      omega
  | case6 d args rest rows hSame hMay ih =>
      have hLe := ih hOut
      rw [matrixWeight_cons]
      omega
  | case7 =>
      cases hOut

/- A row that starts with the constructor loses it. -/
theorem specialise_weight_lt
    {args rest : List (ClausePat U)}
    (hRow : (.Ctor c args :: rest) ∈ rows)
    (hOut : specialise rows c arity = .ok (some out)) :
    matrixWeight out + arity + 1 ≤ matrixWeight rows := by
  fun_induction specialise rows c arity generalizing out with
  | case1 =>
      cases hRow
  | case2 =>
      cases hOut
  | case3 rest' rows ih =>
      rcases pushRow_eq hOut with ⟨out', hRest, rfl⟩
      rcases List.mem_cons.1 hRow with hHead | hIn
      · cases hHead
      · have hLe := ih hIn hRest
        simp only [matrixWeight_cons, rowWeight_append,
          rowWeight_replicate, rowWeight, ClausePat.weight]
        omega
  | case4 =>
      cases hOut
  | case5 d args' rest' rows hSame hMay hArity ih =>
      rcases pushRow_eq hOut with ⟨out', hRest, rfl⟩
      have hLe := specialise_weight hRest
      simp only [matrixWeight_cons, rowWeight_append, rowWeight,
        ClausePat.weight]
      omega
  | case6 d args' rest' rows hSame hMay ih =>
      rcases List.mem_cons.1 hRow with hHead | hIn
      · cases hHead
        exact absurd (mayEqual_self c) hMay
      · have hLe := ih hIn hOut
        rw [matrixWeight_cons]
        omega
  | case7 =>
      cases hOut

end Widths

------------------------------------------------------------
-- Columns
------------------------------------------------------------

section Columns

variable [DecidableEq U] {n : Nat} {rows : List (List (ClausePat U))}
variable {sigma found : List (Ctor U × Nat)}

theorem headCtors_ok
    (hAligned : Aligned (n + 1) rows) :
    ∃ r, headCtors rows sigma = .ok r := by
  fun_induction headCtors rows sigma with
  | case1 =>
      exact ⟨_, rfl⟩
  | case2 =>
      cases hAligned [] List.mem_cons_self
  | case3 sigma rest rows ih =>
      exact ih fun row hMem => hAligned row (List.mem_cons_of_mem _ hMem)
  | case4 =>
      exact ⟨_, rfl⟩
  | case5 sigma c args rest rows hSame hOld ih =>
      exact ih fun row hMem => hAligned row (List.mem_cons_of_mem _ hMem)
  | case6 sigma c args rest rows hSame hNew ih =>
      exact ih fun row hMem => hAligned row (List.mem_cons_of_mem _ hMem)

/- Every entry heads a row. -/
theorem headCtors_mem
    (hFound : headCtors rows sigma = .ok (some found))
    {c : Ctor U}
    {arity : Nat}
    (hMem : (c, arity) ∈ found) :
    (c, arity) ∈ sigma ∨ ∃ args rest,
      (.Ctor c args :: rest) ∈ rows ∧ arity = arityOf c args := by
  fun_induction headCtors rows sigma with
  | case1 sigma =>
      cases hFound
      exact Or.inl hMem
  | case2 =>
      cases hFound
  | case3 sigma rest rows ih =>
      rcases ih hFound with hOld | ⟨args, rest', hRow, hArity⟩
      · exact Or.inl hOld
      · exact Or.inr ⟨args, rest', List.mem_cons_of_mem _ hRow, hArity⟩
  | case4 =>
      cases hFound
  | case5 sigma d args' rest rows hSame hOld ih =>
      rcases ih hFound with hOld | ⟨args, rest', hRow, hArity⟩
      · exact Or.inl hOld
      · exact Or.inr ⟨args, rest', List.mem_cons_of_mem _ hRow, hArity⟩
  | case6 sigma d args' rest rows hSame hNew ih =>
      rcases ih hFound with hOld | ⟨args, rest', hRow, hArity⟩
      · rcases List.mem_append.1 hOld with hOld | hHere
        · exact Or.inl hOld
        · cases List.mem_singleton.1 hHere
          exact Or.inr ⟨args', rest, List.mem_cons_self, rfl⟩
      · exact Or.inr ⟨args, rest', List.mem_cons_of_mem _ hRow, hArity⟩

end Columns

section Termination

variable [DecidableEq U]

variable {b : Bool} {q : List (ClausePat U)} {rows : List (List (ClausePat U))}
variable {α : Type} {xs : List α}

theorem anyOk_ok
    {test : α → Except Fault Bool}
    (hAll : ∀ x ∈ xs, ∃ b, test x = .ok b) :
    ∃ b, anyOk test xs = .ok b := by
  induction xs with
  | nil =>
      exact ⟨false, rfl⟩
  | cons x xs ih =>
      rcases hAll x List.mem_cons_self with ⟨b, hTest⟩
      unfold anyOk
      rw [hTest]
      cases b with
      | true =>
          exact ⟨true, rfl⟩
      | false =>
          exact ih fun y hMem => hAll y (List.mem_cons_of_mem _ hMem)

theorem anyOk_congr
    {test test' : α → Except Fault Bool}
    (hTests : ∀ x ∈ xs, ∀ b, test x = .ok b → test' x = .ok b)
    (hAny : anyOk test xs = .ok b) :
    anyOk test' xs = .ok b := by
  induction xs with
  | nil =>
      exact hAny
  | cons x xs ih =>
      unfold anyOk at hAny ⊢
      cases hTest : test x with
      | error e =>
          rw [hTest] at hAny
          cases hAny
      | ok r =>
          rw [hTest] at hAny
          rw [hTests x List.mem_cons_self r hTest]
          cases r with
          | true =>
              exact hAny
          | false =>
              exact ih (fun y hMem => hTests y
                (List.mem_cons_of_mem _ hMem)) hAny

/- More fuel gives the same answer. -/
theorem usefulFor_mono
    {m n : Nat}
    (hUseful : usefulFor n rows q = .ok b)
    (hLe : n ≤ m) :
    usefulFor m rows q = .ok b := by
  induction n generalizing m rows q b with
  | zero =>
      cases hUseful
  | succ n ih =>
      cases m with
      | zero =>
          omega
      | succ m =>
          have hMore : n ≤ m := Nat.le_of_succ_le_succ hLe
          cases q with
          | nil =>
              exact hUseful
          | cons head rest =>
              cases head with
              | Ctor c args =>
                  unfold usefulFor at hUseful ⊢
                  dsimp only at hUseful ⊢
                  split at hUseful
                  · cases hUseful
                  · exact hUseful
                  · exact ih hUseful hMore
              | Any =>
                  unfold usefulFor at hUseful ⊢
                  dsimp only at hUseful ⊢
                  split at hUseful
                  · cases hUseful
                  · exact hUseful
                  · split at hUseful
                    · next hComplete =>
                        rw [if_pos hComplete]
                        apply anyOk_congr _ hUseful
                        intro entry hMem r hTest
                        split at hTest
                        · cases hTest
                        · exact hTest
                        · exact ih hTest hMore
                    · next hOpen =>
                        rw [if_neg hOpen]
                        exact ih hUseful hMore

omit [DecidableEq U] in
theorem defaultRows_aligned
    {n : Nat}
    (hAligned : Aligned (n + 1) rows) :
    Aligned n (defaultRows rows) := by
  intro row hMem
  rcases List.mem_map.1 hMem with ⟨whole, hIn, rfl⟩
  rw [List.length_tail, hAligned whole (List.mem_filter.1 hIn).1]
  rfl

/- The recursion ends, whatever the patterns are. -/
theorem usefulFor_terminates
    {fuel : Nat}
    (hAligned : Aligned q.length rows)
    (hFuel : matrixWeight rows + rowWeight q + q.length < fuel) :
    ∃ b, usefulFor fuel rows q = .ok b := by
  induction fuel generalizing rows q with
  | zero =>
      omega
  | succ fuel ih =>
      cases q with
      | nil =>
          exact ⟨_, rfl⟩
      | cons head rest =>
          rw [List.length_cons] at hAligned hFuel
          rw [rowWeight] at hFuel
          cases head with
          | Ctor c args =>
              rw [ClausePat.weight] at hFuel
              unfold usefulFor
              dsimp only
              rcases @specialise_ok _ c _ args.length rows _ hAligned
                with ⟨r, hSpecial⟩
              rw [hSpecial]
              cases r with
              | none =>
                  exact ⟨false, rfl⟩
              | some out =>
                  have hWeight := specialise_weight hSpecial
                  apply ih
                  · rw [List.length_append]
                    exact specialise_aligned hAligned hSpecial
                  · rw [rowWeight_append, List.length_append]
                    omega
          | Any =>
              rw [ClausePat.weight] at hFuel
              unfold usefulFor
              dsimp only
              rcases @headCtors_ok _ _ _ rows [] hAligned with
                ⟨r, hHeads⟩
              rw [hHeads]
              cases r with
              | none =>
                  exact ⟨false, rfl⟩
              | some sigma =>
                  dsimp only
                  split
                  · apply anyOk_ok
                    intro entry hMem
                    rcases entry with ⟨c, arity⟩
                    rcases @specialise_ok _ c _ arity rows _ hAligned
                      with ⟨r, hSpecial⟩
                    rw [hSpecial]
                    cases r with
                    | none =>
                        exact ⟨false, rfl⟩
                    | some out =>
                        rcases headCtors_mem hHeads hMem with
                          hNone | ⟨args, rest', hRow, -⟩
                        · cases hNone
                        · have hWeight :=
                            specialise_weight_lt hRow hSpecial
                          apply ih
                          · rw [List.length_append,
                              List.length_replicate]
                            exact specialise_aligned hAligned hSpecial
                          · rw [rowWeight_append, rowWeight_replicate,
                              List.length_append, List.length_replicate]
                            omega
                  · have hWeight := matrixWeight_defaultRows rows
                    apply ih (defaultRows_aligned hAligned)
                    omega

end Termination

end MatchReach

end Borzoi
