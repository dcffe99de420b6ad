import Borzoi.Program.StepReader

/-
  Programs that refuse or panic.

  A run ends with a value, with an error of its own, or with a panic:
  a slice or an index out of range, an overflow, a broken expectation,
  or more rounds than it is given.  A run is safe when it does not
  panic.
-/

namespace Borzoi

namespace Program

inductive Panic
  | SliceOutOfRange
  | Overflow
  | Expectation
  | OutOfRounds
  deriving DecidableEq, Repr

inductive Fail (ε : Type)
  | refused (e : ε)
  | panic (p : Panic)
  deriving DecidableEq, Repr

abbrev Run (ε α : Type) := Except (Fail ε) α

variable {σ ε α β : Type}

def refuseWith
    (e : ε) :
    Run ε α :=
  .error (.refused e)

/- `ok_or`. -/
def orFail
    (e : ε)
    (o : Option α) :
    Run ε α :=
  match o with
  | some x => .ok x
  | none => .error (.refused e)

def orPanic
    (p : Panic)
    (o : Option α) :
    Run ε α :=
  match o with
  | some x => .ok x
  | none => .error (.panic p)

/- A run between reads. -/
def lift
    (run : Run ε α) :
    Step σ (Fail ε) α :=
  fun tape => run.map fun x => (x, tape)

/- `checked_add` and `checked_mul` below a largest value. -/
def checkedAdd
    (largest a b : Nat) :
    Option Nat :=
  if a + b ≤ largest then some (a + b) else none

def checkedMul
    (largest a b : Nat) :
    Option Nat :=
  if a * b ≤ largest then some (a * b) else none

def checkedSub
    (a b : Nat) :
    Option Nat :=
  if b ≤ a then some (a - b) else none

/- The plain operators, which panic where they overflow. -/
def add
    (largest a b : Nat) :
    Run ε Nat :=
  orPanic .Overflow (checkedAdd largest a b)

def sub
    (a b : Nat) :
    Run ε Nat :=
  orPanic .Overflow (checkedSub a b)

/- A shift by less than the number of bits. -/
def shiftBy
    (bits n : Nat) :
    Run ε Nat :=
  orPanic .Overflow (if n < bits then some n else none)

/- `get(start..stop)`. -/
def slice
    (xs : List σ)
    (start stop : Nat) :
    Option (List σ) :=
  if start ≤ stop ∧ stop ≤ xs.length then
    some ((xs.drop start).take (stop - start))
  else
    none

/- `get(start..)`. -/
def sliceFrom
    (xs : List σ)
    (start : Nat) :
    Option (List σ) :=
  if start ≤ xs.length then some (xs.drop start) else none

/- `[start..stop]`. -/
def sliceAt
    (xs : List σ)
    (start stop : Nat) :
    Run ε (List σ) :=
  orPanic .SliceOutOfRange (slice xs start stop)

/- The part stands in the whole, from the start on. -/
def LiesAt
    (part whole : List σ)
    (start : Nat) :
    Prop :=
  start + part.length ≤ whole.length ∧
    part = (whole.drop start).take part.length

variable {part xs : List σ} {a b c largest start stop : Nat} {o : Option α}
variable {run : Run ε α} {p : Step σ (Fail ε) α} {x : α}
variable {f : α → Step σ (Fail ε) β}

theorem slice_lies
    (hSlice : slice xs start stop = some part) :
    LiesAt part xs start ∧ part.length = stop - start := by
  unfold slice at hSlice
  split at hSlice
  case isTrue hRange =>
    cases hSlice
    have hLength : ((xs.drop start).take (stop - start)).length =
        stop - start := by
      rw [List.length_take, List.length_drop]
      omega
    refine ⟨⟨?_, ?_⟩, hLength⟩
    · omega
    · rw [hLength]
  case isFalse => cases hSlice

theorem slice_some
    (hStart : start ≤ stop)
    (hStop : stop ≤ xs.length) :
    slice xs start stop = some ((xs.drop start).take (stop - start)) :=
  if_pos ⟨hStart, hStop⟩

theorem sliceFrom_lies
    (hSlice : sliceFrom xs start = some part) :
    LiesAt part xs start := by
  unfold sliceFrom at hSlice
  split at hSlice
  case isTrue hRange =>
    cases hSlice
    refine ⟨?_, ?_⟩
    · rw [List.length_drop]
      omega
    · rw [List.take_length]
  case isFalse => cases hSlice

theorem LiesAt.trans
    {part middle whole : List σ}
    {i j : Nat}
    (hInner : LiesAt part middle i)
    (hOuter : LiesAt middle whole j) :
    LiesAt part whole (j + i) := by
  rcases hInner with ⟨hInnerLength, hInnerEq⟩
  rcases hOuter with ⟨hOuterLength, hOuterEq⟩
  refine ⟨by omega, ?_⟩
  conv_lhs => rw [hInnerEq, hOuterEq]
  rw [List.drop_take, List.drop_drop, List.take_take]
  congr 1
  omega

def Safe
    (run : Run ε α) :
    Prop :=
  ∀ p, run ≠ .error (.panic p)

theorem Safe.ok
    (x : α) :
    Safe (.ok x : Run ε α) := by
  intro p hPanic
  cases hPanic

theorem Safe.refused
    (e : ε) :
    Safe (refuseWith e : Run ε α) := by
  intro p hPanic
  cases hPanic

theorem Safe.orFail
    (e : ε)
    (o : Option α) :
    Safe (orFail e o) := by
  intro p hPanic
  cases o with
  | some x => cases hPanic
  | none => cases hPanic

/- The second part may use what the first part returned. -/
theorem Safe.bind
    {f : α → Run ε β}
    (hFirst : Safe run)
    (hSecond : ∀ x, run = .ok x → Safe (f x)) :
    Safe (run >>= f) := by
  intro p hPanic
  cases run with
  | error e =>
      cases hPanic
      exact hFirst p rfl
  | ok x => exact hSecond x rfl p hPanic

/- A run that returns. -/
theorem Safe.of_ok
    (hRun : run = .ok x) :
    Safe run := by
  rw [hRun]
  exact Safe.ok x

theorem bind_eq_ok
    {f : α → Run ε β}
    {y : β}
    (hRun : (run >>= f) = .ok y) :
    ∃ x, run = .ok x ∧ f x = .ok y := by
  cases run with
  | error e => cases hRun
  | ok x => exact ⟨x, rfl, hRun⟩

theorem orFail_eq_ok
    {e : ε}
    (hRun : orFail e o = .ok x) :
    o = some x := by
  cases o with
  | some y =>
      cases hRun
      rfl
  | none => cases hRun

theorem orPanic_eq_ok
    {p : Panic}
    (hRun : (orPanic p o : Run ε α) = .ok x) :
    o = some x := by
  cases o with
  | some y =>
      cases hRun
      rfl
  | none => cases hRun

theorem add_eq
    (hFits : a + b ≤ largest) :
    (add largest a b : Run ε Nat) = .ok (a + b) := by
  unfold add checkedAdd
  rw [if_pos hFits]
  rfl

theorem sub_eq
    (hFits : b ≤ a) :
    (sub a b : Run ε Nat) = .ok (a - b) := by
  unfold sub checkedSub
  rw [if_pos hFits]
  rfl

theorem shiftBy_eq
    {bits n : Nat}
    (hFits : n < bits) :
    (shiftBy bits n : Run ε Nat) = .ok n := by
  unfold shiftBy
  rw [if_pos hFits]
  rfl

theorem sliceAt_eq
    (hStart : start ≤ stop)
    (hStop : stop ≤ xs.length) :
    (sliceAt xs start stop : Run ε (List σ)) =
      .ok ((xs.drop start).take (stop - start)) := by
  unfold sliceAt
  rw [slice_some hStart hStop]
  rfl

theorem checkedAdd_eq_some
    (hSum : checkedAdd largest a b = some c) :
    c = a + b ∧ c ≤ largest := by
  unfold checkedAdd at hSum
  split at hSum
  case isTrue hFits =>
    cases hSum
    exact ⟨rfl, hFits⟩
  case isFalse => cases hSum

theorem checkedSub_eq_some
    (hDifference : checkedSub a b = some c) :
    c = a - b ∧ b ≤ a := by
  unfold checkedSub at hDifference
  split at hDifference
  case isTrue hFits =>
    cases hDifference
    exact ⟨rfl, hFits⟩
  case isFalse => cases hDifference

theorem checkedMul_eq_some
    (hProduct : checkedMul largest a b = some c) :
    c = a * b ∧ c ≤ largest := by
  unfold checkedMul at hProduct
  split at hProduct
  case isTrue hFits =>
    cases hProduct
    exact ⟨rfl, hFits⟩
  case isFalse => cases hProduct

/- A reader that panics on no tape. -/
def Steady
    (p : Step σ (Fail ε) α) :
    Prop :=
  ∀ tape, Safe (p tape)

theorem Steady.pure
    (x : α) :
    Steady (Pure.pure x : Step σ (Fail ε) α) :=
  fun tape => Safe.ok (x, tape)

theorem Steady.bind
    (hFirst : Steady p)
    (hSecond : ∀ x, Steady (f x)) :
    Steady (p >>= f) := by
  intro tape
  exact (hFirst tape).bind fun r _ => hSecond r.1 r.2

theorem Steady.lift
    (hSafe : Safe run) :
    Steady (lift run : Step σ (Fail ε) α) := by
  intro tape p hPanic
  cases run with
  | ok x => cases hPanic
  | error e =>
      cases hPanic
      exact hSafe p rfl

/- Between reads nothing moves. -/
theorem lift_eq_ok
    {tape tape' : Tape σ}
    (hRun : lift run tape = .ok (x, tape')) :
    run = .ok x ∧ tape' = tape := by
  cases run with
  | ok y =>
      cases hRun
      exact ⟨rfl, rfl⟩
  | error e => cases hRun

theorem Steady.times
    (hSteady : Steady p)
    (n : Nat) :
    Steady (Program.times p n) := by
  induction n with
  | zero => exact Steady.pure []
  | succ n ih =>
      apply hSteady.bind
      intro x
      apply ih.bind
      exact fun xs => Steady.pure (x :: xs)

/-
  A reader that stays on its tape and, where it returns, stands inside
  it.
-/
def Lands
    (p : Step σ (Fail ε) α) :
    Prop :=
  ∀ tape x tape', p tape = .ok (x, tape') →
    tape'.data = tape.data ∧ tape'.pos ≤ tape.data.length

theorem Lands.bind
    (hFirst : Lands p)
    (hSecond : ∀ x, Lands (f x)) :
    Lands (p >>= f) := by
  intro tape y tape' hRun
  rcases bind_eq_ok hRun with ⟨r, hFirstRun, hSecondRun⟩
  have hMiddle := hFirst tape r.1 r.2 hFirstRun
  have hEnd := hSecond r.1 r.2 y tape' hSecondRun
  rw [hMiddle.1] at hEnd
  exact hEnd

theorem Lands.map
    {g : α → β}
    (hLands : Lands p) :
    Lands (do let x ← p; return g x) := by
  intro tape y tape' hRun
  rcases bind_eq_ok hRun with ⟨r, hFirstRun, hSecondRun⟩
  cases hSecondRun
  exact hLands tape r.1 r.2 hFirstRun

end Program

end Borzoi
