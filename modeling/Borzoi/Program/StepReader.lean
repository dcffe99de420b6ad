import Mathlib.Data.List.Basic

/-
  Readers that step over a list of symbols.

  A tape is a list of symbols with a position.  A reader reads some
  symbols when it returns their value and moves past them, whatever
  follows.  Readers in sequence read what their parts read.
-/

namespace Borzoi

namespace Program

variable {σ ε α β : Type}

structure Tape (σ : Type) where
  data : List σ
  pos : Nat
  deriving DecidableEq, Repr

variable {tape : Tape σ}

namespace Tape

/- The symbols from the position on. -/
def unread
    (tape : Tape σ) :
    List σ :=
  tape.data.drop tape.pos

def skip
    (tape : Tape σ)
    (n : Nat) :
    Tape σ :=
  { tape with pos := tape.pos + n }

@[simp] theorem skip_skip
    (tape : Tape σ)
    (m n : Nat) :
    (tape.skip m).skip n = tape.skip (m + n) := by
  unfold skip
  rw [Nat.add_assoc]

theorem unread_skip
    (tape : Tape σ)
    (n : Nat) :
    (tape.skip n).unread = tape.unread.drop n := by
  unfold unread skip
  rw [List.drop_drop]

/- Behind symbols that were read stands the rest. -/
theorem unread_skip_append
    {front rest : List σ}
    (hUnread : tape.unread = front ++ rest) :
    (tape.skip front.length).unread = rest := by
  rw [unread_skip, hUnread, List.drop_left]

end Tape

/- A reader that may fail. -/
abbrev Step (σ ε : Type) := StateT (Tape σ) (Except ε)

/- The reader reads the symbols as the value. -/
def Reads
    (p : Step σ ε α)
    (front : List σ)
    (x : α) :
    Prop :=
  ∀ tape rest, tape.unread = front ++ rest →
    p tape = .ok (x, tape.skip front.length)

/- The reader never fails in the given way. -/
def Avoids
    (e : ε)
    (p : Step σ ε α) :
    Prop :=
  ∀ tape, p tape ≠ .error e

/- Read `n` values one after the other. -/
def times
    (p : Step σ ε α) :
    Nat → Step σ ε (List α)
  | 0 => pure []
  | n + 1 => do
      let x ← p
      let xs ← times p n
      return x :: xs

section Rules

variable {p : Step σ ε α} {f : α → Step σ ε β} {front back : List σ} {x : α}
variable {y : β}

theorem bind_ok
    {tape tape' : Tape σ}
    (hRun : p tape = .ok (x, tape')) :
    (p >>= f) tape = f x tape' := by
  change (p tape >>= fun r => f r.1 r.2) = _
  rw [hRun]
  rfl

theorem bind_error
    {e : ε}
    (hRun : p tape = .error e) :
    (p >>= f) tape = .error e := by
  change (p tape >>= fun r => f r.1 r.2) = _
  rw [hRun]
  rfl

theorem Reads.pure :
    Reads (Pure.pure x : Step σ ε α) [] x :=
  fun _ _ _ => rfl

theorem Reads.bind
    (hFirst : Reads p front x)
    (hSecond : Reads (f x) back y) :
    Reads (p >>= f) (front ++ back) y := by
  intro tape rest hUnread
  rw [List.append_assoc] at hUnread
  have hBehind := Tape.unread_skip_append hUnread
  rw [bind_ok (hFirst tape _ hUnread), hSecond _ rest hBehind,
    Tape.skip_skip, List.length_append]

/- The last reader of a sequence reads nothing. -/
theorem Reads.map
    {g : α → β}
    (hReads : Reads p front x) :
    Reads (do let x ← p; return g x) front (g x) := by
  have hBoth : Reads (p >>= fun x => Pure.pure (g x)) (front ++ []) (g x) :=
    hReads.bind Reads.pure
  rw [List.append_nil] at hBoth
  exact hBoth

theorem Reads.times
    {write : α → List σ}
    {xs : List α}
    (hReads : ∀ x ∈ xs, Reads p (write x) x) :
    Reads (Program.times p xs.length) (xs.flatMap write) xs := by
  induction xs with
  | nil => exact Reads.pure
  | cons x xs ih =>
      rw [List.flatMap_cons]
      apply (hReads x List.mem_cons_self).bind
      apply Reads.map
      exact ih fun y hMem => hReads y (List.mem_cons_of_mem _ hMem)

variable {e : ε}

theorem Avoids.pure :
    Avoids e (Pure.pure x : Step σ ε α) := by
  intro tape hFail
  cases hFail

theorem Avoids.bind
    (hFirst : Avoids e p)
    (hSecond : ∀ x, Avoids e (f x)) :
    Avoids e (p >>= f) := by
  intro tape hFail
  cases hRun : p tape with
  | error e' =>
      rw [bind_error hRun] at hFail
      cases hFail
      exact hFirst tape hRun
  | ok r =>
      rw [bind_ok hRun] at hFail
      exact hSecond r.1 r.2 hFail

theorem Avoids.times
    (hAvoids : Avoids e p)
    (n : Nat) :
    Avoids e (Program.times p n) := by
  induction n with
  | zero => exact Avoids.pure
  | succ n ih =>
      apply hAvoids.bind
      intro x
      apply ih.bind
      exact fun xs => Avoids.pure

end Rules

/- The reader reads the symbols on tapes of this length at most. -/
def ReadsIn
    (bound : Nat)
    (p : Step σ ε α)
    (front : List σ)
    (x : α) :
    Prop :=
  ∀ tape rest,
    tape.data.length ≤ bound →
    tape.unread = front ++ rest →
    p tape = .ok (x, tape.skip front.length)

/- The reader moves on by so much at least, and not past the end. -/
def Moves
    (n : Nat)
    (p : Step σ ε α) :
    Prop :=
  ∀ tape x tape',
    p tape = .ok (x, tape') →
    tape'.data = tape.data ∧ tape.pos + n ≤ tape'.pos ∧
      (tape.pos ≤ tape.data.length →
        tape'.pos ≤ tape.data.length)

/- The reader never fails in the given way on such tapes. -/
def AvoidsIn
    (bound : Nat)
    (e : ε)
    (p : Step σ ε α) :
    Prop :=
  ∀ tape,
    tape.pos ≤ tape.data.length →
    tape.data.length ≤ bound →
    p tape ≠ .error e

section BoundedRules

variable {bound m n : Nat} {e : ε} {p : Step σ ε α} {f : α → Step σ ε β}
variable {front back : List σ} {x : α} {y : β}

theorem ReadsIn.pure :
    ReadsIn bound (Pure.pure x : Step σ ε α) [] x :=
  fun _ _ _ _ => rfl

theorem ReadsIn.bind
    (hFirst : ReadsIn bound p front x)
    (hSecond : ReadsIn bound (f x) back y) :
    ReadsIn bound (p >>= f) (front ++ back) y := by
  intro tape rest hBound hUnread
  rw [List.append_assoc] at hUnread
  have hBehind := Tape.unread_skip_append hUnread
  rw [bind_ok (hFirst tape _ hBound hUnread),
    hSecond (tape.skip front.length) rest hBound hBehind,
    Tape.skip_skip, List.length_append]

/- A last reader that reads nothing. -/
theorem ReadsIn.bind_last
    (hFirst : ReadsIn bound p front x)
    (hSecond : ReadsIn bound (f x) [] y) :
    ReadsIn bound (p >>= f) front y := by
  have hBoth := hFirst.bind hSecond
  rw [List.append_nil] at hBoth
  exact hBoth

theorem Moves.pure :
    Moves 0 (Pure.pure x : Step σ ε α) := by
  intro tape y tape' hRun
  cases hRun
  exact ⟨rfl, Nat.le_refl _, fun hLe => hLe⟩

theorem Moves.fail :
    Moves n (fun _ => .error e : Step σ ε α) := by
  intro tape y tape' hRun
  cases hRun

theorem Moves.le
    (hMoves : Moves n p)
    (hLe : m ≤ n) :
    Moves m p := by
  intro tape y tape' hRun
  rcases hMoves tape y tape' hRun with ⟨hData, hPos, hEnd⟩
  exact ⟨hData, by omega, hEnd⟩

theorem Moves.bind
    (hFirst : Moves m p)
    (hSecond : ∀ x, Moves n (f x)) :
    Moves (m + n) (p >>= f) := by
  intro tape z tape'' hRun
  cases hStep : p tape with
  | error e' =>
      rw [bind_error hStep] at hRun
      cases hRun
  | ok r =>
      rw [bind_ok hStep] at hRun
      rcases hFirst tape r.1 r.2 hStep with ⟨hData, hPos, hEnd⟩
      rcases hSecond r.1 r.2 z tape'' hRun with ⟨hData', hPos', hEnd'⟩
      rw [hData] at hData' hEnd'
      refine ⟨hData', by omega, ?_⟩
      intro hLe
      exact hEnd' (hEnd hLe)

theorem AvoidsIn.pure :
    AvoidsIn bound e (Pure.pure x : Step σ ε α) := by
  intro tape _ _ hFail
  cases hFail

theorem AvoidsIn.bind
    (hMoves : Moves n p)
    (hFirst : AvoidsIn bound e p)
    (hSecond : ∀ x, AvoidsIn bound e (f x)) :
    AvoidsIn bound e (p >>= f) := by
  intro tape hPos hBound hFail
  cases hRun : p tape with
  | error e' =>
      rw [bind_error hRun] at hFail
      cases hFail
      exact hFirst tape hPos hBound hRun
  | ok r =>
      rw [bind_ok hRun] at hFail
      rcases hMoves tape r.1 r.2 hRun with ⟨hData, -, hEnd⟩
      refine hSecond r.1 r.2 ?_ ?_ hFail
      · rw [hData]
        exact hEnd hPos
      · rw [hData]
        exact hBound

end BoundedRules

end Program

end Borzoi
