import Mathlib.Data.List.Basic

/-
  Readers that keep their position when they fail.

  A reader steps over a list of symbols and, unlike a parser that only
  returns a rest, is left somewhere when it fails.  It is exact for a
  relation of encodings when it succeeds just where one stands, and moves
  past it.  A tight reader that fails is where it was; a loose one that
  fails before the end has moved.
-/

namespace Borzoi

namespace ExactReader

/- Symbols with a position among them, and what readers look up. -/
structure Source (σ τ : Type) where
  data : List σ
  pos : Nat
  inBounds : pos ≤ data.length
  env : τ

variable {σ τ ε α β : Type}

namespace Source

def unread
    (s : Source σ τ) :
    List σ :=
  s.data.drop s.pos

def skip
    (s : Source σ τ)
    (n : Nat)
    (hn : s.pos + n ≤ s.data.length) :
    Source σ τ :=
  { s with
    pos := s.pos + n
    inBounds := hn }

theorem length_unread
    (s : Source σ τ) :
    s.unread.length = s.data.length - s.pos :=
  List.length_drop

/- `s'` is `s` moved past `n` symbols. -/
structure Advanced
    (s : Source σ τ)
    (n : Nat)
    (s' : Source σ τ) :
    Prop where
  data : s'.data = s.data
  pos : s'.pos = s.pos + n
  env : s'.env = s.env

theorem advanced_skip
    (s : Source σ τ)
    (n : Nat)
    (hn : s.pos + n ≤ s.data.length) :
    Advanced s n (s.skip n hn) :=
  ⟨rfl, rfl, rfl⟩

theorem Advanced.refl
    (s : Source σ τ) :
    Advanced s 0 s :=
  ⟨rfl, rfl, rfl⟩

theorem Advanced.trans
    {s s' s'' : Source σ τ}
    {m n : Nat}
    (hFirst : Advanced s m s')
    (hSecond : Advanced s' n s'') :
    Advanced s (m + n) s'' := by
  refine ⟨hSecond.data.trans hFirst.data, ?_, hSecond.env.trans hFirst.env⟩
  rw [hSecond.pos, hFirst.pos, Nat.add_assoc]

variable {s s' : Source σ τ}

theorem Advanced.unread
    {n : Nat}
    (hAdvanced : Advanced s n s') :
    s'.unread = s.unread.drop n := by
  unfold Source.unread
  rw [hAdvanced.data, hAdvanced.pos, List.drop_drop]

/- Behind a front stands what stood behind it. -/
theorem Advanced.prefix_iff
    {front back : List σ}
    (hAdvanced : Advanced s front.length s')
    (hFront : front <+: s.unread) :
    front ++ back <+: s.unread ↔ back <+: s'.unread := by
  rcases hFront with ⟨rest, hRest⟩
  rw [hAdvanced.unread, ← hRest, List.drop_left]
  exact List.prefix_append_right_inj front

end Source

abbrev Scanner (σ τ ε α : Type) := ExceptT ε (StateM (Source σ τ)) α

namespace Scanner

/- What a reader returns, and where it is left. -/
def run
    (p : Scanner σ τ ε α)
    (s : Source σ τ) :
    Except ε α × Source σ τ :=
  StateT.run (ExceptT.run p) s

/- A reader from what it does. -/
def of
    (step : Source σ τ → Except ε α × Source σ τ) :
    Scanner σ τ ε α :=
  ExceptT.mk (StateT.mk step)

/- The lookups. -/
def env :
    Scanner σ τ ε τ :=
  of fun s => (.ok s.env, s)

variable {p : Scanner σ τ ε α} {f : α → Scanner σ τ ε β} {s s' : Source σ τ}

theorem run_of
    (step : Source σ τ → Except ε α × Source σ τ) :
    (of step).run s = step s :=
  rfl

theorem run_bind_ok
    {x : α}
    (hRun : p.run s = (.ok x, s')) :
    (p >>= f).run s = (f x).run s' := by
  have hRun' : StateT.run (ExceptT.run p) s = (.ok x, s') := hRun
  unfold run
  rw [ExceptT.run_bind, StateT.run_bind]
  change (match StateT.run (ExceptT.run p) s with | (r, t) => _) = _
  rw [hRun']
  rfl

theorem run_bind_error
    {e : ε}
    (hRun : p.run s = (.error e, s')) :
    (p >>= f).run s = (.error e, s') := by
  have hRun' : StateT.run (ExceptT.run p) s = (.error e, s') := hRun
  unfold run
  rw [ExceptT.run_bind, StateT.run_bind]
  change (match StateT.run (ExceptT.run p) s with | (r, t) => _) = _
  rw [hRun']
  rfl

end Scanner

/- The encodings of values, given the lookups. -/
abbrev Encoding (σ τ α : Type) := τ → List σ → α → Prop

/- A reader succeeds just where an encoding stands, moves past it, and
   never moves back. -/
structure Exact
    (p : Scanner σ τ ε α)
    (E : Encoding σ τ α) :
    Prop where
  complete : ∀ s front x, E s.env front x → front <+: s.unread →
    ∃ s', p.run s = (.ok x, s') ∧ s.Advanced front.length s'
  sound : ∀ s s' x, p.run s = (.ok x, s') →
    ∃ front, E s.env front x ∧ front <+: s.unread ∧
      s.Advanced front.length s'
  forward : ∀ s s' e, p.run s = (.error e, s') → s.pos ≤ s'.pos

/- A reader that fails is where it was. -/
def Tight
    (p : Scanner σ τ ε α) :
    Prop :=
  ∀ s s' e, p.run s = (.error e, s') → s'.pos = s.pos

/- A reader that fails is where it was at the end of the source, and has
   moved anywhere else. -/
def Loose
    (p : Scanner σ τ ε α) :
    Prop :=
  ∀ s s' e, p.run s = (.error e, s') →
    if s.unread = [] then s'.pos = s.pos else s.pos < s'.pos

/- A failure leaves the position, a success moves it past an encoding. -/
def Atomic
    (p : Scanner σ τ ε α)
    (E : Encoding σ τ α)
    (s : Source σ τ) :
    Prop :=
  match p.run s with
  | (.ok x, s') =>
      ∃ front, E s.env front x ∧ front <+: s.unread ∧
        s'.pos = s.pos + front.length
  | (.error _, s') => s'.pos = s.pos

section Rules

variable {p : Scanner σ τ ε α} {f : α → Scanner σ τ ε β} {E E' : Encoding σ τ α}
variable {F : α → Encoding σ τ β}

theorem Exact.congr
    (hExact : Exact p E)
    (hSame : ∀ t front x, E' t front x ↔ E t front x) :
    Exact p E' := by
  have hEq : E' = E := by
    funext t front x
    exact propext (hSame t front x)
  rw [hEq]
  exact hExact

theorem Exact.pure
    (x : α) :
    Exact (Pure.pure x : Scanner σ τ ε α)
      fun _ front y => front = [] ∧ y = x where
  complete := by
    rintro s front y ⟨rfl, rfl⟩ _
    exact ⟨s, rfl, Source.Advanced.refl s⟩
  sound := by
    intro s s' y hRun
    cases hRun
    exact ⟨[], ⟨rfl, rfl⟩, List.nil_prefix, Source.Advanced.refl s⟩
  forward := by
    intro s s' e hRun
    cases hRun

theorem Exact.throw
    (e : ε) :
    Exact (MonadExcept.throw e : Scanner σ τ ε α) fun _ _ _ => False where
  complete := fun _ _ _ hNever => hNever.elim
  sound := by
    intro s s' x hRun
    cases hRun
  forward := by
    intro s s' e hRun
    cases hRun
    exact Nat.le_refl _

theorem Exact.env :
    Exact (Scanner.env : Scanner σ τ ε τ)
      fun t front x => front = [] ∧ x = t where
  complete := by
    rintro s front x ⟨rfl, rfl⟩ _
    exact ⟨s, rfl, Source.Advanced.refl s⟩
  sound := by
    intro s s' x hRun
    cases hRun
    exact ⟨[], ⟨rfl, rfl⟩, List.nil_prefix, Source.Advanced.refl s⟩
  forward := by
    intro s s' e hRun
    cases hRun

/- Encodings one after another. -/
def seq
    (E : Encoding σ τ α)
    (F : α → Encoding σ τ β) :
    Encoding σ τ β :=
  fun t both y => ∃ front x back, both = front ++ back ∧ E t front x ∧
    F x t back y

theorem Exact.bind
    (hFirst : Exact p E)
    (hSecond : ∀ x, Exact (f x) (F x)) :
    Exact (p >>= f) (seq E F) where
  complete := by
    rintro s both y ⟨front, x, back, rfl, hFront, hBack⟩ hBoth
    have hBegins := (List.prefix_append front back).trans hBoth
    rcases hFirst.complete s front x hFront hBegins with
      ⟨s', hRun, hAdvanced⟩
    have hRest := (hAdvanced.prefix_iff hBegins).1 hBoth
    rw [← hAdvanced.env] at hBack
    rcases (hSecond x).complete s' back y hBack hRest with
      ⟨s'', hRun', hAdvanced'⟩
    refine ⟨s'', ?_, ?_⟩
    · rw [Scanner.run_bind_ok hRun, hRun']
    · rw [List.length_append]
      exact hAdvanced.trans hAdvanced'
  sound := by
    intro s s'' y hRun
    cases hFrontRun : p.run s with
    | mk result s' =>
        cases result with
        | error e =>
            rw [Scanner.run_bind_error hFrontRun] at hRun
            cases hRun
        | ok x =>
            rw [Scanner.run_bind_ok hFrontRun] at hRun
            rcases hFirst.sound s s' x hFrontRun with
              ⟨front, hFront, hBegins, hAdvanced⟩
            rcases (hSecond x).sound s' s'' y hRun with
              ⟨back, hBack, hRest, hAdvanced'⟩
            rw [hAdvanced.env] at hBack
            refine ⟨front ++ back, ⟨front, x, back, rfl, hFront, hBack⟩,
              (hAdvanced.prefix_iff hBegins).2 hRest, ?_⟩
            rw [List.length_append]
            exact hAdvanced.trans hAdvanced'
  forward := by
    intro s s'' e hRun
    cases hFrontRun : p.run s with
    | mk result s' =>
        cases result with
        | error e' =>
            rw [Scanner.run_bind_error hFrontRun] at hRun
            cases hRun
            exact hFirst.forward s s'' e hFrontRun
        | ok x =>
            rw [Scanner.run_bind_ok hFrontRun] at hRun
            rcases hFirst.sound s s' x hFrontRun with
              ⟨front, _, _, hAdvanced⟩
            have hLater := (hSecond x).forward s' s'' e hRun
            rw [hAdvanced.pos] at hLater
            omega

/- A reader whose first part is loose and reads something is loose. -/
theorem Loose.bind
    (hFirst : Exact p E)
    (hSecond : ∀ x, Exact (f x) (F x))
    (hNonempty : ∀ t front x, E t front x → front ≠ [])
    (hLoose : Loose p) :
    Loose (p >>= f) := by
  intro s s'' e hRun
  cases hFrontRun : p.run s with
  | mk result s' =>
      cases result with
      | error e' =>
          rw [Scanner.run_bind_error hFrontRun] at hRun
          cases hRun
          exact hLoose s s'' e hFrontRun
      | ok x =>
          rw [Scanner.run_bind_ok hFrontRun] at hRun
          rcases hFirst.sound s s' x hFrontRun with
            ⟨front, hFront, hBegins, hAdvanced⟩
          have hSome := hNonempty _ _ _ hFront
          have hUnread : s.unread ≠ [] := by
            intro hEnd
            rw [hEnd, List.prefix_nil] at hBegins
            exact hSome hBegins
          have hLater := (hSecond x).forward s' s'' e hRun
          have hPositive := List.length_pos_iff.2 hSome
          rw [hAdvanced.pos] at hLater
          rw [if_neg hUnread]
          omega

theorem Tight.bind_pure
    {g : α → β}
    (hTight : Tight p) :
    Tight (do let x ← p; return g x) := by
  intro s s' e hRun
  cases hFrontRun : p.run s with
  | mk result s'' =>
      cases result with
      | error e' =>
          rw [Scanner.run_bind_error hFrontRun] at hRun
          cases hRun
          exact hTight s s' e hFrontRun
      | ok x =>
          rw [Scanner.run_bind_ok hFrontRun] at hRun
          cases hRun

theorem Exact.atomic
    (hExact : Exact p E)
    (hTight : Tight p)
    (s : Source σ τ) :
    Atomic p E s := by
  unfold Atomic
  cases hRun : p.run s with
  | mk result s' =>
      cases result with
      | error e => exact hTight s s' e hRun
      | ok x =>
          rcases hExact.sound s s' x hRun with
            ⟨front, hFront, hBegins, hAdvanced⟩
          exact ⟨front, hFront, hBegins, hAdvanced.pos⟩

/- A loose reader is atomic at the end of the source and where an encoding
   stands, and nowhere else. -/
theorem Exact.atomic_iff
    (hExact : Exact p E)
    (hLoose : Loose p)
    (s : Source σ τ) :
    Atomic p E s ↔
      s.unread = [] ∨ ∃ front x, E s.env front x ∧ front <+: s.unread := by
  unfold Atomic
  cases hRun : p.run s with
  | mk result s' =>
      cases result with
      | error e =>
          have hMoved := hLoose s s' e hRun
          constructor
          · intro hPos
            by_cases hEnd : s.unread = []
            · exact Or.inl hEnd
            · rw [if_neg hEnd] at hMoved
              have hPos' : s'.pos = s.pos := hPos
              omega
          · rintro (hEnd | ⟨front, x, hFront, hBegins⟩)
            · rw [if_pos hEnd] at hMoved
              exact hMoved
            · rcases hExact.complete s front x hFront hBegins with
                ⟨s'', hRun', _⟩
              rw [hRun] at hRun'
              cases hRun'
      | ok x =>
          rcases hExact.sound s s' x hRun with
            ⟨front, hFront, hBegins, hAdvanced⟩
          constructor
          · intro _
            exact Or.inr ⟨front, x, hFront, hBegins⟩
          · intro _
            exact ⟨front, hFront, hBegins, hAdvanced.pos⟩

end Rules

end ExactReader

end Borzoi
