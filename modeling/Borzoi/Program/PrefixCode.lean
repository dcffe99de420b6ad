import Mathlib.Data.List.Nodup

/-
  Spelling words by a table of names.

  A word is spelled by writing the name of each of its letters, and read
  back by taking, at each step, the first name in the table that the rest
  begins with.  Where no name begins another, reading inverts spelling.
-/

namespace Borzoi

namespace PrefixCode

variable {κ σ : Type} {table : List (κ × List σ)}

section Spelling

variable [DecidableEq κ]

/- The name of a letter. -/
def nameOf
    (table : List (κ × List σ))
    (letter : κ) :
    Option (List σ) :=
  (table.find? fun (k, _) => k == letter).map Prod.snd

/- The names of the letters of a word, one after another. -/
def spell
    (table : List (κ × List σ))
    (word : List κ) :
    List σ :=
  word.flatMap fun letter => (nameOf table letter).getD []

end Spelling

section Reading

variable [DecidableEq σ]

/- The first entry whose name the text begins with. -/
def entryAt
    (table : List (κ × List σ))
    (text : List σ) :
    Option (κ × List σ) :=
  table.find? fun (_, name) => name.isPrefixOf text

/- The letters of a text in at most `fuel` steps. -/
def readFuel
    (table : List (κ × List σ)) :
    Nat → List σ → Option (List κ)
  | _, [] => some []
  | 0, _ :: _ => none
  | fuel + 1, text@(_ :: _) =>
      (entryAt table text).bind fun (letter, name) =>
        (readFuel table fuel (text.drop name.length)).map (letter :: ·)

def read
    (table : List (κ × List σ))
    (text : List σ) :
    Option (List κ) :=
  readFuel table text.length text

end Reading

/- No name is empty, no name begins another, and each letter has one
   name. -/
structure PrefixFree
    (table : List (κ × List σ)) :
    Prop where
  nonempty : ∀ entry ∈ table, entry.2 ≠ []
  unique : ∀ entry ∈ table, ∀ other ∈ table,
    entry.2 <+: other.2 → entry = other
  letters : (table.map Prod.fst).Nodup

/- Where keys do not repeat, an entry is found by its key. -/
theorem find_of_nodup
    {α β : Type}
    [BEq β] [LawfulBEq β]
    {key : α → β}
    {l : List α}
    {x : α}
    (hNodup : (l.map key).Nodup)
    (hx : x ∈ l) :
    (l.find? fun y => key y == key x) = some x := by
  cases hFind : l.find? fun y => key y == key x with
  | none =>
      have hNot := List.find?_eq_none.1 hFind x hx
      exact absurd (beq_self_eq_true (key x)) hNot
  | some y =>
      have hKey : key y = key x :=
        eq_of_beq (List.find?_some (p := fun y => key y == key x) hFind)
      rw [List.inj_on_of_nodup_map hNodup
        (List.mem_of_find?_eq_some hFind) hx hKey]

section Names

variable [DecidableEq κ]

theorem PrefixFree.named
    (hFree : PrefixFree table)
    {entry : κ × List σ}
    (hEntry : entry ∈ table) :
    nameOf table entry.1 = some entry.2 := by
  unfold nameOf
  rw [find_of_nodup hFree.letters hEntry]
  rfl

theorem mem_of_nameOf
    {letter : κ}
    {name : List σ}
    (hName : nameOf table letter = some name) :
    (letter, name) ∈ table := by
  unfold nameOf at hName
  rcases Option.map_eq_some_iff.1 hName with ⟨⟨k, n⟩, hFind, rfl⟩
  have hKey : k = letter := by
    simpa using List.find?_some hFind
  rw [← hKey]
  exact List.mem_of_find?_eq_some hFind

end Names

variable {text : List σ}

section Steps

variable [DecidableEq σ]

variable {entry : κ × List σ}

theorem entryAt_spec
    (hEntry : entryAt table text = some entry) :
    entry ∈ table ∧ entry.2 <+: text := by
  have hBegins : entry.2.isPrefixOf text = true :=
    List.find?_some (p := fun e : κ × List σ => e.2.isPrefixOf text) hEntry
  exact ⟨List.mem_of_find?_eq_some hEntry,
    List.isPrefixOf_iff_prefix.1 hBegins⟩

/- The entry of a name is the one found where the name stands. -/
theorem entryAt_append
    (hFree : PrefixFree table)
    (hEntry : entry ∈ table)
    (rest : List σ) :
    entryAt table (entry.2 ++ rest) = some entry := by
  cases hFind : entryAt table (entry.2 ++ rest) with
  | none =>
      have hNot := List.find?_eq_none.1 hFind entry hEntry
      exact absurd (List.isPrefixOf_iff_prefix.2
        (List.prefix_append entry.2 rest)) hNot
  | some found =>
      rcases entryAt_spec hFind with ⟨hFound, hBegins⟩
      rcases List.prefix_or_prefix_of_prefix hBegins
        (List.prefix_append entry.2 rest) with hShort | hLong
      · rw [hFree.unique found hFound entry hEntry hShort]
      · rw [hFree.unique entry hEntry found hFound hLong]

/- Steps past the length of the text change nothing. -/
theorem readFuel_enough
    (hFree : PrefixFree table)
    (fuel : Nat)
    (text : List σ)
    (hFuel : text.length ≤ fuel) :
    readFuel table fuel text = read table text := by
  have hStable : ∀ (n : Nat) (text : List σ), text.length ≤ n →
      readFuel table n text = readFuel table (n + 1) text := by
    intro n
    induction n with
    | zero =>
        intro text hLength
        rw [List.length_eq_zero_iff.1 (Nat.le_zero.1 hLength)]
        rfl
    | succ n ih =>
        intro text hLength
        cases text with
        | nil => rfl
        | cons c text =>
            rw [readFuel, readFuel]
            cases hEntry : entryAt table (c :: text) with
            | none => rfl
            | some entry =>
                have hNonempty :=
                  hFree.nonempty entry (entryAt_spec hEntry).1
                have hPositive := List.length_pos_iff.2 hNonempty
                simp only [Option.bind_some]
                rw [ih _ (by
                  rw [List.length_drop]
                  omega)]
  unfold read
  induction hFuel with
  | refl => rfl
  | step hLe ih => rw [← hStable _ _ hLe, ih]

/- One step of reading, at a name. -/
theorem read_append
    (hFree : PrefixFree table)
    (hEntry : entry ∈ table)
    (rest : List σ) :
    read table (entry.2 ++ rest) =
      (read table rest).map (entry.1 :: ·) := by
  have hAt := entryAt_append hFree hEntry rest
  have hNonempty := hFree.nonempty entry hEntry
  have hPositive := List.length_pos_iff.2 hNonempty
  cases hText : entry.2 ++ rest with
  | nil =>
      have hNil := (List.append_eq_nil_iff.1 hText).1
      exact absurd hNil hNonempty
  | cons c text =>
      have hLength : entry.2.length + rest.length = text.length + 1 := by
        rw [← List.length_append, hText, List.length_cons]
      rw [hText] at hAt
      unfold read
      rw [List.length_cons, readFuel, hAt, Option.bind_some, ← hText]
      dsimp only
      rw [List.drop_left, readFuel_enough hFree _ _ (by omega)]
      rfl

end Steps

section Inversion

variable [DecidableEq κ] [DecidableEq σ]

/- Reading a spelled word gives the word. -/
theorem read_spell
    (hFree : PrefixFree table)
    (word : List κ)
    (hNamed : ∀ letter ∈ word, (nameOf table letter).isSome) :
    read table (spell table word) = some word := by
  induction word with
  | nil => rfl
  | cons letter word ih =>
      rcases Option.isSome_iff_exists.1
        (hNamed letter List.mem_cons_self) with ⟨name, hName⟩
      have hRest := ih fun l hl => hNamed l (List.mem_cons_of_mem _ hl)
      have hStep := read_append hFree (mem_of_nameOf hName)
        (spell table word)
      have hSpell : spell table (letter :: word) =
          name ++ spell table word := by
        unfold spell
        rw [List.flatMap_cons, hName, Option.getD_some]
      rw [hSpell, hStep, hRest]
      rfl

variable {word : List κ}

/- Whatever is read is the spelling of what it reads as. -/
theorem spell_of_readFuel
    (hFree : PrefixFree table)
    (fuel : Nat)
    (hRead : readFuel table fuel text = some word) :
    spell table word = text ∧
      ∀ letter ∈ word, (nameOf table letter).isSome := by
  induction fuel generalizing text word with
  | zero =>
      cases text with
      | nil =>
          cases hRead
          exact ⟨rfl, fun _ hMem => absurd hMem List.not_mem_nil⟩
      | cons c text => cases hRead
  | succ fuel ih =>
      cases text with
      | nil =>
          cases hRead
          exact ⟨rfl, fun _ hMem => absurd hMem List.not_mem_nil⟩
      | cons c text =>
          rw [readFuel] at hRead
          rcases Option.bind_eq_some_iff.1 hRead with
            ⟨⟨letter, name⟩, hEntry, hRest⟩
          rcases Option.map_eq_some_iff.1 hRest with ⟨tail, hTail, rfl⟩
          rcases entryAt_spec hEntry with ⟨hMem, hBegins⟩
          have hName := hFree.named hMem
          dsimp only at hName
          rcases ih hTail with ⟨hSpell, hNamed⟩
          refine ⟨?_, ?_⟩
          · unfold spell at hSpell ⊢
            rw [List.flatMap_cons, hName, Option.getD_some, hSpell]
            exact List.prefix_iff_eq_append.1 hBegins
          · intro l hl
            rcases List.mem_cons.1 hl with rfl | hl
            · rw [hName]
              rfl
            · exact hNamed l hl

theorem spell_of_read
    (hFree : PrefixFree table)
    (hRead : read table text = some word) :
    spell table word = text ∧
      ∀ letter ∈ word, (nameOf table letter).isSome :=
  spell_of_readFuel hFree text.length hRead

end Inversion

end PrefixCode

end Borzoi
