import Borzoi.Sema.MatchReach

/-
  Values and the patterns they match.

  A type is built by constructors, and a value is one of them with its
  fields.  A pattern of the source names the value of every constant.
  Lowering forgets the values of the constants that are not spelt
  canonically.
-/

namespace Borzoi

namespace MatchReach

/- A type of pattern-matched values. -/
inductive Ty
    (U : Type)
  | unit
  | bool
  | const (kind : ConstKind)
  | tuple (fields : List (Ty U))
  | union (name : U)

/- The cases of every union, each with the types of its fields. -/
abbrev Family
    (U : Type) :=
  U → List (List (Ty U))

/- A constructor of values.  `C` has the constants of a kind. -/
inductive ValueCtor
    (C : ConstKind → Type)
  | unit
  | tuple (n : Nat)
  | case (index : Nat)
  | bool (b : Bool)
  | const (kind : ConstKind) (value : C kind)

inductive Value
    (C : ConstKind → Type)
  | mk (ctor : ValueCtor C) (fields : List (Value C))

variable {U : Type} {C : ConstKind → Type}

/- The constructors of a type, with the types of their fields. -/
inductive Builds
    (family : Family U) :
    Ty U → ValueCtor C → List (Ty U) → Prop
  | unit : Builds family .unit .unit []
  | bool (b : Bool) : Builds family .bool (.bool b) []
  | const (kind : ConstKind) (value : C kind) :
      Builds family (.const kind) (.const kind value) []
  | tuple (fields : List (Ty U)) :
      Builds family (.tuple fields) (.tuple fields.length) fields
  | case
      {name : U}
      {index : Nat}
      {fields : List (Ty U)}
      (hCase : (family name)[index]? = some fields) :
      Builds family (.union name) (.case index) fields

inductive HasType
    (family : Family U) :
    Value C → Ty U → Prop
  | mk
      {t : Ty U}
      {ctor : ValueCtor C}
      {fields : List (Ty U)}
      {vs : List (Value C)}
      (hBuilds : Builds family t ctor fields)
      (hFields : List.Forall₂ (HasType family) vs fields) :
      HasType family (.mk ctor vs) t

/-
  A constructor as the source has it: a constant is spelt canonically,
  or in another way for a value.
-/
inductive SourceCtor
    (U : Type)
    (C : ConstKind → Type)
  | unit
  | tuple (n : Nat)
  | case (union : U) (index : Nat)
  | bool (b : Bool)
  | canonical (kind : ConstKind) (spelling : String)
  | spelt (kind : ConstKind) (value : C kind)

inductive SourcePat
    (U : Type)
    (C : ConstKind → Type)
  | any
  | ctor (c : SourceCtor U C) (args : List (SourcePat U C))

/- The constructor of the values a pattern matches. -/
def denotes
    (den : (kind : ConstKind) → String → C kind)
    (c : SourceCtor U C) :
    ValueCtor C :=
  match c with
  | .unit => .unit
  | .tuple n => .tuple n
  | .case _ index => .case index
  | .bool b => .bool b
  | .canonical kind spelling => .const kind (den kind spelling)
  | .spelt kind value => .const kind value

/- The constructor as reachability sees it. -/
def lowerCtor
    (family : Family U)
    (c : SourceCtor U C) :
    Ctor U :=
  match c with
  | .unit => .Unit
  | .tuple n => .Tuple n
  | .case union index => .Case union index (family union).length
  | .bool b => .Bool b
  | .canonical kind spelling => .Const kind (some spelling)
  | .spelt kind _ => .Const kind none

/- The pattern as reachability sees it. -/
mutual
def lowerPat
    (family : Family U) :
    SourcePat U C → ClausePat U
  | .any => .Any
  | .ctor c args => .Ctor (lowerCtor family c) (lowerRow family args)

def lowerRow
    (family : Family U) :
    List (SourcePat U C) → List (ClausePat U)
  | [] => []
  | p :: ps => lowerPat family p :: lowerRow family ps
end

/- The constructors that patterns of a type may have. -/
inductive Applies
    (family : Family U) :
    Ty U → SourceCtor U C → List (Ty U) → Prop
  | unit : Applies family .unit .unit []
  | bool (b : Bool) : Applies family .bool (.bool b) []
  | canonical (kind : ConstKind) (spelling : String) :
      Applies family (.const kind) (.canonical kind spelling) []
  | spelt (kind : ConstKind) (value : C kind) :
      Applies family (.const kind) (.spelt kind value) []
  | tuple (fields : List (Ty U)) :
      Applies family (.tuple fields) (.tuple fields.length) fields
  | case
      {name : U}
      {index : Nat}
      {fields : List (Ty U)}
      (hCase : (family name)[index]? = some fields) :
      Applies family (.union name) (.case name index) fields

inductive PatTyped
    (family : Family U) :
    SourcePat U C → Ty U → Prop
  | any (t : Ty U) : PatTyped family .any t
  | ctor
      {t : Ty U}
      {c : SourceCtor U C}
      {fields : List (Ty U)}
      {args : List (SourcePat U C)}
      (hApplies : Applies family t c fields)
      (hArgs : List.Forall₂ (PatTyped family) args fields) :
      PatTyped family (.ctor c args) t

inductive Matches
    (den : (kind : ConstKind) → String → C kind) :
    SourcePat U C → Value C → Prop
  | any (v : Value C) : Matches den .any v
  | ctor
      {c : SourceCtor U C}
      {args : List (SourcePat U C)}
      {vs : List (Value C)}
      (hArgs : List.Forall₂ (Matches den) args vs) :
      Matches den (.ctor c args) (.mk (denotes den c) vs)

/- A constant of the pattern has the value. -/
inductive Spells
    (den : (kind : ConstKind) → String → C kind)
    (kind : ConstKind)
    (value : C kind) :
    SourcePat U C → Prop
  | here
      {c : SourceCtor U C}
      {args : List (SourcePat U C)}
      (hConst : denotes den c = .const kind value) :
      Spells den kind value (.ctor c args)
  | inside
      {c : SourceCtor U C}
      {p : SourcePat U C}
      {args : List (SourcePat U C)}
      (hMem : p ∈ args)
      (hSpells : Spells den kind value p) :
      Spells den kind value (.ctor c args)

/- Every constant is spelt canonically. -/
inductive Canonical : SourcePat U C → Prop
  | any : Canonical .any
  | ctor
      {c : SourceCtor U C}
      {args : List (SourcePat U C)}
      (hCtor : ∀ kind value, c ≠ .spelt kind value)
      (hArgs : ∀ p ∈ args, Canonical p) :
      Canonical (.ctor c args)

end MatchReach

end Borzoi
