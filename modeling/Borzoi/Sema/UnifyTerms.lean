import Borzoi.Sema.Unify

/-
  Types as first-order terms.

  A type that is not a variable has a head and children.  Substitution
  keeps the head and maps the children, and two such types are equal
  when their heads and their children are.
-/

namespace Borzoi

namespace Unify

/- What a type has apart from its children. -/
inductive Head
  | named (path : List String) (arity : Nat)
  | project (path : List String) (arity : Nat)
  | array (rank : Nat)
  | tuple (arity : Nat)
  | function
  | param (i : Nat)
  deriving DecidableEq

namespace Ty

/- The head of a type, `none` for a variable. -/
def head
    (ty : Ty) :
    Option Head :=
  match ty with
  | .Named path args => some (.named path args.length)
  | .Project path args => some (.project path args.length)
  | .Array _ rank => some (.array rank)
  | .Tuple elems => some (.tuple elems.length)
  | .Fun _ _ => some .function
  | .Param i => some (.param i)
  | .Var _ => none

def children
    (ty : Ty) :
    List Ty :=
  match ty with
  | .Named _ args => args
  | .Project _ args => args
  | .Array elem _ => [elem]
  | .Tuple elems => elems
  | .Fun arg ret => [arg, ret]
  | .Param _ => []
  | .Var _ => []

/- Induction over a type and its children. -/
theorem byChildren
    {P : Ty → Prop}
    (hVar : ∀ v, P (.Var v))
    (hTerm : ∀ ty, ty.head ≠ none → (∀ c ∈ ty.children, P c) → P ty)
    (ty : Ty) :
    P ty := by
  refine @Ty.rec P (fun tys => ∀ c ∈ tys, P c) ?_ ?_ ?_ ?_ ?_ ?_ ?_ ?_
    ?_ ty
  · intro path args ih
    exact hTerm _ (Option.some_ne_none _) ih
  · intro path args ih
    exact hTerm _ (Option.some_ne_none _) ih
  · intro elem rank ih
    apply hTerm (.Array elem rank) (Option.some_ne_none _)
    intro c hMem
    rw [List.mem_singleton.1 hMem]
    exact ih
  · intro elems ih
    exact hTerm _ (Option.some_ne_none _) ih
  · intro arg ret ihArg ihRet
    apply hTerm (.Fun arg ret) (Option.some_ne_none _)
    intro c hMem
    rcases List.mem_cons.1 hMem with rfl | hMem
    · exact ihArg
    · rw [List.mem_singleton.1 hMem]
      exact ihRet
  · intro i
    exact hTerm _ (Option.some_ne_none _) (List.forall_mem_nil _)
  · exact hVar
  · exact List.forall_mem_nil _
  · intro ty tys ih ihs c hMem
    rcases List.mem_cons.1 hMem with rfl | hMem
    · exact ih
    · exact ihs c hMem

variable {v : Nat} {a b c : Ty}

/- Terms with the same head and children are equal. -/
theorem eq_of_head
    (hTerm : a.head ≠ none)
    (hHead : a.head = b.head)
    (hChildren : a.children = b.children) :
    a = b := by
  cases a with
  | Var v =>
      exact absurd rfl hTerm
  | Named p xs =>
      cases b with
      | Named q ys =>
          injection hHead with hHead
          injection hHead with hPath
          have hArgs : xs = ys := hChildren
          rw [hPath, hArgs]
      | _ =>
          cases hHead
  | Project p xs =>
      cases b with
      | Project q ys =>
          injection hHead with hHead
          injection hHead with hPath
          have hArgs : xs = ys := hChildren
          rw [hPath, hArgs]
      | _ =>
          cases hHead
  | Array x m =>
      cases b with
      | Array y n =>
          cases hHead
          cases hChildren
          rfl
      | _ =>
          cases hHead
  | Tuple xs =>
      cases b with
      | Tuple ys =>
          cases hChildren
          rfl
      | _ =>
          cases hHead
  | Fun x r =>
      cases b with
      | Fun y s =>
          cases hChildren
          rfl
      | _ =>
          cases hHead
  | Param i =>
      cases b with
      | Param j =>
          cases hHead
          rfl
      | _ =>
          cases hHead

theorem children_length
    (hHead : a.head = b.head) :
    a.children.length = b.children.length := by
  cases a with
  | Named p xs =>
      cases b with
      | Named q ys =>
          injection hHead with hHead
          injection hHead
      | _ =>
          cases hHead
  | Project p xs =>
      cases b with
      | Project q ys =>
          injection hHead with hHead
          injection hHead
      | _ =>
          cases hHead
  | Tuple xs =>
      cases b with
      | Tuple ys =>
          injection hHead with hHead
          injection hHead
      | _ =>
          cases hHead
  | Array x m =>
      cases b with
      | Array y n =>
          rfl
      | _ =>
          cases hHead
  | Fun x r =>
      cases b with
      | Fun y s =>
          rfl
      | _ =>
          cases hHead
  | Param i =>
      cases b with
      | Param j =>
          rfl
      | _ =>
          cases hHead
  | Var v =>
      cases b with
      | Var w =>
          rfl
      | _ =>
          cases hHead

theorem var_of_head
    {ty : Ty}
    (hHead : ty.head = none) :
    ∃ v, ty = .Var v := by
  cases ty with
  | Var v =>
      exact ⟨v, rfl⟩
  | _ =>
      cases hHead

mutual
/- Replace every variable by a type. -/
def subst
    (σ : Nat → Ty) :
    Ty → Ty
  | .Named path args => .Named path (substAll σ args)
  | .Project path args => .Project path (substAll σ args)
  | .Array elem rank => .Array (subst σ elem) rank
  | .Tuple elems => .Tuple (substAll σ elems)
  | .Fun arg ret => .Fun (subst σ arg) (subst σ ret)
  | .Param i => .Param i
  | .Var v => σ v

def substAll
    (σ : Nat → Ty) :
    List Ty → List Ty
  | [] => []
  | ty :: tys => subst σ ty :: substAll σ tys
end

variable {σ : Nat → Ty} {ty : Ty}

theorem subst_var
    (v : Nat) :
    (Ty.Var v).subst σ = σ v := by
  rw [subst]

theorem substAll_eq
    (tys : List Ty) :
    substAll σ tys = tys.map (subst σ) := by
  induction tys with
  | nil =>
      rw [substAll, List.map_nil]
  | cons ty tys ih =>
      rw [substAll, List.map_cons, ih]

theorem children_subst
    (hTerm : ty.head ≠ none) :
    (ty.subst σ).children = ty.children.map (subst σ) := by
  cases ty with
  | Var v =>
      exact absurd rfl hTerm
  | Named path args =>
      rw [subst]
      exact substAll_eq args
  | Project path args =>
      rw [subst]
      exact substAll_eq args
  | Tuple elems =>
      rw [subst]
      exact substAll_eq elems
  | Array elem rank =>
      rw [subst]
      rfl
  | Fun arg ret =>
      rw [subst]
      rfl
  | Param i =>
      rw [subst]
      rfl

theorem head_subst
    (hTerm : ty.head ≠ none) :
    (ty.subst σ).head = ty.head := by
  cases ty with
  | Var v =>
      exact absurd rfl hTerm
  | Named path args =>
      rw [subst, head, substAll_eq, List.length_map, head]
  | Project path args =>
      rw [subst, head, substAll_eq, List.length_map, head]
  | Tuple elems =>
      rw [subst, head, substAll_eq, List.length_map, head]
  | Array elem rank =>
      rw [subst]
      rfl
  | Fun arg ret =>
      rw [subst]
      rfl
  | Param i =>
      rw [subst]

/- Terms become equal when their children do. -/
theorem subst_eq_iff
    (ha : a.head ≠ none)
    (hb : b.head ≠ none) :
    a.subst σ = b.subst σ ↔
      a.head = b.head ∧
        a.children.map (subst σ) = b.children.map (subst σ) := by
  constructor
  · intro hEq
    constructor
    · rw [← head_subst ha, ← head_subst hb, hEq]
    · rw [← children_subst ha, ← children_subst hb, hEq]
  · rintro ⟨hHead, hChildren⟩
    apply eq_of_head
    · rw [head_subst ha]
      exact ha
    · rw [head_subst ha, head_subst hb, hHead]
    · rw [children_subst ha, children_subst hb, hChildren]

mutual
def vars : Ty → List Nat
  | .Named _ args => varsAll args
  | .Project _ args => varsAll args
  | .Array elem _ => vars elem
  | .Tuple elems => varsAll elems
  | .Fun arg ret => vars arg ++ vars ret
  | .Param _ => []
  | .Var v => [v]

def varsAll : List Ty → List Nat
  | [] => []
  | ty :: tys => vars ty ++ varsAll tys
end

theorem mem_varsAll
    {tys : List Ty} :
    v ∈ varsAll tys ↔ ∃ c ∈ tys, v ∈ c.vars := by
  induction tys with
  | nil =>
      simp only [varsAll, List.not_mem_nil, false_and, exists_false]
  | cons ty tys ih =>
      simp only [varsAll, List.mem_append, ih, List.mem_cons,
        exists_eq_or_imp]

theorem mem_vars_of_child
    (hChild : c ∈ ty.children)
    (hMem : v ∈ c.vars) :
    v ∈ ty.vars := by
  cases ty with
  | Named path args =>
      rw [vars]
      exact mem_varsAll.2 ⟨c, hChild, hMem⟩
  | Project path args =>
      rw [vars]
      exact mem_varsAll.2 ⟨c, hChild, hMem⟩
  | Tuple elems =>
      rw [vars]
      exact mem_varsAll.2 ⟨c, hChild, hMem⟩
  | Array elem rank =>
      rw [List.mem_singleton.1 hChild] at hMem
      rw [vars]
      exact hMem
  | Fun arg ret =>
      rw [vars]
      rcases List.mem_cons.1 hChild with rfl | hRet
      · exact List.mem_append_left _ hMem
      · rw [List.mem_singleton.1 hRet] at hMem
        exact List.mem_append_right _ hMem
  | Param i =>
      cases hChild
  | Var w =>
      cases hChild

theorem child_of_mem_vars
    (hTerm : ty.head ≠ none)
    (hMem : v ∈ ty.vars) :
    ∃ c ∈ ty.children, v ∈ c.vars := by
  cases ty with
  | Named path args =>
      rw [vars] at hMem
      exact mem_varsAll.1 hMem
  | Project path args =>
      rw [vars] at hMem
      exact mem_varsAll.1 hMem
  | Tuple elems =>
      rw [vars] at hMem
      exact mem_varsAll.1 hMem
  | Array elem rank =>
      rw [vars] at hMem
      exact ⟨elem, List.mem_singleton.2 rfl, hMem⟩
  | Fun arg ret =>
      rw [vars] at hMem
      rcases List.mem_append.1 hMem with hArg | hRet
      · exact ⟨arg, List.mem_cons_self, hArg⟩
      · exact ⟨ret, List.mem_cons_of_mem _ (List.mem_singleton.2 rfl),
          hRet⟩
  | Param i =>
      rw [vars] at hMem
      cases hMem
  | Var w =>
      exact absurd rfl hTerm

/- Substitutions that agree on its variables agree on a type. -/
theorem subst_congr
    {τ : Nat → Ty}
    (hAgree : ∀ v ∈ ty.vars, σ v = τ v) :
    ty.subst σ = ty.subst τ := by
  induction ty using byChildren with
  | hVar v =>
      rw [subst, subst]
      apply hAgree
      rw [vars]
      exact List.mem_singleton.2 rfl
  | hTerm ty hTerm ih =>
      apply (eq_of_head _ _ _)
      · rw [head_subst hTerm]
        exact hTerm
      · rw [head_subst hTerm, head_subst hTerm]
      · rw [children_subst hTerm, children_subst hTerm]
        apply List.map_congr_left
        intro c hChild
        apply ih c hChild
        intro v hMem
        exact hAgree v (mem_vars_of_child hChild hMem)

theorem subst_subst
    {τ : Nat → Ty} :
    (ty.subst σ).subst τ = ty.subst fun v => (σ v).subst τ := by
  induction ty using byChildren with
  | hVar v =>
      rw [subst, subst]
  | hTerm ty hTerm ih =>
      have hTerm' : (ty.subst σ).head ≠ none := by
        rw [head_subst hTerm]
        exact hTerm
      apply eq_of_head
      · rw [head_subst hTerm']
        exact hTerm'
      · rw [head_subst hTerm', head_subst hTerm, head_subst hTerm]
      · rw [children_subst hTerm', children_subst hTerm,
          children_subst hTerm, List.map_map]
        apply List.map_congr_left
        intro c hChild
        exact ih c hChild

mutual
def size : Ty → Nat
  | .Named _ args => sizeAll args + 1
  | .Project _ args => sizeAll args + 1
  | .Array elem _ => size elem + 1
  | .Tuple elems => sizeAll elems + 1
  | .Fun arg ret => size arg + size ret + 1
  | .Param _ => 1
  | .Var _ => 1

def sizeAll : List Ty → Nat
  | [] => 0
  | ty :: tys => size ty + sizeAll tys
end

theorem size_eq
    (hTerm : ty.head ≠ none) :
    ty.size = sizeAll ty.children + 1 := by
  cases ty with
  | Var v =>
      exact absurd rfl hTerm
  | Array elem rank =>
      simp only [size, children, sizeAll, Nat.add_zero]
  | Fun arg ret =>
      simp only [size, children, sizeAll, Nat.add_zero]
  | Param i =>
      simp only [size, children, sizeAll]
  | _ =>
      simp only [size, children]

theorem size_le_sizeAll
    {tys : List Ty}
    (hMem : c ∈ tys) :
    c.size ≤ sizeAll tys := by
  induction tys with
  | nil =>
      cases hMem
  | cons ty tys ih =>
      rw [sizeAll]
      rcases List.mem_cons.1 hMem with rfl | hIn
      · exact Nat.le_add_right _ _
      · exact Nat.le_trans (ih hIn) (Nat.le_add_left _ _)

theorem size_child
    (hTerm : ty.head ≠ none)
    (hChild : c ∈ ty.children) :
    c.size < ty.size := by
  rw [size_eq hTerm]
  exact Nat.lt_succ_of_le (size_le_sizeAll hChild)

theorem size_subst_child
    (hTerm : ty.head ≠ none)
    (hChild : c ∈ ty.children) :
    (c.subst σ).size < (ty.subst σ).size := by
  apply size_child
  · rw [head_subst hTerm]
    exact hTerm
  · rw [children_subst hTerm]
    exact List.mem_map.2 ⟨c, hChild, rfl⟩

/- The image of a variable is no larger than that of its type. -/
theorem size_subst_var
    (hMem : v ∈ ty.vars) :
    (σ v).size ≤ (ty.subst σ).size := by
  induction ty using byChildren with
  | hVar w =>
      rw [vars] at hMem
      apply Nat.le_of_eq
      rw [List.mem_singleton.1 hMem, subst]
  | hTerm ty hTerm ih =>
      rcases child_of_mem_vars hTerm hMem with ⟨c, hChild, hIn⟩
      exact Nat.le_trans (ih c hChild hIn)
        (Nat.le_of_lt (size_subst_child hTerm hChild))

/- It is smaller where the type is not the variable itself. -/
theorem size_subst_var_lt
    (hTerm : ty.head ≠ none)
    (hMem : v ∈ ty.vars) :
    (σ v).size < (ty.subst σ).size := by
  rcases child_of_mem_vars hTerm hMem with ⟨c, hChild, hIn⟩
  exact Nat.lt_of_le_of_lt (size_subst_var hIn)
    (size_subst_child hTerm hChild)

end Ty

end Unify

end Borzoi
