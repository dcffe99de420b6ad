import Borzoi.Program.Closure
import Mathlib.Tactic.Common

/-
  The referenced assemblies, as overload resolution reads them.

  Types are looked up by namespace, name and arity.  The supertypes of a
  type are collected over the edges whose target is proved.
-/

namespace Borzoi

namespace Overload

inductive Primitive
  | Void
  | Bool
  | Char
  | I1
  | U1
  | I2
  | U2
  | I4
  | U4
  | I8
  | U8
  | R4
  | R8
  | IntPtr
  | UIntPtr
  | Object
  | String
  deriving DecidableEq, Repr

/- An assembly's identity is read as its name. -/
inductive TypeRef
  | Primitive (p : Primitive)
  | Named
      (assembly : Option String)
      (space : List String)
      (name : String)
      (typeArgs : List TypeRef)
      (segmentArities : List Nat)
  | Var (index : Nat) (isMethod : Bool)
  | Array
      (element : TypeRef)
      (rank : Nat)
      (sizes : List Nat)
      (lowerBounds : List Int)
  | Ptr (pointee : Option TypeRef)
  | ByRef (inner : TypeRef)

inductive ParamDefault
  | None
  | FSharpOptional
  | Optional
  deriving DecidableEq, Repr

structure Parameter where
  ty : TypeRef
  isByref : Bool
  isOut : Bool
  default : ParamDefault
  isParamArray : Bool

structure MethodSignature where
  parameters : List Parameter
  returnType : TypeRef

inductive Access
  | Public
  | Internal
  | Private
  | Protected
  | ProtectedOrInternal
  | ProtectedAndInternal
  deriving DecidableEq, Repr

/- The generic parameters are kept by their number. -/
structure MethodLike where
  name : String
  access : Access
  signature : MethodSignature
  isStatic : Bool
  isConstructor : Bool
  genericParameters : Nat

inductive Member
  | Method (m : MethodLike)
  | Field
  | Property
  | Event

/- The skipped members are kept by their names. -/
structure Entity where
  assembly : String
  access : Access
  baseType : Option TypeRef
  interfaces : List TypeRef
  members : List Member
  skippedMembers : List String

/- The types of one namespace and name. -/
structure NamedTypes (H : Type) where
  all : List H
  firstByArity : Nat → Option H

/- A handle is an index below `size`. -/
structure AssemblyEnv where
  size : Nat
  entity : Fin size → Entity
  typesByNamespace : List String → String → NamedTypes (Fin size)
  namespacesWithDroppedTypes : List String → Bool

inductive BaseEdge (H : Type)
  | Resolved (handle : H)
  | Absent
  | Unprovable

namespace BaseEdge

def resolved
    {H : Type}
    (edge : BaseEdge H) :
    Option H :=
  match edge with
  | .Resolved handle => some handle
  | .Absent | .Unprovable => none

end BaseEdge

namespace AssemblyEnv

/- `EntityHandle`. -/
abbrev Handle
    (env : AssemblyEnv) :
    Type :=
  Fin env.size

variable (env : AssemblyEnv)

def lookupType
    (space : List String)
    (name : String)
    (arity : Nat) :
    Option env.Handle :=
  (env.typesByNamespace space name).firstByArity arity

/- The kinds of the found types are not read. -/
def publicTypesNamed
    (space : List String)
    (name : String) :
    List env.Handle :=
  (env.typesByNamespace space name).all.filter fun handle =>
    (env.entity handle).access == .Public

def namespaceHasDroppedType
    (space : List String) :
    Bool :=
  env.namespacesWithDroppedTypes space

def resolveBase
    (base : TypeRef)
    (declaringAssembly : String) :
    BaseEdge env.Handle :=
  match base with
  | .Named assembly space name typeArgs segmentArities =>
      if typeArgs.isEmpty ∧ segmentArities.all (· == 0) ∧
          ¬name.toList.contains '/' then
        if env.namespaceHasDroppedType space then
          .Unprovable
        else
          match env.lookupType space name 0 with
          | none => .Absent
          | some candidate =>
              let expected := assembly.getD declaringAssembly
              if (env.entity candidate).assembly = expected then
                .Resolved candidate
              else
                .Absent
      else
        .Absent
  | _ => .Absent

/- A resolved base is the type its name is looked up as. -/
theorem lookupType_of_resolveBase
    {assembly : Option String}
    {space : List String}
    {name declaring : String}
    {typeArgs : List TypeRef}
    {segmentArities : List Nat}
    {handle : env.Handle}
    (hResolved :
      (env.resolveBase (.Named assembly space name typeArgs segmentArities)
        declaring).resolved = some handle) :
    env.lookupType space name 0 = some handle := by
  simp only [resolveBase] at hResolved
  split_ifs at hResolved
  · cases hResolved
  · cases hLookup : env.lookupType space name 0 with
    | none =>
        rw [hLookup] at hResolved
        cases hResolved
    | some candidate =>
        rw [hLookup] at hResolved
        dsimp only at hResolved
        split_ifs at hResolved
        · exact hResolved
        · cases hResolved
  · cases hResolved

/- The base type, then the interfaces, as far as they resolve. -/
def baseEdges
    (handle : env.Handle) :
    List env.Handle :=
  let entity := env.entity handle
  (entity.baseType.toList ++ entity.interfaces).filterMap fun base =>
    (env.resolveBase base entity.assembly).resolved

def superTypes
    (start : env.Handle) :
    Finset env.Handle :=
  (Program.closeLoop env.baseEdges ∅ [start]).erase start

/- The supertypes are what the edges reach, but for the start. -/
theorem mem_superTypes_iff
    {start handle : env.Handle} :
    handle ∈ env.superTypes start ↔
      handle ≠ start ∧
        Relation.ReflTransGen (fun a b => b ∈ env.baseEdges a)
          start handle := by
  unfold superTypes
  rw [Finset.mem_erase, Program.mem_closeLoop_iff]

end AssemblyEnv

end Overload

end Borzoi
