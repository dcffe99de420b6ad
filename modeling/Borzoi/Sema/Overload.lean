import Borzoi.Sema.AssemblyEnv
import Borzoi.Sema.Unify

/-
  The overload applicability matcher.

  A call commits a candidate that `mustApply` affirms when `mayApply`
  refutes every other one.  The first is an under-approximation of
  applicability, the second an over-approximation.
-/

namespace Borzoi

namespace Overload

open Unify (Ty)

structure ArityWindow where
  min : Nat
  max : Option Nat
  deriving DecidableEq, Repr

namespace ArityWindow

def contains
    (window : ArityWindow)
    (n : Nat) :
    Bool :=
  window.min ≤ n && window.max.all (n ≤ ·)

end ArityWindow

/- Optional or out, but not both. -/
def isOmittable
    (p : Parameter) :
    Bool :=
  let optional := match p.default with
    | .Optional | .FSharpOptional => true
    | .None => false
  optional ^^ p.isOut

/- The last of some parameters is a parameter array. -/
def endsInParamArray
    (params : List Parameter) :
    Bool :=
  params.getLast?.any (·.isParamArray)

/- The trailing omittable parameters. -/
def omittable
    (params : List Parameter) :
    List (Parameter × Nat) :=
  params.zipIdx.reverse.takeWhile fun (p, i) =>
    (i + 1 == params.length && p.isParamArray) || isOmittable p

def arityWindow
    (method : MethodLike) :
    ArityWindow where
  min := method.signature.parameters.length -
    (omittable method.signature.parameters).length
  max :=
    if endsInParamArray method.signature.parameters then
      none
    else
      some method.signature.parameters.length

/- A sealed primitive or a vector of one, by its canonical path. -/
inductive ClosedTy
  | Prim (canon : String)
  | Vector (canon : String)
  deriving DecidableEq, Repr

/- `SEALED_PRIMITIVES`. -/
def sealedPrimitives :
    List String :=
  ["System.SByte", "System.Byte", "System.Int16", "System.UInt16",
    "System.Int32", "System.UInt32", "System.Int64", "System.UInt64",
    "System.IntPtr", "System.UIntPtr", "System.Single", "System.Double",
    "System.Decimal", "System.String", "System.Char", "System.Boolean"]

def sealedCanonStr
    (dotted : String) :
    Option String :=
  sealedPrimitives.find? (· == dotted)

def sealedCanonPath
    (path : List String) :
    Option String :=
  sealedCanonStr (".".intercalate path)

def primitiveCanon
    (p : Primitive) :
    Option String :=
  match p with
  | .Void => none
  | .Bool => some "System.Boolean"
  | .Char => some "System.Char"
  | .I1 => some "System.SByte"
  | .U1 => some "System.Byte"
  | .I2 => some "System.Int16"
  | .U2 => some "System.UInt16"
  | .I4 => some "System.Int32"
  | .U4 => some "System.UInt32"
  | .I8 => some "System.Int64"
  | .U8 => some "System.UInt64"
  | .R4 => some "System.Single"
  | .R8 => some "System.Double"
  | .IntPtr => some "System.IntPtr"
  | .UIntPtr => some "System.UIntPtr"
  | .Object => some "System.Object"
  | .String => some "System.String"

def dottedOf
    (space : List String)
    (name : String) :
    String :=
  if space.isEmpty then
    name
  else
    ".".intercalate space ++ "." ++ name

/- No type arguments, and no arity on any segment. -/
def isNongeneric
    (typeArgs : List TypeRef)
    (segmentArities : List Nat) :
    Bool :=
  typeArgs.isEmpty && segmentArities.all (· == 0)

/- No sizes and no lower bounds. -/
def isUnbounded
    (sizes : List Nat)
    (lowerBounds : List Int) :
    Bool :=
  sizes.isEmpty && lowerBounds.isEmpty

def canonOfTypeRef
    (ty : TypeRef) :
    Option String :=
  match ty with
  | .Primitive p => primitiveCanon p
  | .Named _ space name typeArgs segmentArities =>
      if isNongeneric typeArgs segmentArities then
        some (dottedOf space name)
      else
        none
  | _ => none

namespace ClosedTy

/- A named type as a sealed primitive. -/
def primOf
    (ty : Ty) :
    Option String :=
  match ty with
  | .Named path [] => sealedCanonPath path
  | _ => none

def ofTy
    (ty : Ty) :
    Option ClosedTy :=
  match ty with
  | .Named path args => (primOf (.Named path args)).map .Prim
  | .Array elem 1 => (primOf elem).map .Vector
  | _ => none

/- A vector of what is a sealed primitive. -/
def vectorOf
    (element : Option ClosedTy) :
    Option ClosedTy :=
  match element with
  | some (.Prim canon) => some (.Vector canon)
  | _ => none

def ofTypeRef
    (ty : TypeRef) :
    Option ClosedTy :=
  match ty with
  | .Primitive p => ((primitiveCanon p).bind sealedCanonStr).map .Prim
  | .Named _ space name typeArgs segmentArities =>
      if isNongeneric typeArgs segmentArities then
        (sealedCanonStr (dottedOf space name)).map .Prim
      else
        none
  | .Array element rank sizes lowerBounds =>
      if rank = 1 ∧ isUnbounded sizes lowerBounds then
        vectorOf (ofTypeRef element)
      else
        none
  | _ => none

end ClosedTy

def isBuiltinWidening
    (source target : String) :
    Bool :=
  source == "System.Int32" &&
    ["System.Int64", "System.IntPtr", "System.Double"].contains target

/- `split('.')`. -/
def segments
    (canon : String) :
    List String :=
  (canon.toList.splitOn '.').map String.ofList

namespace AssemblyEnv

variable (env : AssemblyEnv)

/- `split_last`, then the type of that name. -/
def lookupPath
    (path : List String) :
    Option env.Handle :=
  path.getLast?.bind fun name => env.lookupType path.dropLast name 0

/- `rsplit_once` and `split` leave the segments but the last. -/
def lookupCanon
    (canon : String) :
    Option env.Handle :=
  env.lookupPath (segments canon)

def hasSkippedOpImplicit
    (handle : env.Handle) :
    Bool :=
  (env.entity handle).skippedMembers.contains "op_Implicit"

def isOpImplicit
    (source target : String)
    (m : MethodLike) :
    Bool :=
  m.isStatic && m.access == .Public && !m.isConstructor &&
    m.genericParameters == 0 && m.name == "op_Implicit" &&
    (match m.signature.parameters with
      | [p] => !p.isByref && canonOfTypeRef p.ty == some source
      | _ => false) &&
    canonOfTypeRef m.signature.returnType == some target

def declaresOpImplicit
    (handle : env.Handle)
    (source target : String) :
    Bool :=
  (env.entity handle).members.any fun member =>
    match member with
    | .Method m => isOpImplicit source target m
    | _ => false

def opImplicitExists
    (source target : String) :
    Bool :=
  match env.lookupCanon source, env.lookupCanon target with
  | some s, some t =>
      env.hasSkippedOpImplicit s || env.hasSkippedOpImplicit t ||
        env.declaresOpImplicit s source target ||
          env.declaresOpImplicit t source target
  | _, _ => true

def noConversionChannel
    (a p : ClosedTy) :
    Bool :=
  if a = p then
    false
  else
    match a, p with
    | .Prim source, .Prim target =>
        !(isBuiltinWidening source target ||
          env.opImplicitExists source target)
    | _, _ => true

/- An argument against a closed type, refuted only when it is closed. -/
def closedRefuted
    (a : Ty)
    (param : ClosedTy) :
    Bool :=
  match ClosedTy.ofTy a with
  | some arg => env.noConversionChannel arg param
  | none => false

def positionRefuted
    (a : Ty)
    (p : Parameter) :
    Bool :=
  if p.isByref then
    false
  else
    match ClosedTy.ofTypeRef p.ty with
    | some param => env.closedRefuted a param
    | none => false

/- `args[i]` against `params[i]`, as far as both go. -/
def someRefuted
    (args : List Ty)
    (params : List Parameter) :
    Bool :=
  (args.zip params).any fun (a, p) => env.positionRefuted a p

/- The element type of a plain vector that is in the closed set. -/
def closedElement
    (ty : TypeRef) :
    Option ClosedTy :=
  match ty with
  | .Array element rank sizes lowerBounds =>
      if rank = 1 ∧ isUnbounded sizes lowerBounds then
        ClosedTy.ofTypeRef element
      else
        none
  | _ => none

/- The fixed parameters, then the surplus against the element type. -/
def expandedRefuted
    (params : List Parameter)
    (args : List Ty) :
    Bool :=
  env.someRefuted args params.dropLast ||
    match params.getLast?.bind fun p => closedElement p.ty with
    | some elem =>
        (args.drop (params.length - 1)).any fun a =>
          env.closedRefuted a elem
    | none => false

/- The declaring assembly is passed on, and read by nothing below. -/
def mayApply
    (method : MethodLike)
    (_declaring : String)
    (args : List Ty) :
    Bool :=
  let params := method.signature.parameters
  if !(arityWindow method).contains args.length then
    false
  else if !endsInParamArray params then
    !env.someRefuted args params
  else if args.length + 1 < params.length then
    true
  else
    !env.expandedRefuted params args ||
      (args.length == params.length && !env.someRefuted args params)

end AssemblyEnv

mutual

/- `Ty::is_ground`. -/
def isGround
    (ty : Ty) :
    Bool :=
  match ty with
  | .Named _ args => allGround args
  | .Project _ args => allGround args
  | .Array elem _ => isGround elem
  | .Tuple elems => allGround elems
  | .Fun arg ret => isGround arg && isGround ret
  | .Param _ => true
  | .Var _ => false

def allGround
    (tys : List Ty) :
    Bool :=
  match tys with
  | [] => true
  | ty :: rest => isGround ty && allGround rest

end

def namedMatches
    (path : List String)
    (p : TypeRef) :
    Bool :=
  match p with
  | .Primitive prim => (primitiveCanon prim).any (".".intercalate path == ·)
  | .Named _ space name typeArgs segmentArities =>
      isNongeneric typeArgs segmentArities &&
        path.length == space.length + 1 &&
          path.take space.length == space &&
            path[space.length]? == some name
  | _ => false

def tyEquiv
    (a : Ty)
    (p : TypeRef) :
    Bool :=
  match a, p with
  | .Named path args, p => args.isEmpty && namedMatches path p
  | .Array elem rank, .Array element rank' sizes lowerBounds =>
      isUnbounded sizes lowerBounds && rank == rank' &&
        tyEquiv elem element
  | _, _ => false

namespace AssemblyEnv

variable (env : AssemblyEnv)

/- A named head whose identity the index cannot prove. -/
def headUnprovable
    (path : List String) :
    Bool :=
  if (sealedCanonPath path).isSome ∨ path = ["System", "Object"] then
    false
  else
    match path.getLast? with
    | none => false
    | some name =>
        1 < (env.publicTypesNamed path.dropLast name).length ||
          env.namespaceHasDroppedType path.dropLast

mutual

def tyNamedUnprovable
    (a : Ty) :
    Bool :=
  match a with
  | .Named path args => anyUnprovable args || env.headUnprovable path
  | .Array elem _ => tyNamedUnprovable elem
  | _ => false

def anyUnprovable
    (tys : List Ty) :
    Bool :=
  match tys with
  | [] => false
  | ty :: rest => tyNamedUnprovable ty || anyUnprovable rest

end

def resolveSuperHandle
    (p : TypeRef)
    (declaring : String) :
    Option env.Handle :=
  match p with
  | .Primitive prim => (primitiveCanon prim).bind env.lookupCanon
  | .Named _ _ _ _ _ => (env.resolveBase p declaring).resolved
  | _ => none

def isSubtype
    (a : Ty)
    (p : TypeRef)
    (declaring : String) :
    Bool :=
  match a with
  | .Named path [] =>
      match env.lookupPath path, env.resolveSuperHandle p declaring with
      | some sub, some super => super ∈ env.superTypes sub
      | _, _ => false
  | _ => false

def argAffirms
    (a : Ty)
    (p : TypeRef)
    (declaring : String) :
    Bool :=
  if env.tyNamedUnprovable a then
    false
  else
    tyEquiv a p || env.isSubtype a p declaring

/- `args[i]` affirmed against `params[i]`, as far as both go. -/
def allAffirmed
    (declaring : String)
    (args : List Ty)
    (params : List Parameter) :
    Bool :=
  (args.zip params).all fun (a, p) => env.argAffirms a p.ty declaring

/- The surplus arguments against the trailing array. -/
def surplusAffirmed
    (ty : TypeRef)
    (declaring : String)
    (surplus : List Ty) :
    Bool :=
  match ty with
  | .Array element rank sizes lowerBounds =>
      rank == 1 && isUnbounded sizes lowerBounds &&
        (ClosedTy.ofTypeRef element).isSome &&
          surplus.all fun a => env.argAffirms a element declaring
  | _ => false

def mustApplyExpanded
    (params : List Parameter)
    (declaring : String)
    (args : List Ty) :
    Bool :=
  if args.length + 1 < params.length then
    false
  else
    env.allAffirmed declaring args params.dropLast &&
      params.getLast?.any fun last =>
        env.surplusAffirmed last.ty declaring
          (args.drop (params.length - 1))

def mustApply
    (method : MethodLike)
    (declaring : String)
    (args : List Ty) :
    Bool :=
  let params := method.signature.parameters
  if method.genericParameters ≠ 0 ∨ method.isConstructor then
    false
  else if params.any fun p => p.isByref || p.isOut then
    false
  else if !args.all isGround then
    false
  else if endsInParamArray params then
    env.mustApplyExpanded params declaring args
  else
    args.length == params.length && env.allAffirmed declaring args params

/- A method with the level it is read from and its index there. -/
structure Candidate where
  level : env.Handle
  idx : Nat
  method : MethodLike

def candidateMay
    (args : List Ty)
    (c : env.Candidate) :
    Bool :=
  env.mayApply c.method (env.entity c.level).assembly args

def candidateMust
    (args : List Ty)
    (c : env.Candidate) :
    Bool :=
  env.mustApply c.method (env.entity c.level).assembly args

def resolveOverload
    (group : List env.Candidate)
    (args : List Ty) :
    Option env.Candidate :=
  match group.filter (env.candidateMay args) with
  | [] => none
  | [c] => if env.candidateMust args c then some c else none
  | _ :: _ :: _ => none

end AssemblyEnv

end Overload

end Borzoi
