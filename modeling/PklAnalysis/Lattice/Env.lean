import PklAnalysis.Lattice.Base

/-!
# Definitions of classes and type aliases

Types only name declarations.  A `TypeEnv` says what they are; looking a declaration up may have
an effect, such as reading a module for the first time, so a look-up is an action of a monad.
`TypeEnv.expand` replaces type aliases at the head of a type, and `TypeEnv.asSupertype?` views a
class as one of its ancestors.
-/

namespace PklAnalysis

inductive MemberKind where
  | property
  | method
  deriving DecidableEq, Repr, Inhabited

def MemberKind.text : MemberKind → String
  | .property => "property"
  | .method => "method"

/-- A property or method of a class. -/
structure MemberDef where
  name : String
  kind : MemberKind
  site : Site
  owner : DeclRef
  isAbstract : Bool
  isLocal : Bool
  deriving DecidableEq, Repr, Inhabited

/-- The parameters of a declaration as types. -/
def paramTypes (owner : Site) (params : List TypeParam) : List Ty :=
  params.zipIdx.map fun (p, index) => .param ⟨owner, index, p.name⟩

/-- A class, or a module seen as a class. -/
structure ClassDef where
  decl : DeclRef
  typeParams : List TypeParam
  /-- The superclass in terms of the class's own type parameters. -/
  superclass : Option Ty
  isAbstract : Bool
  isOpen : Bool
  isModule : Bool
  members : List MemberDef
  deriving DecidableEq, Inhabited

namespace ClassDef

/-- The variance of a type parameter. -/
def variance (c : ClassDef) (index : Nat) : Variance :=
  match c.typeParams[index]? with
  | some p => p.variance
  | none => .invariant

/-- The class applied to its own type parameters. -/
def selfType (c : ClassDef) : Ty := .class c.decl (paramTypes c.decl.site c.typeParams)

end ClassDef

structure AliasDef where
  decl : DeclRef
  typeParams : List TypeParam
  target : Ty
  deriving DecidableEq, Inhabited

/-- What classes and type aliases are. -/
structure TypeEnv (m : Type → Type) where
  classDef : DeclRef → m (Option ClassDef)
  aliasDef : DeclRef → m (Option AliasDef)
  base : BaseTypes
  /-- A number that no chain of different classes exceeds. -/
  classCount : m Nat

namespace TypeEnv

variable {m : Type → Type} [Monad m] (env : TypeEnv m)

/-- How many type aliases in a row are replaced. -/
def maxExpansions : Nat := 64

/-- Aliases at the head replaced, at most so many; `seen` holds those already met. -/
def expandFrom : Nat → List Site → Ty → m Ty
  | n, seen, .typeAlias d args =>
    if seen.contains d.site then pure .unknown
    else
      match n with
      | 0 => pure .unknown
      | n + 1 => do
        match ← env.aliasDef d with
        | some a =>
          expandFrom n (d.site :: seen) (a.target.substitute env.base a.decl.site args)
        | none => pure .unknown
  | _, _, t => pure t

/-- A type with the aliases at its head replaced by what they stand for.  An alias without a
definition, or one that leads back to itself, is unknown. -/
def expand (t : Ty) : m Ty := env.expandFrom maxExpansions [] t

/-- The arguments with which a class has an ancestor, climbing at most so far; `seen` holds the
classes already met. -/
def climb (target : Site) : Nat → List Site → DeclRef → List Ty → m (Option (List Ty))
  | n, seen, d, args =>
    if d.site = target then pure (some args)
    else if seen.contains d.site then pure none
    else
      match n with
      | 0 => pure none
      | n + 1 => do
        match ← env.classDef d with
        | none => pure none
        | some c =>
          match c.superclass with
          | none => pure none
          | some s =>
            match ← env.expand (s.substitute env.base c.decl.site args) with
            | .class d' args' => climb target n (d.site :: seen) d' args'
            | _ => pure none

/-- A class seen as one of its ancestors: the arguments of the ancestor.  None if the type is no
class, or the class has no such ancestor. -/
def asSupertype? (t : Ty) (target : DeclRef) : m (Option (List Ty)) := do
  match ← env.expand t with
  | .class d args => env.climb target.site ((← env.classCount) + 1) [] d args
  | _ => pure none

end TypeEnv

end PklAnalysis
