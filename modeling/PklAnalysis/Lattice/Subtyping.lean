import PklAnalysis.Lattice.Env

/-!
# Subtyping

`TypeEnv.isSubtype` decides whether every value of one type belongs to another, and
`TypeEnv.haveCommonSubtype` whether two types can have a subtype in common.  The rules are given as
single steps over the relation that they define; the relation itself follows them down to a fixed
depth, beyond which it answers yes.  A pair that is met again while it is being proved is taken to
hold, so recursive types are compared as the infinite types that they stand for.
-/

namespace PklAnalysis

/-- The pairs of types that are being proved, the latest first. -/
abbrev Pending := List (Ty × Ty)

/-- What a rule settles at once, or the pair is left to the rules for its shapes. -/
inductive Shortcut where
  | holds
  | fails
  | open
  deriving DecidableEq, Repr

/-- The rules of subtyping that need no look-up. -/
def subtypeShortcut (a b : Ty) : Shortcut :=
  if a = b then .holds
  else
    match a, b with
    | .unknown, _ | _, .unknown => .holds
    | .param _, _ | _, .param _ => .holds
    | .nothing, _ => .holds
    | _, .nothing => .fails
    | _, _ => .open

/-- The rules of common subtypes that need no look-up. -/
def commonShortcut (a b : Ty) : Shortcut :=
  match a, b with
  | .nothing, _ | _, .nothing => .fails
  | .unknown, _ | _, .unknown => .holds
  | .param _, _ | _, .param _ => .holds
  | a, b => if a = b then .holds else .open

/-- An argument, or the unknown type if it is missing. -/
def argAt (args : List Ty) (i : Nat) : Ty := args[i]?.getD .unknown

/-- The variance of a parameter of a class; without a definition it is invariant. -/
def varianceIn (c : Option ClassDef) (i : Nat) : Variance :=
  match c with
  | some c => c.variance i
  | none => .invariant

namespace TypeEnv

section Steps

/- The steps run in a monad `n` over that of the environment; `sub` and `common` are the relations
that they defer to. -/
variable {m : Type → Type} [Monad m] {n : Type → Type} [Monad n] [MonadLiftT m n]
variable (env : TypeEnv m) (sub common : Ty → Ty → n Bool)

/-- The arguments of a class agree with those of the same class, each as its parameter varies. -/
def argsSubtype (c : Option ClassDef) (ours theirs : List Ty) : n Bool :=
  (List.range (max ours.length theirs.length)).allM fun i =>
    let a := argAt ours i
    let b := argAt theirs i
    match varianceIn c i with
    | .covariant => sub a b
    | .contravariant => sub b a
    | .invariant => sub a b <&&> sub b a

/-- A class is below another one if it has it as an ancestor with arguments that agree. -/
def classSubtype (a : Ty) (target : DeclRef) (targetArgs : List Ty) : n Bool := do
  match ← (env.asSupertype? a target : m _) with
  | none => pure false
  | some view =>
    let c ← (env.classDef target : m _)
    argsSubtype sub c view targetArgs

/-- One step of subtyping, for two types that no shortcut settles. -/
def subtypeStep (a b : Ty) : n Bool :=
  match a, b with
  | .typeAlias .., _ => do sub (← (env.expand a : m _)) b
  | _, .typeAlias .. => do sub a (← (env.expand b : m _))
  | .union ms, _ => ms.allM fun t => sub t b
  | .nullable t, _ => sub t b <&&> sub env.base.nullType b
  | _, .union ms => ms.anyM fun t => sub a t
  | _, .nullable t => if env.base.isNull a then pure true else sub a t
  | .literal _, .literal _ => pure false
  | .literal _, _ => sub env.base.stringType b
  | _, .literal _ => pure false
  | .function ps r, .function qs s =>
    if ps.length = qs.length then
      ((ps.zip qs).allM fun (p, q) => sub q p) <&&> sub r s
    else pure false
  | .function ps r, .class .. => sub (env.base.functionView ps r) b
  | .class .., .function ps r =>
    match env.base.functions[ps.length]? with
    | none => pure false
    | some f => do
      match ← (env.asSupertype? a f : m _) with
      | none => pure false
      | some args =>
        (ps.zipIdx.allM fun (p, i) => sub p (argAt args i)) <&&> sub (argAt args ps.length) r
  | .class .., .class target targetArgs => env.classSubtype sub a target targetArgs
  | _, _ => pure false

/-- Two lists of arguments of one class can be refined to the same arguments. -/
def argsCommon (c : Option ClassDef) (ours theirs : List Ty) : n Bool :=
  (List.range (max ours.length theirs.length)).allM fun i =>
    let a := argAt ours i
    let b := argAt theirs i
    match varianceIn c i with
    | .covariant => common a b
    | .contravariant => pure true
    | .invariant => sub a b <&&> sub b a

/-- One step towards a common subtype, for two types that no shortcut settles. -/
def commonStep (a b : Ty) : n Bool :=
  match a, b with
  | .typeAlias .., _ => do common (← (env.expand a : m _)) b
  | _, .typeAlias .. => do common a (← (env.expand b : m _))
  | .union ms, _ => ms.anyM fun t => common t b
  | _, .union ms => ms.anyM fun t => common a t
  | .nullable _, .nullable _ => pure true
  | .nullable t, _ => common t b <||> sub env.base.nullType b
  | _, .nullable t => common t a <||> sub env.base.nullType a
  | .literal _, _ => sub a b
  | _, .literal _ => sub b a
  | .function ps r, .function qs s =>
    -- parameters always have a supertype in common
    if ps.length = qs.length then common r s else pure false
  | .function ps r, .class .. => common (env.base.functionView ps r) b
  | .class .., .function ps r => common a (env.base.functionView ps r)
  | .class c as, .class d bs => do
    match ← (env.asSupertype? a d : m _) with
    | some view => argsCommon sub common (← (env.classDef d : m _)) view bs
    | none =>
      match ← (env.asSupertype? b c : m _) with
      | some view => argsCommon sub common (← (env.classDef c : m _)) as view
      | none => pure false
  | _, _ => pure false

end Steps

variable {m : Type → Type} [Monad m] (env : TypeEnv m)

/-- Subtyping down to a depth.  The state holds the pairs being proved. -/
def subtypeWithin : Nat → Ty → Ty → StateT Pending m Bool
  | depth, a, b =>
    match subtypeShortcut a b with
    | .holds => pure true
    | .fails => pure false
    | .open =>
      match depth with
      | 0 => pure true
      | depth + 1 => do
        if (← get).contains (a, b) then pure true
        else
          modify ((a, b) :: ·)
          let answer ← env.subtypeStep (subtypeWithin depth) a b
          modify (·.erase (a, b))
          pure answer

/-- Common subtypes down to a depth. -/
def commonWithin : Nat → Ty → Ty → StateT Pending m Bool
  | depth, a, b =>
    match commonShortcut a b with
    | .holds => pure true
    | .fails => pure false
    | .open =>
      match depth with
      | 0 => pure true
      | depth + 1 => env.commonStep (env.subtypeWithin depth) (commonWithin depth) a b

/-- How deep the relations follow their rules. -/
def maxRelationDepth : Nat := 96

/-- Whether every value of one type belongs to another. -/
def isSubtype (a b : Ty) : m Bool := (env.subtypeWithin maxRelationDepth a b).run' []

/-- Whether two types can have a subtype in common that has values. -/
def haveCommonSubtype (a b : Ty) : m Bool := (env.commonWithin maxRelationDepth a b).run' []

/-- Whether two types are subtypes of each other. -/
def isEquivalent (a b : Ty) : m Bool := env.isSubtype a b <&&> env.isSubtype b a

end TypeEnv

end PklAnalysis
