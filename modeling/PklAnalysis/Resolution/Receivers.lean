import PklAnalysis.Resolution.Classes

/-!
# Members of values

What a value of a type has: the classes whose members it shows, the arguments that it gives to the
class that declares a member, and the elements that it holds.  The first two open type aliases
wherever they meet them, so they follow a type only down to a depth that `Bounds` sets; an alias
that contains itself has no answer at any depth.
-/

namespace PklAnalysis.Session

/-! ## Through aliases, question marks and unions -/

/-- How deep types are followed when members are looked for, and what is done where that is not deep
enough. -/
class Bounds where
  depth : Nat
  exceeded : Query Unit

/-- Bounds beyond which nothing is done. -/
@[reducible] def Bounds.atDepth (depth : Nat) : Bounds := ⟨depth, return ()⟩

/-- How deep a type is followed, beyond what any stack holds. -/
def maxUnfolding : Nat := 1000000000

instance : Bounds := .atDepth maxUnfolding

/-- What is found within the bounds, or else a given answer. -/
def bounded [Bounds] {α : Type} (within : Nat → OptionT Query α) (otherwise : α) : Query α := do
  match ← (within Bounds.depth).run with
  | some a => return a
  | none => do
    Bounds.exceeded
    return otherwise

/-- Where nothing is done beyond the bounds, there is the other answer for what is not found. -/
theorem bounded_atDepth {α : Type} (depth : Nat) (within : Nat → OptionT Query α) (otherwise : α) :
    @bounded (.atDepth depth) α within otherwise = do
      return (← (within depth).run).getD otherwise := by
  unfold bounded
  refine congrArg ((within depth).run >>= ·) (funext fun found => ?_)
  cases found <;> rfl

/-- The classes whose members a value shows, down to a depth; none if that is not deep enough. -/
def receiverClassesWithin : Nat → Ty → OptionT Query (List DeclRef)
  | depth, t => do
    match ← (env.expand t : Query Ty) with
    | .class d _ => return [d]
    | .literal _ => return [BaseModule.types.string]
    | .function ps r =>
      match BaseModule.types.functionView ps r with
      | .class d _ => return [d]
      | _ => return []
    | .nullable a =>
      match depth with
      | 0 => failure
      | depth + 1 => return (← receiverClassesWithin depth a) ++ [BaseModule.types.null]
    | .union ms =>
      match depth with
      | 0 => failure
      | depth + 1 => return (← ms.mapM (receiverClassesWithin depth)).flatten
    | .unknown | .nothing | .typeAlias .. | .param _ => return []

/-- The classes whose members a value of a type shows, most specific first. -/
def receiverClasses [Bounds] (t : Ty) : Query (List DeclRef) :=
  bounded (receiverClassesWithin · t) []

/-- The first answer that an action gives on a list. -/
def firstAnswer {m : Type → Type} [Monad m] {α β : Type} (f : α → m (Option β)) :
    List α → m (Option β)
  | [] => return none
  | a :: as => do
    match ← f a with
    | some b => return some b
    | none => firstAnswer f as

/-- The first member with a name that one of some classes has. -/
def firstMember? (name : String) (kind : MemberKind) (ds : List DeclRef) :
    Query (Option MemberDef) :=
  firstAnswer (memberOfClass? · name kind) ds

/-- The most specific member with a name of a value of a type. -/
def memberOfType? [Bounds] (t : Ty) (name : String) (kind : MemberKind) :
    Query (Option MemberDef) := do
  firstMember? name kind (← receiverClasses t)

/-- The arguments that a value gives to a class that it belongs to, down to a depth; none if that is
not deep enough. -/
def ownerArgsWithin (owner : DeclRef) : Nat → Ty → OptionT Query (Option (List Ty))
  | depth, t => do
    match ← (env.expand t : Query Ty) with
    | .class d args => (env.asSupertype? (.class d args) owner : Query _)
    | .function ps r =>
      (env.asSupertype? (BaseModule.types.functionView ps r) owner : Query _)
    | .nullable a =>
      match depth with
      | 0 => failure
      | depth + 1 => ownerArgsWithin owner depth a
    | .union ms =>
      match depth with
      | 0 => failure
      | depth + 1 => firstAnswer (ownerArgsWithin owner depth) ms
    | .unknown | .nothing | .typeAlias .. | .param _ | .literal _ => return none

/-- The arguments that a value of a type gives to a class, if it belongs to it. -/
def ownerArgs? [Bounds] (t : Ty) (owner : DeclRef) : Query (Option (List Ty)) :=
  bounded (ownerArgsWithin owner · t) none

/-- The type of a member of a class on a value of a type. -/
def memberTypeOn [Bounds] (receiver : Ty) (owner : DeclRef) (declared : Ty) : Query Ty := do
  match ← ownerArgs? receiver owner with
  | some args => return (declared.substitute BaseModule.types owner.site args).erase
  | none => return declared.erase

/-- Whether a value of a type may have members that cannot be known, down to a depth; none if that
is not deep enough. -/
def isOpenTypeWithin : Nat → Ty → OptionT Query Bool
  | depth, t => do
    match ← (env.expand t : Query Ty) with
    | .unknown | .param _ => return true
    | .class d _ =>
      if d.site = BaseModule.types.dynamic.site then return true
      else (hasUnknownAncestor d : Query Bool)
    | .nullable a =>
      match depth with
      | 0 => failure
      | depth + 1 => isOpenTypeWithin depth a
    | .union ms =>
      match depth with
      | 0 => failure
      | depth + 1 => ms.anyM (isOpenTypeWithin depth)
    | .nothing | .typeAlias .. | .function .. | .literal _ => return false

/-- Whether a value of a type may have members that cannot be known. -/
def isOpenType [Bounds] (t : Ty) : Query Bool := bounded (isOpenTypeWithin · t) false

/-! ## Elements -/

/-- A type without its question mark. -/
def nonNull : Ty → Ty
  | .nullable a => a
  | t => t

/-- The keys and values of the objects of a class, by the arguments of the class. -/
def elementsBy (types : BaseTypes) : List (DeclRef × (List Ty → Ty × Ty)) :=
  let int := BaseTypes.plain types.int
  let indexed (args : List Ty) : Ty × Ty := (int, argAt args 0)
  let keyed (args : List Ty) : Ty × Ty := (argAt args 0, argAt args 1)
  [(types.listing, indexed), (types.collection, indexed), (types.mapping, keyed),
    (types.map, keyed), (types.pair, keyed), (types.intSeq, fun _ => (int, int))]

/-- The types of the keys and values that a value of a type holds. -/
def elementTypes? (t : Ty) : Query (Option (Ty × Ty)) :=
  firstAnswer (fun (d, elements) => do
    return (← env.asSupertype? t d).map elements) (elementsBy BaseModule.types)

/-! ## Annotations of properties -/

/-- The annotation that a class gives to a property, resolved where it is written. -/
def inheritedType? (name : String) (c : ClassDef) : Query (Option Ty) := do
  match c.members.find? fun m => m.kind = .property && m.name = name with
  | none => return none
  | some m =>
    match ← tree? m.site.module with
    | none => return none
    | some t =>
      match t.kind? m.site.node with
      | some (.property h) => h.type.mapM (resolveType t m.site.node)
      | _ => return none

/-- The annotation of the property at a node, or the nearest one among the declarations with its
name in the ancestors of its class. -/
def declaredPropertyType? (t : Tree) (n : Nat) : Query (Option Ty) :=
  match t.kind? n with
  | some (.property h) =>
    match h.type with
    | some a => some <$> resolveType t n a
    | none =>
      match ownerOf? t n with
      | none => return none
      | some owner => do
        let chain ← ancestors owner
        firstAnswer (inheritedType? h.name) (chain.classes.drop 1)
  | _ => return none

end PklAnalysis.Session
