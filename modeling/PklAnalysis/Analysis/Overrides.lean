import PklAnalysis.Resolution.Inference

/-!
# Overriding and implementing

A property or method overrides the nearest member of the same name and kind among the ancestors of
its class, or implements it if that one is abstract.  Local members are never overridden.
-/

namespace PklAnalysis

inductive OverrideKind where
  | implements
  | overrides
  deriving DecidableEq, Repr

/-- The member of an ancestor that a member takes the place of. -/
structure SuperMember where
  member : MemberDef
  kind : OverrideKind
  deriving DecidableEq, Repr

namespace Session

/-- The first member of a class that is not local, by its name. -/
def visibleMember? (name : String) (kind : MemberKind) (c : ClassDef) : Option MemberDef :=
  c.members.find? fun m => m.kind = kind && !m.isLocal && m.name = name

/-- The name and the kind of the member that a node declares. -/
def memberName? : NodeKind → Option (String × MemberKind)
  | .property h => some (h.name, .property)
  | .method h => some (h.name, .method)
  | _ => none

/-- The member that the one at a node overrides or implements. -/
def superMember? (t : Tree) (n : Nat) : Query (Option SuperMember) := do
  adopt t
  match (t.kind? n).bind memberName?, ownerOf? t n with
  | some (name, kind), some owner =>
    let chain ← ancestors owner
    return ((chain.classes.drop 1).findSome? (visibleMember? name kind)).map fun m =>
      ⟨m, if m.isAbstract then .implements else .overrides⟩
  | _, _ => return none

end Session

end PklAnalysis
