import PklAnalysis.Resolution.Receivers

/-!
# Completion

The members that can stand after a value of a type: those of the classes that the value shows, a
name of a kind only once, for the first class that has it.
-/

namespace PklAnalysis

/-- A member that can be completed. -/
structure Completion where
  name : String
  kind : MemberKind
  /-- The name of the class that declares the member. -/
  owner : String
  deriving DecidableEq, Repr

namespace Completion

def ofMember (m : MemberDef) : Completion := ⟨m.name, m.kind, m.owner.name⟩

/-- Whether two completions are of the same name and kind. -/
def clashes (a b : Completion) : Bool := a.name = b.name && a.kind = b.kind

/-- Completions without those that clash with earlier ones, put behind given ones. -/
def addNew (given : List Completion) (more : List Completion) : List Completion :=
  more.foldl (fun cs c => if cs.any c.clashes then cs else cs ++ [c]) given

end Completion

namespace Session

/-- The members that a class shows, properties first. -/
def completionsOf (d : DeclRef) : Query (List Completion) := do
  let cache ← membersOfClass d
  return (cache.properties ++ cache.methods).map fun e => Completion.ofMember e.member

/-- The members of a value of a type, most specific first. -/
def completeMembers [Bounds] (t : Ty) : Query (List Completion) := do
  let lists ← (← receiverClasses t).mapM completionsOf
  return Completion.addNew [] lists.flatten

end Session

end PklAnalysis
