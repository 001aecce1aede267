import PklAnalysis.Lattice.Env
import PklAnalysis.Tree.Basic

/-!
# What references resolve to
-/

namespace PklAnalysis

inductive DeclarationKind where
  | property
  | method
  | classDecl
  | typeAlias
  | import
  | module
  | parameter
  | letBinding
  | forBinding
  | objectProperty
  deriving DecidableEq, Repr

/-- The word for a kind of declaration. -/
def DeclarationKind.text : DeclarationKind → String
  | .property => "Property"
  | .method => "Method"
  | .classDecl => "Class"
  | .typeAlias => "TypeAlias"
  | .import => "Import"
  | .module => "Module"
  | .parameter => "Parameter"
  | .letBinding => "LetBinding"
  | .forBinding => "ForBinding"
  | .objectProperty => "ObjectProperty"

/-- A declaration that a reference resolves to. -/
structure Declared where
  site : Site
  kind : DeclarationKind
  name : String
  deriving DecidableEq, Repr

namespace Declared

/-- What a node of a tree declares. -/
def atNode (t : Tree) (n : Nat) (kind : DeclarationKind) (name : String) : Declared :=
  ⟨⟨t.id, n⟩, kind, name⟩

/-- The kind of the declaration of a member. -/
def kindOf : MemberKind → DeclarationKind
  | .property => .property
  | .method => .method

/-- The declaration of a member. -/
def ofMember (m : MemberDef) : Declared := ⟨m.site, kindOf m.kind, m.name⟩

end Declared

end PklAnalysis
