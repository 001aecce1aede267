import PklAnalysis.Binary64.Basic
import PklAnalysis.Declaration
import PklAnalysis.Span

/-!
# Descriptions of modules

The parsed form of a module as a parser hands it over: declarations in the order in which they
are written, expressions and object members as trees, annotations already read.  A declaration may
say where it stands; expressions and object members never do.
-/

namespace PklAnalysis.Source

/-- A modifier as it is written. -/
inductive Modifier where
  | abstract
  | open
  | local
  | external
  | hidden
  | fixed
  | const
  deriving DecidableEq, Repr

/-- The modifiers of a list that the analysis takes into account. -/
def modifiersOf (ms : List Modifier) : Modifiers where
  isAbstract := .abstract ∈ ms
  isOpen := .open ∈ ms
  isLocal := .local ∈ ms
  isExternal := .external ∈ ms

structure Import where
  uri : String
  /-- The name that stands after `as`. -/
  asName : Option String
  isGlob : Bool
  span : Option Span
  deriving DecidableEq

/-- The import without its place. -/
def Import.clause (i : Import) : PklAnalysis.Import := ⟨i.uri, i.asName, i.isGlob⟩

mutual

/-- An expression. -/
inductive Expr where
  | string (value : String)
  | int (value : Int)
  | float (value : Binary64)
  | boolean (value : Bool)
  | null
  | ident (name : String)
  | access (receiver : Expr) (name : String) (nullSafe : Bool)
  | call (receiver : Option Expr) (name : String) (args : List Expr)
  | this
  | module
  | letIn (name : String) (type : Option TypeExpr) (value : Expr) (body : Expr)
  | lambda (params : List Binding) (body : Expr)
  | new (type : Option TypeExpr) (body : List Member)
  | amend (parent : Expr) (body : List Member)
  | conditional (condition : Expr) (consequent : Expr) (alternative : Expr)
  | importExpr (uri : String) (isGlob : Bool)

/-- A member of an object body. -/
inductive Member where
  | property (name : String) (type : Option TypeExpr) (value : Option Expr)
      (body : Option (List Member))
  | element (value : Expr)
  | entry (key : Expr) (value : Expr)
  | generator (key : Option String) (value : String) (iterable : Expr) (body : List Member)
  | when (condition : Expr) (body : List Member) (otherwise : Option (List Member))

end

structure Property where
  name : String
  type : Option TypeExpr
  modifiers : List Modifier
  value : Option Expr
  body : Option (List Member)
  span : Option Span

structure Method where
  name : String
  typeParams : List TypeParam
  params : List Binding
  returns : Option TypeExpr
  modifiers : List Modifier
  body : Option Expr
  span : Option Span

structure Class where
  name : String
  typeParams : List TypeParam
  superclass : Option TypeExpr
  modifiers : List Modifier
  properties : List Property
  methods : List Method
  span : Option Span

structure Alias where
  name : String
  typeParams : List TypeParam
  target : TypeExpr
  modifiers : List Modifier
  span : Option Span

structure Module where
  uri : String
  name : Option String
  isOpen : Bool
  amends : Option String
  superModule : Option String
  imports : List Import
  classes : List Class
  aliases : List Alias
  properties : List Property
  methods : List Method

/-- Why a description makes no module. -/
inductive Defect where
  | emptyUri
  /-- A module either amends or extends another one. -/
  | twoClauses (uri : String)
  deriving DecidableEq, Repr

def Defect.message : Defect → String
  | .emptyUri => "Invalid module source: module uri is empty"
  | .twoClauses uri => "Invalid module source: module '" ++ uri ++ "' both amends and extends"

/-- The first defect of a description. -/
def Module.defect? (m : Module) : Option Defect :=
  if Text.isBlankText m.uri then some .emptyUri
  else if m.amends.isSome && m.superModule.isSome then some (.twoClauses m.uri)
  else none

/-! ## Equality -/

mutual

/-- Whether two expressions agree node for node. -/
def Expr.same : Expr → Expr → Bool
  | .string s, .string t => s = t
  | .int i, .int j => i = j
  | .float x, .float y => x = y
  | .boolean a, .boolean b => a = b
  | .null, .null => true
  | .ident m, .ident n => m = n
  | .access r m s, .access q n t => Expr.same r q && m = n && s = t
  | .call r m as, .call q n bs => sameReceiver r q && m = n && sameExprs as bs
  | .this, .this => true
  | .module, .module => true
  | .letIn m a v b, .letIn n c w d => m = n && a = c && Expr.same v w && Expr.same b d
  | .lambda ps b, .lambda qs d => ps = qs && Expr.same b d
  | .new a ms, .new c ns => a = c && sameMembers ms ns
  | .amend p ms, .amend q ns => Expr.same p q && sameMembers ms ns
  | .conditional a b c, .conditional d e f => Expr.same a d && Expr.same b e && Expr.same c f
  | .importExpr u g, .importExpr v h => u = v && g = h
  | _, _ => false

def sameReceiver : Option Expr → Option Expr → Bool
  | none, none => true
  | some a, some b => Expr.same a b
  | _, _ => false

def sameExprs : List Expr → List Expr → Bool
  | [], [] => true
  | a :: as, b :: bs => Expr.same a b && sameExprs as bs
  | _, _ => false

/-- Whether two object members agree node for node. -/
def Member.same : Member → Member → Bool
  | .property m a v b, .property n c w d =>
    m = n && a = c && sameReceiver v w && sameBody b d
  | .element a, .element b => Expr.same a b
  | .entry k v, .entry l w => Expr.same k l && Expr.same v w
  | .generator k v e b, .generator l w f d =>
    k = l && v = w && Expr.same e f && sameMembers b d
  | .when e b o, .when f d p => Expr.same e f && sameMembers b d && sameBody o p
  | _, _ => false

def sameBody : Option (List Member) → Option (List Member) → Bool
  | none, none => true
  | some a, some b => sameMembers a b
  | _, _ => false

def sameMembers : List Member → List Member → Bool
  | [], [] => true
  | a :: as, b :: bs => Member.same a b && sameMembers as bs
  | _, _ => false

end

mutual

theorem Expr.same_iff (a b : Expr) : Expr.same a b = true ↔ a = b := by
  cases a <;> cases b <;>
    simp [Expr.same, Expr.same_iff, sameReceiver_iff, sameExprs_iff, sameMembers_iff, and_assoc]
termination_by structural a

theorem sameReceiver_iff (a b : Option Expr) : sameReceiver a b = true ↔ a = b := by
  cases a <;> cases b <;> simp [sameReceiver, Expr.same_iff]
termination_by structural a

theorem sameExprs_iff (as bs : List Expr) : sameExprs as bs = true ↔ as = bs := by
  cases as <;> cases bs <;> simp [sameExprs, Expr.same_iff, sameExprs_iff]
termination_by structural as

theorem Member.same_iff (a b : Member) : Member.same a b = true ↔ a = b := by
  cases a <;> cases b <;>
    simp [Member.same, Expr.same_iff, sameReceiver_iff, sameBody_iff, sameMembers_iff, and_assoc]
termination_by structural a

theorem sameBody_iff (a b : Option (List Member)) : sameBody a b = true ↔ a = b := by
  cases a <;> cases b <;> simp [sameBody, sameMembers_iff]
termination_by structural a

theorem sameMembers_iff (as bs : List Member) : sameMembers as bs = true ↔ as = bs := by
  cases as <;> cases bs <;> simp [sameMembers, Member.same_iff, sameMembers_iff]
termination_by structural as

end

instance : DecidableEq Expr := fun a b => decidable_of_iff _ (Expr.same_iff a b)

instance : DecidableEq Member := fun a b => decidable_of_iff _ (Member.same_iff a b)

deriving instance DecidableEq for Property, Method, Class, Alias, Module

end PklAnalysis.Source
