import PklAnalysis.Lattice.Members
import PklAnalysis.Lattice.Subtyping

/-!
# Tables of types

A `TypeTable` is an environment that is filled by hand: classes and type aliases are numbered as
they are entered, and found again by name.  `TypeTable.withBase` holds the classes of the base
module.
-/

namespace PklAnalysis

structure TypeTable where
  module : ModuleId
  /-- The number of the declaration entered last. -/
  last : Nat
  /-- Definitions, the latest first; the first one of a declaration counts. -/
  classes : List (Site × ClassDef)
  aliases : List (Site × AliasDef)
  /-- Names, the latest first; the first one counts. -/
  names : List (String × DeclRef)
  base : BaseTypes
  deriving Inhabited

namespace TypeTable

/-- What is found under a site is entered there. -/
theorem mem_of_lookup {β : Type} {entries : List (Site × β)} {site : Site} {b : β}
    (h : entries.lookup site = some b) : (site, b) ∈ entries := by
  obtain ⟨before, after, hsplit, -⟩ := List.lookup_eq_some_iff.mp h
  exact hsplit ▸ List.mem_append_right before List.mem_cons_self

/-- The table as an environment. -/
def env (t : TypeTable) : TypeEnv Id where
  classDef d := t.classes.lookup d.site
  aliasDef d := t.aliases.lookup d.site
  base := t.base
  classCount := t.classes.length

/-- A new declaration, to be defined later. -/
def reserve (t : TypeTable) (name : String) : DeclRef × TypeTable :=
  let d : DeclRef := ⟨⟨t.module, t.last + 1⟩, name⟩
  (d, { t with last := t.last + 1, names := (name, d) :: t.names })

def defineClass (t : TypeTable) (d : DeclRef) (params : List TypeParam) (superclass : Option Ty) :
    TypeTable :=
  { t with
    classes := (d.site, ⟨d, params, superclass, false, true, false, []⟩) :: t.classes }

def defineAlias (t : TypeTable) (d : DeclRef) (params : List TypeParam) (target : Ty) :
    TypeTable :=
  { t with aliases := (d.site, ⟨d, params, target⟩) :: t.aliases }

/-- A new class without type parameters; its superclass is `Any` unless another one is given. -/
def addClass (t : TypeTable) (name : String) (superclass : Option Ty) : DeclRef × TypeTable :=
  let (d, t) := t.reserve name
  (d, t.defineClass d [] (some (superclass.getD t.base.anyType)))

/-- A new type alias without type parameters. -/
def addAlias (t : TypeTable) (name : String) (target : Ty) : DeclRef × TypeTable :=
  let (d, t) := t.reserve name
  (d, t.defineAlias d [] target)

def lookup (t : TypeTable) (name : String) : Option DeclRef := t.names.lookup name

/-- The class or type alias with a name, applied to arguments; unknown if there is none. -/
def named (t : TypeTable) (name : String) (args : List Ty) : Ty :=
  match t.lookup name with
  | some d => if (t.aliases.lookup d.site).isSome then .typeAlias d args else .class d args
  | none => .unknown

/-! ## The base classes -/

/-- The greatest number of parameters of a function with a class of its own. -/
def maxArity : Nat := 5

/-- The names of the base classes other than those of functions, in the order of their numbers. -/
def baseNames : List String :=
  ["Any", "Null", "Boolean", "String", "Number", "Int", "Float", "Duration", "DataSize", "Object",
    "Typed", "Dynamic", "Module", "Listing", "Mapping", "Collection", "List", "Set", "Map", "Pair",
    "Regex", "IntSeq", "Function"]

/-- The names of the classes of functions. -/
def functionNames : List String := (List.range (maxArity + 1)).map fun n => "Function" ++ toString n

/-- The module of the base classes. -/
def baseModule : ModuleId := ⟨"pkl:base"⟩

/-- The base class with a number. -/
def baseDecl (number : Nat) (name : String) : DeclRef := ⟨⟨baseModule, number⟩, name⟩

def baseTypes : BaseTypes where
  any := baseDecl 1 "Any"
  null := baseDecl 2 "Null"
  boolean := baseDecl 3 "Boolean"
  string := baseDecl 4 "String"
  number := baseDecl 5 "Number"
  int := baseDecl 6 "Int"
  float := baseDecl 7 "Float"
  duration := baseDecl 8 "Duration"
  dataSize := baseDecl 9 "DataSize"
  object := baseDecl 10 "Object"
  typed := baseDecl 11 "Typed"
  dynamic := baseDecl 12 "Dynamic"
  module := baseDecl 13 "Module"
  listing := baseDecl 14 "Listing"
  mapping := baseDecl 15 "Mapping"
  collection := baseDecl 16 "Collection"
  list := baseDecl 17 "List"
  set := baseDecl 18 "Set"
  map := baseDecl 19 "Map"
  pair := baseDecl 20 "Pair"
  regex := baseDecl 21 "Regex"
  intSeq := baseDecl 22 "IntSeq"
  function := baseDecl 23 "Function"
  functions := functionNames.zipIdx.map fun (name, i) => baseDecl (24 + i) name

/-- A covariant type parameter. -/
def outParam (name : String) : TypeParam := ⟨name, .covariant⟩

/-- The parameters of the class of functions with a number of parameters. -/
def functionParams (arity : Nat) : List TypeParam :=
  (List.range arity).map (fun i => ⟨"Param" ++ toString (i + 1), .contravariant⟩)
    ++ [outParam "Result"]

/-- The base classes with their type parameters and superclasses. -/
def baseClasses : List (DeclRef × List TypeParam × Option Ty) :=
  let b := baseTypes
  let any := some b.anyType
  let object := some (BaseTypes.plain b.object)
  let number := some (BaseTypes.plain b.number)
  let simple := [b.null, b.boolean, b.string, b.number, b.duration, b.dataSize, b.object, b.regex,
    b.intSeq, b.function]
  let sequence (d : DeclRef) : DeclRef × List TypeParam × Option Ty :=
    (d, [outParam "Element"], some (.class b.collection [.param ⟨d.site, 0, "Element"⟩]))
  [(b.any, [], none)] ++ simple.map (fun d => (d, [], any))
    ++ [(b.int, [], number), (b.float, [], number), (b.typed, [], object),
      (b.dynamic, [], object), (b.module, [], some (BaseTypes.plain b.typed)),
      (b.listing, [outParam "Element"], object),
      (b.mapping, [outParam "Key", outParam "Value"], object),
      (b.collection, [outParam "Element"], any), sequence b.list, sequence b.set,
      (b.map, [outParam "Key", outParam "Value"], any),
      (b.pair, [outParam "First", outParam "Second"], any)]
    ++ b.functions.zipIdx.map fun (d, arity) =>
      (d, functionParams arity, some (BaseTypes.plain b.function))

/-- A table with the base classes. -/
def withBase : TypeTable :=
  let names := baseNames ++ functionNames
  let empty : TypeTable :=
    { module := baseModule
      last := names.length
      classes := []
      aliases := []
      names := (names.zipIdx.map fun (name, i) => (name, baseDecl (i + 1) name)).reverse
      base := baseTypes }
  baseClasses.foldl (fun t (d, params, superclass) => t.defineClass d params superclass) empty

end TypeTable

end PklAnalysis
