import PklAnalysis.Lattice.Table
import PklAnalysis.Source.Outline

/-!
# The base module

Every module sees the declarations of `pkl:base` as its outermost scope.  Only signatures matter
for the analysis, so the members of the base module have types and no bodies.
-/

namespace PklAnalysis.BaseModule

open Source (Method Property Alias)

/-- The URI of the base module, which is also its identity. -/
def uri : String := "pkl:base"

def id : ModuleId := ⟨uri⟩

/-! ## Annotations -/

def int : TypeExpr := .simple "Int"

def string : TypeExpr := .simple "String"

def boolean : TypeExpr := .simple "Boolean"

def number : TypeExpr := .simple "Number"

def any : TypeExpr := .simple "Any"

def element : TypeExpr := .simple "Element"

def result : TypeExpr := .simple "Result"

/-- A generic class applied to one argument. -/
def of (name : String) (argument : TypeExpr) : TypeExpr := .named name [argument]

/-- A generic class applied to two arguments. -/
def of2 (name : String) (first second : TypeExpr) : TypeExpr := .named name [first, second]

/-- Alternatives that are string literals. -/
def literals (texts : List String) : TypeExpr := .union (texts.map .literal)

/-! ## Declarations -/

def property (name : String) (type : TypeExpr) : Property where
  name := name
  type := some type
  modifiers := [.external]
  value := none
  body := none
  span := none

def method (name : String) (params : List (String × TypeExpr)) (returns : TypeExpr) : Method where
  name := name
  typeParams := []
  params := params.map fun (name, type) => ⟨name, some type⟩
  returns := some returns
  modifiers := [.external]
  body := none
  span := none

/-- A method with type parameters. -/
def generic (m : Method) (names : List String) : Method :=
  { m with typeParams := names.map fun name => ⟨name, .invariant⟩ }

def classNamed (name : String) (properties : List Property) (methods : List Method) :
    Source.Class where
  name := name
  typeParams := []
  superclass := none
  modifiers := [.external]
  properties := properties
  methods := methods
  span := none

def abstract (c : Source.Class) : Source.Class := { c with modifiers := c.modifiers ++ [.abstract] }

def extending (superclass : TypeExpr) (c : Source.Class) : Source.Class :=
  { c with superclass := some superclass }

/-- A class with covariant type parameters. -/
def producing (names : List String) (c : Source.Class) : Source.Class :=
  { c with typeParams := names.map fun name => ⟨name, .covariant⟩ }

def typeAlias (name : String) (target : TypeExpr) : Alias := ⟨name, [], target, [], none⟩

/-! ## Classes -/

/-- The classes of plain values. -/
def valueClasses : List Source.Class :=
  let pattern := [("pattern", TypeExpr.union [string, .simple "Regex"])]
  let quantity (name unit : String) : Source.Class :=
    classNamed name [property "value" number, property "unit" (.simple unit)]
      [method "toUnit" [("unit", .simple unit)] (.simple name)]
  [abstract (classNamed "Any" []
      [method "getClass" [] (.simple "Class"), method "toString" [] string,
        method "ifNonNull" [("transform", .function [any] any)] any]),
    classNamed "Class" [property "simpleName" string] [],
    classNamed "Null" [] [],
    classNamed "Boolean" []
      [method "xor" [("other", boolean)] boolean, method "implies" [("other", boolean)] boolean],
    classNamed "String"
      [property "length" int, property "isEmpty" boolean, property "isBlank" boolean,
        property "chars" (of "List" string)]
      [method "contains" pattern boolean, method "startsWith" pattern boolean,
        method "endsWith" [("pattern", string)] boolean, method "split" pattern (of "List" string),
        method "toUpperCase" [] string, method "toLowerCase" [] string, method "trim" [] string,
        method "toInt" [] int, method "toFloat" [] (.simple "Float"),
        method "toBoolean" [] boolean],
    abstract (classNamed "Number"
      [property "sign" number, property "abs" number, property "isPositive" boolean,
        property "isNaN" boolean]
      [method "toInt" [] int, method "toFloat" [] (.simple "Float"), method "round" [] number,
        method "isBetween" [("start", number), ("inclusiveEnd", number)] boolean]),
    extending number (classNamed "Int" [property "isEven" boolean, property "isOdd" boolean]
      [method "toChar" [] string]),
    extending number (classNamed "Float" [property "isFinite" boolean] []),
    quantity "Duration" "DurationUnit",
    quantity "DataSize" "DataSizeUnit"]

/-- The classes of objects. -/
def objectClasses : List Source.Class :=
  let object : TypeExpr := .simple "Object"
  let typed : TypeExpr := .simple "Typed"
  let named := [("name", string)]
  [abstract (classNamed "Object" []
      [method "getProperty" named .unknown, method "getPropertyOrNull" named .unknown,
        method "hasProperty" named boolean]),
    extending object (abstract (classNamed "Typed" []
      [method "toDynamic" [] (.simple "Dynamic"), method "toMap" [] (of2 "Map" string .unknown)])),
    extending object (classNamed "Dynamic" []
      [method "toMap" [] (of2 "Map" .unknown .unknown), method "toList" [] (of "List" .unknown),
        method "length" [] int]),
    extending typed (abstract (classNamed "Module" [property "output" (.simple "ModuleOutput")]
      [method "relativePathTo" [("other", .simple "Module")] (of "List" string)])),
    extending typed (classNamed "ModuleOutput"
      [property "text" string, property "value" any,
        property "files" (.nullable (of2 "Mapping" string (.simple "FileOutput")))] []),
    extending typed (classNamed "FileOutput" [property "text" string, property "value" any] []),
    extending object (producing ["Element"] (classNamed "Listing"
      [property "length" int, property "isEmpty" boolean, property "isDistinct" boolean,
        property "default" (.function [int] element)]
      [method "toList" [] (of "List" element), method "toSet" [] (of "Set" element),
        method "join" [("separator", string)] string,
        method "distinct" [] (of "Listing" element)])),
    extending object (producing ["Key", "Value"] (classNamed "Mapping"
      [property "length" int, property "isEmpty" boolean,
        property "keys" (of "Set" (.simple "Key")),
        property "default" (.function [.simple "Key"] (.simple "Value"))]
      [method "containsKey" [("key", any)] boolean,
        method "getOrNull" [("key", any)] (.nullable (.simple "Value")),
        method "toMap" [] (of2 "Map" (.simple "Key") (.simple "Value"))]))]

/-- A class of elements, with what all such classes have. -/
def collection (name : String) (properties : List Property) (methods : List Method) :
    Source.Class :=
  producing ["Element"] (classNamed name
    ([property "length" int, property "isEmpty" boolean, property "first" element,
      property "firstOrNull" (.nullable element), property "last" element,
      property "lastOrNull" (.nullable element)] ++ properties)
    ([method "contains" [("element", any)] boolean,
      method "getOrNull" [("index", int)] (.nullable element),
      method "filter" [("predicate", .function [element] boolean)] (of name element),
      generic (method "map" [("transform", .function [element] result)] (of name result))
        ["Result"],
      method "join" [("separator", string)] string, method "toList" [] (of "List" element),
      method "toSet" [] (of "Set" element), method "toListing" [] (of "Listing" element)]
      ++ methods))

/-- The classes of collections, and those of their parts. -/
def collectionClasses : List Source.Class :=
  let other := [("other", of "Set" element)]
  [abstract (collection "Collection" [] []),
    extending (of "Collection" element) (collection "List" [property "isDistinct" boolean]
      [method "reverse" [] (of "List" element), method "distinct" [] (of "List" element)]),
    extending (of "Collection" element) (collection "Set" []
      [method "union" other (of "Set" element), method "intersect" other (of "Set" element)]),
    producing ["Key", "Value"] (classNamed "Map"
      [property "length" int, property "isEmpty" boolean,
        property "keys" (of "Set" (.simple "Key")), property "values" (of "List" (.simple "Value"))]
      [method "containsKey" [("key", any)] boolean,
        method "getOrNull" [("key", any)] (.nullable (.simple "Value")),
        method "toMapping" [] (of2 "Mapping" (.simple "Key") (.simple "Value"))]),
    producing ["First", "Second"] (classNamed "Pair"
      [property "first" (.simple "First"), property "second" (.simple "Second"),
        property "key" (.simple "First"), property "value" (.simple "Second")] []),
    classNamed "Regex" [property "pattern" string]
      [method "matchEntire" [("input", string)] (.nullable (.simple "RegexMatch"))],
    classNamed "RegexMatch" [property "value" string, property "start" int, property "end" int] [],
    classNamed "IntSeq" [property "start" int, property "end" int, property "step" int]
      [method "toList" [] (of "List" int)]]

/-- The class of functions with a number of parameters. -/
def functionClass (arity : Nat) : Source.Class :=
  let numbers := (List.range arity).map fun i => toString (i + 1)
  let params := numbers.map fun n => ("p" ++ n, TypeExpr.simple ("Param" ++ n))
  let consumed : List TypeParam := numbers.map fun n => ⟨"Param" ++ n, .contravariant⟩
  { extending (.simple "Function")
      (classNamed ("Function" ++ toString arity) [] [method "apply" params result]) with
    typeParams := consumed ++ [⟨"Result", .covariant⟩] }

/-- The classes of functions. -/
def functionClasses : List Source.Class :=
  abstract (classNamed "Function" [] []) :: (List.range (TypeTable.maxArity + 1)).map functionClass

/-! ## The module -/

def aliases : List Alias :=
  let sizes := ["Int8", "Int16", "Int32", "UInt8", "UInt16", "UInt32", "UInt"]
  (sizes.map fun name => typeAlias name int)
    ++ [typeAlias "Comparable" (.union [string, number, .simple "Duration", .simple "DataSize"]),
      typeAlias "NonNull" any,
      typeAlias "DurationUnit" (literals ["ns", "us", "ms", "s", "min", "h", "d"]),
      typeAlias "DataSizeUnit"
        (literals ["b", "kb", "kib", "mb", "mib", "gb", "gib", "tb", "tib", "pb", "pib"]),
      { typeAlias "Mixin" (.function [.simple "Type"] (.simple "Type")) with
        typeParams := [⟨"Type", .invariant⟩] }]

/-- The methods that make values. -/
def methods : List Method :=
  [generic (method "List" [] (of "List" element)) ["Element"],
    generic (method "Set" [] (of "Set" element)) ["Element"],
    generic (method "Map" [] (of2 "Map" (.simple "Key") (.simple "Value"))) ["Key", "Value"],
    generic (method "Pair" [("first", .simple "First"), ("second", .simple "Second")]
      (of2 "Pair" (.simple "First") (.simple "Second"))) ["First", "Second"],
    method "IntSeq" [("start", int), ("end", int)] (.simple "IntSeq"),
    method "Regex" [("pattern", string)] (.simple "Regex"),
    method "Null" [("defaultValue", .simple "Object")] (.simple "Null")]

def source : Source.Module where
  uri := uri
  name := some "base"
  isOpen := false
  amends := none
  superModule := none
  imports := []
  classes := valueClasses ++ objectClasses ++ collectionClasses ++ functionClasses
  aliases := aliases
  properties := [property "NaN" (.simple "Float"), property "Infinity" (.simple "Float")]
  methods := methods

def tree : Tree := source.tree 1

/-- The class or type alias with a name. -/
def decl (name : String) : DeclRef := ⟨⟨id, (tree.findType? name).getD Tree.root⟩, name⟩

/-- The classes that the analysis knows by their role. -/
def types : BaseTypes where
  any := decl "Any"
  null := decl "Null"
  boolean := decl "Boolean"
  string := decl "String"
  number := decl "Number"
  int := decl "Int"
  float := decl "Float"
  duration := decl "Duration"
  dataSize := decl "DataSize"
  object := decl "Object"
  typed := decl "Typed"
  dynamic := decl "Dynamic"
  module := decl "Module"
  listing := decl "Listing"
  mapping := decl "Mapping"
  collection := decl "Collection"
  list := decl "List"
  set := decl "Set"
  map := decl "Map"
  pair := decl "Pair"
  regex := decl "Regex"
  intSeq := decl "IntSeq"
  function := decl "Function"
  functions := TypeTable.functionNames.map decl

end PklAnalysis.BaseModule
