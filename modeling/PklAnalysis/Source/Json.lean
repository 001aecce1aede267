import PklAnalysis.TypeExpr.Printer
import PklAnalysis.TypeExpr.Reader
import PklAnalysis.Json.Printer
import PklAnalysis.Json.Reader
import PklAnalysis.Json.Record
import PklAnalysis.Source.Basic

/-!
# Descriptions as JSON

`Source.Module.parse?` reads the JSON form of a module description and `Source.Module.text` writes
it.  Writing names every field in its fixed order, with `null` for what is absent; reading accepts
whatever `Json.record?` accepts, with the lists and flags that are not given empty and false.
-/

namespace PklAnalysis.Source

open Json (required defaulting optional)

/-! ## Reading -/

def typeExpr? (v : Json) : Option TypeExpr := do
  let s ← v.string?
  (TypeExpr.parse s).toOption

def span? (v : Json) : Option Span := do
  let [start, stop] ← v.record? ["start", "end"] | none
  return ⟨← required Json.nat64? start, ← required Json.nat64? stop⟩

def Modifier.ofText? : String → Option Modifier
  | "abstract" => some .abstract
  | "open" => some .open
  | "local" => some .local
  | "external" => some .external
  | "hidden" => some .hidden
  | "fixed" => some .fixed
  | "const" => some .const
  | _ => none

def modifier? (v : Json) : Option Modifier := v.word?.bind Modifier.ofText?

def variance? (v : Json) : Option Variance := v.word?.bind Variance.ofText?

def typeParam? (v : Json) : Option TypeParam := do
  let [name, variance] ← v.record? ["name", "variance"] | none
  return ⟨← required Json.string? name, ← defaulting variance? .invariant variance⟩

def binding? (v : Json) : Option Binding := do
  let [name, type] ← v.record? ["name", "type"] | none
  return ⟨← required Json.string? name, ← optional typeExpr? type⟩

/-- The kinds of expressions. -/
def exprKinds : List String :=
  ["string", "int", "float", "boolean", "null", "ident", "access", "call", "this", "module",
    "let", "lambda", "new", "amend", "if", "import"]

/-- The kinds of object members. -/
def memberKinds : List String := ["property", "element", "entry", "for", "when"]

/-- The kind that a tag names.  Inside an expression or an object member it may also be given by
its place among the kinds. -/
def kind? (kinds : List String) (inner : Bool) : Json → Option String
  | .str s => some s
  | .int i => if inner && 0 ≤ i then kinds[i.toNat]? else none
  | _ => none

mutual

/-- An expression nested at most so deep. -/
def exprWithin (inner : Bool) : Nat → Json → Option Expr
  | 0, _ => none
  | n + 1, v => do
    let (tag, rest) ← v.tagged? "kind"
    match ← kind? exprKinds inner tag with
    | "string" => do
      let [value] ← rest.record? ["value"] | none
      return .string (← required Json.string? value)
    | "int" => do
      let [value] ← rest.record? ["value"] | none
      return .int (← required Json.int64? value)
    | "float" => do
      let [value] ← rest.record? ["value"] | none
      return .float (← required Json.float? value)
    | "boolean" => do
      let [value] ← rest.record? ["value"] | none
      return .boolean (← required Json.bool? value)
    | "null" => if rest.isUnit then some .null else none
    | "ident" => do
      let [name] ← rest.record? ["name"] | none
      return .ident (← required Json.string? name)
    | "access" => do
      let [receiver, name, nullSafe] ← rest.record? ["receiver", "name", "null_safe"] | none
      return .access (← required (exprWithin true n) receiver) (← required Json.string? name)
        (← defaulting Json.bool? false nullSafe)
    | "call" => do
      let [receiver, name, args] ← rest.record? ["receiver", "name", "args"] | none
      return .call (← optional (exprWithin true n) receiver) (← required Json.string? name)
        (← defaulting (Json.list? (exprWithin true n)) [] args)
    | "this" => if rest.isUnit then some .this else none
    | "module" => if rest.isUnit then some .module else none
    | "let" => do
      let [name, type, value, body] ← rest.record? ["name", "type", "value", "body"] | none
      return .letIn (← required Json.string? name) (← optional typeExpr? type)
        (← required (exprWithin true n) value) (← required (exprWithin true n) body)
    | "lambda" => do
      let [params, body] ← rest.record? ["params", "body"] | none
      return .lambda (← defaulting (Json.list? binding?) [] params)
        (← required (exprWithin true n) body)
    | "new" => do
      let [type, body] ← rest.record? ["type", "body"] | none
      return .new (← optional typeExpr? type)
        (← defaulting (Json.list? (memberWithin true n)) [] body)
    | "amend" => do
      let [parent, body] ← rest.record? ["parent", "body"] | none
      return .amend (← required (exprWithin true n) parent)
        (← defaulting (Json.list? (memberWithin true n)) [] body)
    | "if" => do
      let [condition, consequent, alternative] ←
        rest.record? ["condition", "then", "otherwise"] | none
      return .conditional (← required (exprWithin true n) condition)
        (← required (exprWithin true n) consequent) (← required (exprWithin true n) alternative)
    | "import" => do
      let [uri, glob] ← rest.record? ["uri", "glob"] | none
      return .importExpr (← required Json.string? uri) (← defaulting Json.bool? false glob)
    | _ => none

/-- An object member nested at most so deep. -/
def memberWithin (inner : Bool) : Nat → Json → Option Member
  | 0, _ => none
  | n + 1, v => do
    let (tag, rest) ← v.tagged? "kind"
    match ← kind? memberKinds inner tag with
    | "property" => do
      let [name, type, value, body] ← rest.record? ["name", "type", "value", "body"] | none
      return .property (← required Json.string? name) (← optional typeExpr? type)
        (← optional (exprWithin true n) value)
        (← optional (Json.list? (memberWithin true n)) body)
    | "element" => do
      let [value] ← rest.record? ["value"] | none
      return .element (← required (exprWithin true n) value)
    | "entry" => do
      let [key, value] ← rest.record? ["key", "value"] | none
      return .entry (← required (exprWithin true n) key) (← required (exprWithin true n) value)
    | "for" => do
      let [key, value, iterable, body] ← rest.record? ["key", "value", "iterable", "body"] | none
      return .generator (← optional Json.string? key) (← required Json.string? value)
        (← required (exprWithin true n) iterable)
        (← defaulting (Json.list? (memberWithin true n)) [] body)
    | "when" => do
      let [condition, body, otherwise] ← rest.record? ["condition", "body", "otherwise"] | none
      return .when (← required (exprWithin true n) condition)
        (← defaulting (Json.list? (memberWithin true n)) [] body)
        (← optional (Json.list? (memberWithin true n)) otherwise)
    | _ => none

end

/-- How deep a value nests; a scalar counts as one level. -/
def nesting : Json → Nat
  | .arr items => nestingOfItems items + 1
  | .obj fields => nestingOfFields fields + 1
  | _ => 1
where
  nestingOfItems : List Json → Nat
    | [] => 0
    | v :: vs => max (nesting v) (nestingOfItems vs)
  nestingOfFields : List (String × Json) → Nat
    | [] => 0
    | (_, v) :: fs => max (nesting v) (nestingOfFields fs)

def expr? (v : Json) : Option Expr := exprWithin false (nesting v) v

def member? (v : Json) : Option Member := memberWithin false (nesting v) v

def import? (v : Json) : Option Import := do
  let [uri, asName, glob, span] ← v.record? ["uri", "alias", "glob", "span"] | none
  return ⟨← required Json.string? uri, ← optional Json.string? asName,
    ← defaulting Json.bool? false glob, ← optional span? span⟩

def property? (v : Json) : Option Property := do
  let [name, type, modifiers, value, body, span] ←
    v.record? ["name", "type", "modifiers", "value", "body", "span"] | none
  return ⟨← required Json.string? name, ← optional typeExpr? type,
    ← defaulting (Json.list? modifier?) [] modifiers, ← optional expr? value,
    ← optional (Json.list? member?) body, ← optional span? span⟩

def method? (v : Json) : Option Method := do
  let [name, typeParams, params, returns, modifiers, body, span] ←
    v.record? ["name", "type_params", "params", "returns", "modifiers", "body", "span"] | none
  return ⟨← required Json.string? name, ← defaulting (Json.list? typeParam?) [] typeParams,
    ← defaulting (Json.list? binding?) [] params, ← optional typeExpr? returns,
    ← defaulting (Json.list? modifier?) [] modifiers, ← optional expr? body,
    ← optional span? span⟩

def class? (v : Json) : Option Class := do
  let [name, typeParams, superclass, modifiers, properties, methods, span] ←
    v.record? ["name", "type_params", "extends", "modifiers", "properties", "methods", "span"]
    | none
  return ⟨← required Json.string? name, ← defaulting (Json.list? typeParam?) [] typeParams,
    ← optional typeExpr? superclass, ← defaulting (Json.list? modifier?) [] modifiers,
    ← defaulting (Json.list? property?) [] properties,
    ← defaulting (Json.list? method?) [] methods, ← optional span? span⟩

def alias? (v : Json) : Option Alias := do
  let [name, typeParams, target, modifiers, span] ←
    v.record? ["name", "type_params", "target", "modifiers", "span"] | none
  return ⟨← required Json.string? name, ← defaulting (Json.list? typeParam?) [] typeParams,
    ← required typeExpr? target, ← defaulting (Json.list? modifier?) [] modifiers,
    ← optional span? span⟩

/-- The description that a JSON value holds. -/
def Module.ofJson? (v : Json) : Option Module := do
  let [uri, name, isOpen, amends, superModule, imports, classes, aliases, properties, methods] ←
    v.record? ["uri", "name", "open", "amends", "extends", "imports", "classes", "typealiases",
      "properties", "methods"] | none
  return {
    uri := ← defaulting Json.string? "" uri
    name := ← optional Json.string? name
    isOpen := ← defaulting Json.bool? false isOpen
    amends := ← optional Json.string? amends
    superModule := ← optional Json.string? superModule
    imports := ← defaulting (Json.list? import?) [] imports
    classes := ← defaulting (Json.list? class?) [] classes
    aliases := ← defaulting (Json.list? alias?) [] aliases
    properties := ← defaulting (Json.list? property?) [] properties
    methods := ← defaulting (Json.list? method?) [] methods }

/-- The description that a JSON text holds. -/
def Module.parse? (text : String) : Option Module := (Json.parse? text).bind Module.ofJson?

/-! ## Writing -/

def typeExprJson (a : TypeExpr) : Json := .str a.text

def spanJson (s : Span) : Json := .obj [("start", .ofNat s.start), ("end", .ofNat s.stop)]

def Modifier.text : Modifier → String
  | .abstract => "abstract"
  | .open => "open"
  | .local => "local"
  | .external => "external"
  | .hidden => "hidden"
  | .fixed => "fixed"
  | .const => "const"

def modifiersJson (ms : List Modifier) : Json := .arr (ms.map fun m => .str m.text)

def typeParamJson (p : TypeParam) : Json :=
  .obj [("name", .str p.name), ("variance", .str p.variance.text)]

def bindingJson (b : Binding) : Json :=
  .obj [("name", .str b.name), ("type", Json.orNull typeExprJson b.type)]

mutual

def exprJson : Expr → Json
  | .string value => .obj [("kind", .str "string"), ("value", .str value)]
  | .int value => .obj [("kind", .str "int"), ("value", .int value)]
  | .float value => .obj [("kind", .str "float"), ("value", .real value)]
  | .boolean value => .obj [("kind", .str "boolean"), ("value", .bool value)]
  | .null => .obj [("kind", .str "null")]
  | .ident name => .obj [("kind", .str "ident"), ("name", .str name)]
  | .access receiver name nullSafe =>
    .obj [("kind", .str "access"), ("receiver", exprJson receiver), ("name", .str name),
      ("null_safe", .bool nullSafe)]
  | .call receiver name args =>
    .obj [("kind", .str "call"), ("receiver", receiverJson receiver), ("name", .str name),
      ("args", .arr (exprsJson args))]
  | .this => .obj [("kind", .str "this")]
  | .module => .obj [("kind", .str "module")]
  | .letIn name type value body =>
    .obj [("kind", .str "let"), ("name", .str name), ("type", Json.orNull typeExprJson type),
      ("value", exprJson value), ("body", exprJson body)]
  | .lambda params body =>
    .obj [("kind", .str "lambda"), ("params", .arr (params.map bindingJson)),
      ("body", exprJson body)]
  | .new type body =>
    .obj [("kind", .str "new"), ("type", Json.orNull typeExprJson type),
      ("body", .arr (membersJson body))]
  | .amend parent body =>
    .obj [("kind", .str "amend"), ("parent", exprJson parent), ("body", .arr (membersJson body))]
  | .conditional condition consequent alternative =>
    .obj [("kind", .str "if"), ("condition", exprJson condition), ("then", exprJson consequent),
      ("otherwise", exprJson alternative)]
  | .importExpr uri isGlob =>
    .obj [("kind", .str "import"), ("uri", .str uri), ("glob", .bool isGlob)]

def receiverJson : Option Expr → Json
  | none => .null
  | some e => exprJson e

def exprsJson : List Expr → List Json
  | [] => []
  | e :: es => exprJson e :: exprsJson es

def memberJson : Member → Json
  | .property name type value body =>
    .obj [("kind", .str "property"), ("name", .str name),
      ("type", Json.orNull typeExprJson type), ("value", receiverJson value),
      ("body", bodyJson body)]
  | .element value => .obj [("kind", .str "element"), ("value", exprJson value)]
  | .entry key value =>
    .obj [("kind", .str "entry"), ("key", exprJson key), ("value", exprJson value)]
  | .generator key value iterable body =>
    .obj [("kind", .str "for"), ("key", Json.orNull .str key), ("value", .str value),
      ("iterable", exprJson iterable), ("body", .arr (membersJson body))]
  | .when condition body otherwise =>
    .obj [("kind", .str "when"), ("condition", exprJson condition),
      ("body", .arr (membersJson body)), ("otherwise", bodyJson otherwise)]

def bodyJson : Option (List Member) → Json
  | none => .null
  | some ms => .arr (membersJson ms)

def membersJson : List Member → List Json
  | [] => []
  | m :: ms => memberJson m :: membersJson ms

end

def importJson (i : Import) : Json :=
  .obj [("uri", .str i.uri), ("alias", Json.orNull .str i.asName), ("glob", .bool i.isGlob),
    ("span", Json.orNull spanJson i.span)]

def propertyJson (p : Property) : Json :=
  .obj [("name", .str p.name), ("type", Json.orNull typeExprJson p.type),
    ("modifiers", modifiersJson p.modifiers), ("value", receiverJson p.value),
    ("body", bodyJson p.body), ("span", Json.orNull spanJson p.span)]

def methodJson (m : Method) : Json :=
  .obj [("name", .str m.name), ("type_params", .arr (m.typeParams.map typeParamJson)),
    ("params", .arr (m.params.map bindingJson)), ("returns", Json.orNull typeExprJson m.returns),
    ("modifiers", modifiersJson m.modifiers), ("body", receiverJson m.body),
    ("span", Json.orNull spanJson m.span)]

def classJson (c : Class) : Json :=
  .obj [("name", .str c.name), ("type_params", .arr (c.typeParams.map typeParamJson)),
    ("extends", Json.orNull typeExprJson c.superclass), ("modifiers", modifiersJson c.modifiers),
    ("properties", .arr (c.properties.map propertyJson)),
    ("methods", .arr (c.methods.map methodJson)), ("span", Json.orNull spanJson c.span)]

def aliasJson (a : Alias) : Json :=
  .obj [("name", .str a.name), ("type_params", .arr (a.typeParams.map typeParamJson)),
    ("target", typeExprJson a.target), ("modifiers", modifiersJson a.modifiers),
    ("span", Json.orNull spanJson a.span)]

/-- The JSON form of a description. -/
def Module.toJson (m : Module) : Json :=
  .obj [("uri", .str m.uri), ("name", Json.orNull .str m.name), ("open", .bool m.isOpen),
    ("amends", Json.orNull .str m.amends), ("extends", Json.orNull .str m.superModule),
    ("imports", .arr (m.imports.map importJson)), ("classes", .arr (m.classes.map classJson)),
    ("typealiases", .arr (m.aliases.map aliasJson)),
    ("properties", .arr (m.properties.map propertyJson)),
    ("methods", .arr (m.methods.map methodJson))]

/-- The JSON text of a description. -/
def Module.text (m : Module) : String := m.toJson.pretty

end PklAnalysis.Source
