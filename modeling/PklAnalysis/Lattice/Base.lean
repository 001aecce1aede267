import PklAnalysis.Lattice.Ty

/-!
# Base types and normalization

`BaseTypes` names the declarations of the base module that the analysis has to know.  With them
unions and nullable types have a normal form: `Ty.unionOf` flattens its members, drops repetitions
and the type without values, turns `Null` into a question mark, and is unknown as soon as one
member is.
-/

namespace PklAnalysis

/-- The declarations of the base module that the analysis knows by their role. -/
structure BaseTypes where
  any : DeclRef
  null : DeclRef
  boolean : DeclRef
  string : DeclRef
  number : DeclRef
  int : DeclRef
  float : DeclRef
  duration : DeclRef
  dataSize : DeclRef
  object : DeclRef
  typed : DeclRef
  dynamic : DeclRef
  module : DeclRef
  listing : DeclRef
  mapping : DeclRef
  collection : DeclRef
  list : DeclRef
  set : DeclRef
  map : DeclRef
  pair : DeclRef
  regex : DeclRef
  intSeq : DeclRef
  function : DeclRef
  /-- The classes of functions by their number of parameters. -/
  functions : List DeclRef
  deriving DecidableEq, Inhabited

namespace BaseTypes

/-- A class without arguments. -/
def plain (d : DeclRef) : Ty := .class d []

def nullType (b : BaseTypes) : Ty := plain b.null

def anyType (b : BaseTypes) : Ty := plain b.any

def stringType (b : BaseTypes) : Ty := plain b.string

/-- Whether a type is the class of `null`. -/
def isNull (b : BaseTypes) : Ty → Bool
  | .class d _ => d.site = b.null.site
  | _ => false

/-- A function type as an object of its class: parameters and result are the arguments of the class
for the number of parameters, and the class of all functions stands in where there is none. -/
def functionView (b : BaseTypes) (params : List Ty) (result : Ty) : Ty :=
  match b.functions[params.length]? with
  | some d => .class d (params ++ [result])
  | none => plain b.function

/-- The number of parameters of the functions of a class. -/
def arity? (b : BaseTypes) (d : DeclRef) : Option Nat :=
  b.functions.findIdx? fun f => f.site = d.site

end BaseTypes

namespace Ty

mutual

/-- The members of a type with unions opened, `null` standing for every question mark. -/
def leaves (base : BaseTypes) : Ty → List Ty
  | .nothing => []
  | .union ms => leavesOfAll base ms
  | .nullable a => base.nullType :: leaves base a
  | t => [t]

def leavesOfAll (base : BaseTypes) : List Ty → List Ty
  | [] => []
  | t :: ts => leaves base t ++ leavesOfAll base ts

end

/-- One member is itself, several are a union, and none is the type without values. -/
def ofMembers : List Ty → Ty
  | [] => .nothing
  | [t] => t
  | ts => .union ts

/-- The union of types in normal form. -/
def unionOf (base : BaseTypes) (ts : List Ty) : Ty :=
  let ls := leavesOfAll base ts
  if ls.any isUnknown then .unknown
  else
    let members := (ls.filter fun t => !base.isNull t).eraseDups
    if ls.any base.isNull then
      if members.isEmpty then base.nullType else .nullable (ofMembers members)
    else ofMembers members

/-- A type that may be null, in normal form. -/
def orNull (base : BaseTypes) (t : Ty) : Ty := unionOf base [t, base.nullType]

mutual

/-- The parameters of one owner replaced by arguments, the unknown type standing in for missing
ones.  Unions and nullable types are brought to normal form again. -/
def substitute (base : BaseTypes) (owner : Site) (args : List Ty) : Ty → Ty
  | .param p => if p.owner = owner then args[p.index]?.getD .unknown else .param p
  | .unknown => .unknown
  | .nothing => .nothing
  | .literal s => .literal s
  | .nullable a => orNull base (substitute base owner args a)
  | .union ms => unionOf base (substituteAll base owner args ms)
  | .class c as => .class c (substituteAll base owner args as)
  | .typeAlias c as => .typeAlias c (substituteAll base owner args as)
  | .function ps r =>
    .function (substituteAll base owner args ps) (substitute base owner args r)

def substituteAll (base : BaseTypes) (owner : Site) (args : List Ty) : List Ty → List Ty
  | [] => []
  | t :: ts => substitute base owner args t :: substituteAll base owner args ts

end

theorem leavesOfAll_eq_flatMap (base : BaseTypes) (ts : List Ty) :
    leavesOfAll base ts = ts.flatMap (leaves base) := by
  induction ts with
  | nil => rfl
  | cons t ts ih => simp [leavesOfAll, ih]

theorem substituteAll_eq_map (base : BaseTypes) (owner : Site) (args ts : List Ty) :
    substituteAll base owner args ts = ts.map (substitute base owner args) := by
  induction ts with
  | nil => rfl
  | cons t ts ih => simp [substituteAll, ih]

end Ty

end PklAnalysis
