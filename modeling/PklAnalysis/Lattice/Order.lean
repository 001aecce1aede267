import PklAnalysis.Lattice.Ty

/-!
# A total order of types

Types are ordered by shape, in the order of the constructors, and then by their parts from left to
right.  Lists are compared item by item, a shorter one before those that it begins; declarations by
module, node and name; texts by code points.
-/

namespace PklAnalysis

/-- The order of texts by code points. -/
def compareText (a b : String) : Ordering := compareOfLessAndEq a b

namespace Site

def compare (a b : Site) : Ordering :=
  (compareText a.module.text b.module.text).then (Ord.compare a.node b.node)

end Site

namespace DeclRef

def compare (a b : DeclRef) : Ordering := (a.site.compare b.site).then (compareText a.name b.name)

end DeclRef

namespace ParamRef

def compare (a b : ParamRef) : Ordering :=
  ((a.owner.compare b.owner).then (Ord.compare a.index b.index)).then (compareText a.name b.name)

end ParamRef

namespace Ty

/-- The place of a type's shape among the shapes. -/
def rank : Ty → Nat
  | .unknown => 0
  | .nothing => 1
  | .nullable _ => 2
  | .class .. => 3
  | .typeAlias .. => 4
  | .union _ => 5
  | .function .. => 6
  | .literal _ => 7
  | .param _ => 8

mutual

def compare : Ty → Ty → Ordering
  | .nullable a, .nullable b => compare a b
  | .class c as, .class d bs => (c.compare d).then (compareAll as bs)
  | .typeAlias c as, .typeAlias d bs => (c.compare d).then (compareAll as bs)
  | .union as, .union bs => compareAll as bs
  | .function as a, .function bs b => (compareAll as bs).then (compare a b)
  | .literal s, .literal t => compareText s t
  | .param p, .param q => p.compare q
  | a, b => Ord.compare a.rank b.rank

def compareAll : List Ty → List Ty → Ordering
  | [], [] => .eq
  | [], _ :: _ => .lt
  | _ :: _, [] => .gt
  | a :: as, b :: bs => (compare a b).then (compareAll as bs)

end

/-- Types in increasing order; equal ones keep their places. -/
def sort (ts : List Ty) : List Ty := ts.mergeSort fun a b => (compare a b).isLE

end Ty

end PklAnalysis
