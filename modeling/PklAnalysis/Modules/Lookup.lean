import PklAnalysis.Modules.Store

/-!
# Lookups that can be called off

A caller may wait for a lookup beside its other work and may lose interest in it.  A lookup that is
called off before it starts does not touch the store.
-/

namespace PklAnalysis

/-- Why a lookup has no tree. -/
inductive LookupError where
  | cancelled (uri : String)
  | unresolved (why : ResolveError)
  deriving DecidableEq, Repr

def LookupError.message : LookupError → String
  | .cancelled uri => "Resolution of '" ++ uri ++ "' was cancelled"
  | .unresolved why => why.message

namespace Store

/-- The tree of the module that a URI names in another module, for a caller that may have called
the lookup off. -/
def lookUp (uri : String) (importer : ModuleId) (isCancelled : Bool) :
    StateM Store (Except LookupError Tree) := do
  if isCancelled then return .error (.cancelled uri)
  return (← resolve uri importer).mapError .unresolved

/-- A lookup that is called off leaves the store as it is. -/
theorem lookUp_cancelled (uri : String) (importer : ModuleId) (s : Store) :
    (lookUp uri importer true).run s = (.error (.cancelled uri), s) := rfl

end Store

end PklAnalysis
