import PklAnalysis.Text.Cut

/-!
# Paths

A path keeps the text in which it is written; what it means are its components.  Repeated and
trailing slashes do not matter, nor does a dot, except as the start of a relative path, while `..`
is a component like any other.  Paths are compared with `==` by their components.
-/

namespace PklAnalysis

structure Path where
  text : String
  deriving Repr, Inhabited

namespace Path

/-- A component of a path. -/
inductive Component where
  | root
  /-- A dot at the start of a relative path. -/
  | here
  | up
  | name (text : String)
  deriving DecidableEq, Repr

/-- What stands between two slashes; an empty piece or a dot is no component. -/
def componentOf? (piece : String) : Option Component :=
  if piece = "" || piece = "." then none
  else if piece = ".." then some .up
  else some (.name piece)

def isAbsolute (p : Path) : Bool := Text.startsWith "/" p.text

/-- The pieces between slashes. -/
def pieces (p : Path) : List String := Text.pieces (· = '/') p.text

/-- Whether a path starts with a dot as a component. -/
def startsHere (p : Path) : Bool := p.pieces.head? = some "."

def components (p : Path) : List Component :=
  (if p.isAbsolute then [Component.root] else if p.startsHere then [.here] else [])
    ++ p.pieces.filterMap componentOf?

instance : BEq Path := ⟨fun p q => p.components = q.components⟩

theorem beq_iff (p q : Path) : (p == q) = true ↔ p.components = q.components := by
  simp [BEq.beq]

instance : EquivBEq Path where
  rfl {p} := (beq_iff p p).mpr rfl
  symm {p q} h := (beq_iff q p).mpr ((beq_iff p q).mp h).symm
  trans {p q r} h h' := (beq_iff p r).mpr (((beq_iff p q).mp h).trans ((beq_iff q r).mp h'))

/-! ## Order -/

/-- The place of a kind of component in their order. -/
def Component.rank : Component → Nat
  | .root => 0
  | .here => 1
  | .up => 2
  | .name _ => 3

def Component.compare : Component → Component → Ordering
  | .name a, .name b => compareOfLessAndEq a b
  | a, b => Ord.compare a.rank b.rank

def compareComponents : List Component → List Component → Ordering
  | [], [] => .eq
  | [], _ :: _ => .lt
  | _ :: _, [] => .gt
  | a :: as, b :: bs => (a.compare b).then (compareComponents as bs)

/-- Paths are ordered component by component. -/
def compare (p q : Path) : Ordering := compareComponents p.components q.components

/-! ## Joining -/

/-- A path followed from another one; an absolute path is followed from anywhere. -/
def join (p : Path) (text : String) : Path :=
  if Text.startsWith "/" text || p.text = "" then ⟨text⟩
  else if p.text.toList.getLast? = some '/' then ⟨p.text ++ text⟩
  else ⟨p.text ++ "/" ++ text⟩

/-- Names after the names above them, given in reverse; none if `..` has nothing to leave. -/
def collapse (above : List String) : List Component → Option (List String)
  | [] => some above.reverse
  | .root :: cs | .here :: cs => collapse above cs
  | .up :: cs =>
    match above with
    | [] => none
    | _ :: rest => collapse rest cs
  | .name n :: cs => collapse (n :: above) cs

/-- The absolute path with the given names. -/
def ofNames (names : List String) : String := "/" ++ "/".intercalate names

/-- A path followed from a directory, as an absolute path without `.` and `..`.  None if `..` would
leave the root. -/
def joinNormalized? (dir path : String) : Option String :=
  let joined : Path := if Text.startsWith "/" path then ⟨path⟩ else join ⟨dir⟩ path
  (collapse [] joined.components).map ofNames

/-! ## Parts -/

/-- What stands before the pieces of a path: its root, or the dot that it starts with. -/
def anchor (p : Path) : String × List String :=
  if p.isAbsolute then ("/", p.pieces.drop 1)
  else if p.startsHere then
    match p.pieces with
    | [_] => (".", [])
    | _ :: rest => (".", "" :: rest)
    | [] => (".", [])
  else ("", p.pieces)

/-- Pieces, given in reverse, without the last ones that are no components. -/
def trimmed (reversed : List String) : List String :=
  reversed.dropWhile fun piece => (componentOf? piece).isNone

/-- The path without its last component, in its own text.  A root has no parent. -/
def parent? (p : Path) : Option Path :=
  let (start, body) := p.anchor
  match trimmed body.reverse with
  | _ :: rest => some ⟨start ++ "/".intercalate (trimmed rest).reverse⟩
  | [] => if p.startsHere then some ⟨""⟩ else none

/-- A path, its parent, the parent of that and so on, at most so many. -/
def ancestorsWithin : Nat → Path → List Path
  | 0, p => [p]
  | n + 1, p =>
    match p.parent? with
    | some q => p :: ancestorsWithin n q
    | none => [p]

/-- A path and all paths above it, innermost first. -/
def ancestors (p : Path) : List Path := ancestorsWithin p.components.length p

/-- The components of a path below a directory. -/
def below? (dir p : Path) : Option (List Component) := dir.components.isPrefixOf? p.components

/-- The last component, if it is a name. -/
def fileName? (p : Path) : Option String :=
  match p.components.getLast? with
  | some (.name n) => some n
  | _ => none

/-- The text after the last dot of the last component, unless the dot is its first character. -/
def extension? (p : Path) : Option String := do
  let name ← p.fileName?
  let (stem, ext) ← Text.cutLast? '.' name
  if stem = "" then none else some ext

/-- The path with another last component. -/
def withFileName (p : Path) (name : String) : Path :=
  match p.fileName?, p.parent? with
  | some _, some q => q.join name
  | _, _ => p.join name

end Path

end PklAnalysis
