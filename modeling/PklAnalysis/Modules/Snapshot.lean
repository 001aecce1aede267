import PklAnalysis.Files
import PklAnalysis.Modules.Uri
import PklAnalysis.Source.Json

/-!
# Snapshots

A snapshot is a file next to a module file that holds the module's description: `mod.pkl.json`,
`mod.pkl.yaml` or `mod.pkl.yml` for `mod.pkl`.
-/

namespace PklAnalysis.Snapshot

/-- The extensions of snapshots, in the order in which they are looked for. -/
def extensions : List String := ["json", "yaml", "yml"]

/-- The module file that a snapshot describes, by its name. -/
def target? (p : Path) : Option Path := do
  let name ← p.fileName?
  extensions.findSome? fun ext => do
    let stem ← Text.without? ("." ++ ext) name
    if (Text.without? ".pkl" stem).isSome then some (p.withFileName stem) else none

/-- Where the description of what is at a path may be: the path itself if it is that of a snapshot,
else the snapshots next to it. -/
def places (p : Path) : List Path :=
  if p.extension?.any extensions.contains then [p]
  else extensions.map fun ext => ⟨p.text ++ "." ++ ext⟩

/-- The description with the identity of the described file for its URI, if it has none. -/
def withUri (p : Path) (m : Source.Module) : Source.Module :=
  if Text.isBlankText m.uri then { m with uri := (AbsoluteUri.fileId ((target? p).getD p)).text }
  else m

/-- The description in the file at a path. -/
def read (files : Files) (p : Path) : Except ResolveError Source.Module :=
  let fail (message : String) : ResolveError := .load p.text message
  match files.read p with
  | .error why => .error (fail why.message)
  | .ok text =>
    match Source.Module.parse? text with
    | none => .error (fail "malformed module description")
    | some m =>
      let m := withUri p m
      match m.defect? with
      | some d => .error (fail d.message)
      | none => .ok m

/-- The description of what is at a path, if there is a snapshot of it. -/
def load (files : Files) (p : Path) : Except ResolveError (Option Source.Module) :=
  match (places p).find? files.isFile with
  | some place => (read files place).map some
  | none => .ok none

end PklAnalysis.Snapshot
