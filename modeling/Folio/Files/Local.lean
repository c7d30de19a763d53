import Folio.Files.System

namespace Folio.Files

def longestName : Nat :=
  255

def Step.isTooLong : Step → Bool
  | .name n => longestName < n.bytes.length
  | .root | .here | .above => false

/-- A name that is too long is refused where the steps before it lead to a directory. -/
def nameRefusal? (home : Place) (t : Tree) (path : List Step) : Option String :=
  if path.any Step.isTooLong then
    match t.follow home (path.takeWhile (!·.isTooLong)) with
    | .ok p => if t.node? p = some .directory then some "File name too long (os error 36)" else none
    | .error _ => none
  else none

def System.local (home : Place) : System where
  home := home
  refusal? t path _ := nameRefusal? home t path
  arrange _ _ names := names
  arrange_perm _ _ _ := .rfl

namespace Tree

def ofPlace (p : Place) : Tree :=
  (List.range p.length).foldl (fun t i ↦ t.put (p.take (i + 1)) .directory) empty

/-- Adds a node with the directories above it; nothing is added where these cannot be made. -/
def plant (sys : System) (t : Tree) (path : Path) : Node → Tree
  | .directory => (sys.makeDirectories t path).2
  | .file content =>
    let t := (sys.makeEach t (stages (steps path))).2
    match sys.write t path content with
    | .ok t => t
    | .error _ => t

def ofFiles (sys : System) (files : List (Path × Node)) : Tree :=
  files.foldl (fun t (path, n) ↦ plant sys t path n) (ofPlace sys.home)

def pathFrom (top p : Place) : Path :=
  [slash].intercalate ((p.drop top.length).map (·.bytes))

/-- What is new below a directory or other than before, in the order of the paths from there: files
with their content, directories with a slash at the end of their path. -/
def changes (top : Place) (before after : Tree) : List (Path × List UInt8) :=
  let changed := after.entries.filterMap fun (p, n) ↦
    if before.node? p = some n || !top.isPrefixOf p then none
    else
      match n with
      | .file content => some (pathFrom top p, content)
      | .directory => some (pathFrom top p ++ [slash], [])
  changed.mergeSort fun a b ↦ a.1 ≤ b.1

end Tree

end Folio.Files
