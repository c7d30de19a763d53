import Folio.Files.Path

namespace Folio.Files

inductive Node
  | file (content : List UInt8)
  | directory
deriving DecidableEq

def Node.content? : Node → Option (List UInt8)
  | file content => some content
  | directory => none

inductive FileError
  | notFound
  | notDirectory
  | isDirectory
  | alreadyExists
  | notText
  /-- a path holds the byte that ends a name -/
  | hasNul
  /-- for a reason that does not show in the tree -/
  | refused (reason : String)
deriving DecidableEq, Repr

def FileError.message : FileError → String
  | notFound => "No such file or directory (os error 2)"
  | notDirectory => "Not a directory (os error 20)"
  | isDirectory => "Is a directory (os error 21)"
  | alreadyExists => "File exists (os error 17)"
  | notText => "stream did not contain valid UTF-8"
  | hasNul => "file name contained an unexpected NUL byte"
  | refused reason => reason

/-- What stands where. The root is always a directory. -/
structure Tree where
  entries : List (Place × Node)
  distinct : (entries.map Prod.fst).Nodup

namespace Tree

def empty : Tree :=
  ⟨[], .nil⟩

def node? (t : Tree) : Place → Option Node
  | [] => some .directory
  | p => (t.entries.find? (·.1 == p)).map Prod.snd

def putEntry (entries : List (Place × Node)) (p : Place) (n : Node) : List (Place × Node) :=
  if p ∈ entries.map Prod.fst then entries.map fun e ↦ (e.1, if e.1 = p then n else e.2)
  else entries ++ [(p, n)]

theorem nodup_putEntry {entries : List (Place × Node)} (h : (entries.map Prod.fst).Nodup)
    (p : Place) (n : Node) : ((putEntry entries p n).map Prod.fst).Nodup := by
  unfold putEntry
  split
  · rwa [List.map_map]
  · next hnew =>
    rw [List.map_append, List.nodup_append]
    refine ⟨h, by simp, ?_⟩
    rintro q hq q' hq' rfl
    obtain rfl : q = p := by simpa using hq'
    exact hnew hq

def put (t : Tree) (p : Place) (n : Node) : Tree :=
  ⟨putEntry t.entries p n, nodup_putEntry t.distinct p n⟩

def children (t : Tree) (p : Place) : List Name :=
  t.entries.filterMap fun e ↦ if e.1.dropLast = p then e.1.getLast? else none

def needDirectory (t : Tree) (p : Place) : Except FileError Unit :=
  match t.node? p with
  | none => .error .notFound
  | some (.file _) => .error .notDirectory
  | some .directory => .ok ()

/-- A step leads on from a directory only, except for one to the root. Above the root there is the
root. -/
def step (t : Tree) (here : Place) : Step → Except FileError Place
  | .root => .ok []
  | .here => do
    t.needDirectory here
    .ok here
  | .above => do
    t.needDirectory here
    .ok here.dropLast
  | .name n => do
    t.needDirectory here
    .ok (here ++ [n])

def follow (t : Tree) (here : Place) (path : List Step) : Except FileError Place :=
  path.foldlM t.step here

/-- The place that a path leads to, where there may be nothing yet. -/
def locate (t : Tree) (home : Place) (path : Path) : Except FileError Place :=
  if 0 ∈ path then .error .hasNul
  else if path.isEmpty then .error .notFound
  else t.follow home (parts path)

end Tree

end Folio.Files
