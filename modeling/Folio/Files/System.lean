import Folio.Files.Tree

namespace Folio.Files

inductive Act
  | look
  | read
  | list
  /-- a name is taken from the list of a directory -/
  | next (n : Name)
  | make
  | write (content : List UInt8)
deriving DecidableEq

/-- What a program finds its files in besides the tree: the working directory, where relative paths
begin, what is refused for reasons that the tree does not show, such as rights and space, and the
order in which a directory is listed. -/
structure System where
  home : Place
  refusal? : Tree → List Step → Act → Option String
  arrange : Tree → Place → List Name → List Name
  arrange_perm (t : Tree) (p : Place) (names : List Name) : (arrange t p names).Perm names

namespace System

variable (sys : System)

def permit (t : Tree) (path : List Step) (act : Act) : Except FileError Unit :=
  match sys.refusal? t path act with
  | some reason => .error (.refused reason)
  | none => .ok ()

def reach (t : Tree) (path : Path) (act : Act) : Except FileError Place := do
  sys.permit t (parts path) act
  t.locate sys.home path

/-- A path that cannot be looked at leads to no file. -/
def isFile (t : Tree) (path : Path) : Bool :=
  match sys.reach t path .look with
  | .ok p => ((t.node? p).bind Node.content?).isSome
  | .error _ => false

def read (t : Tree) (path : Path) : Except FileError (List UInt8) := do
  match t.node? (← sys.reach t path .read) with
  | none => .error .notFound
  | some .directory => .error .isDirectory
  | some (.file content) => .ok content

def readText (t : Tree) (path : Path) : Except FileError String := do
  match Text.ofBytes? (← sys.read t path) with
  | some s => .ok s
  | none => .error .notText

def list (t : Tree) (path : Path) : Except FileError (List Name) := do
  let p ← sys.reach t path .list
  t.needDirectory p
  .ok (sys.arrange t p (t.children p))

def next (t : Tree) (path : Path) (n : Name) : Except FileError Name := do
  sys.permit t (parts path) (.next n)
  .ok n

/-- Writes a file, new or in place of another; its directory must exist. A write that fails leaves
everything as it was. -/
def write (t : Tree) (path : Path) (content : List UInt8) : Except FileError Tree := do
  let p ← sys.reach t path (.write content)
  match t.node? p with
  | some .directory => .error .isDirectory
  | _ => .ok (t.put p (.file content))

def makeDirectory (t : Tree) (path : List Step) : Except FileError Tree := do
  sys.permit t path .make
  let p ← t.follow sys.home path
  match t.node? p with
  | some .directory => .ok t
  | some (.file _) => .error .alreadyExists
  | none => .ok (t.put p .directory)

def makeEach (t : Tree) : List (List Step) → Except FileError Unit × Tree
  | [] => (.ok (), t)
  | path :: rest =>
    match sys.makeDirectory t path with
    | .ok t => makeEach t rest
    | .error e => (.error e, t)

/-- Makes a directory, and first those that it stands in where one of them is missing. The empty
path asks for none. -/
def makeDirectories (t : Tree) (path : Path) : Except FileError Unit × Tree :=
  if 0 ∈ path then (.error .hasNul, t)
  else if path.isEmpty then (.ok (), t)
  else
    match sys.makeDirectory t (steps path) with
    | .ok t => (.ok (), t)
    | .error .notFound => sys.makeEach t (stages (steps path) ++ [steps path])
    | .error e => (.error e, t)

end System

end Folio.Files
