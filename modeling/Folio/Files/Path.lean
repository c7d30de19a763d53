import Folio.Text.Split
import Folio.Text.Utf8

namespace Folio.Files

abbrev Path := List UInt8

def slash : UInt8 := 0x2F

def dot : UInt8 := 0x2E

structure IsName (bs : List UInt8) : Prop where
  ne_nil : bs ≠ []
  no_slash : slash ∉ bs
  no_nul : 0 ∉ bs
  ne_here : bs ≠ [dot]
  ne_above : bs ≠ [dot, dot]

instance (bs : List UInt8) : Decidable (IsName bs) :=
  decidable_of_decidable_of_iff
    (p := bs ≠ [] ∧ slash ∉ bs ∧ 0 ∉ bs ∧ bs ≠ [dot] ∧ bs ≠ [dot, dot])
    ⟨fun ⟨h₁, h₂, h₃, h₄, h₅⟩ ↦ ⟨h₁, h₂, h₃, h₄, h₅⟩,
      fun ⟨h₁, h₂, h₃, h₄, h₅⟩ ↦ ⟨h₁, h₂, h₃, h₄, h₅⟩⟩

structure Name where
  bytes : List UInt8
  isName : IsName bytes
deriving DecidableEq

/-- Where something stands: the names that lead there from the root. -/
abbrev Place := List Name

inductive Step
  | root
  | here
  | above
  | name (n : Name)
deriving DecidableEq

def Step.ofBytes? (bs : List UInt8) : Option Step :=
  if bs = [dot] then some .here
  else if bs = [dot, dot] then some .above
  else if h : IsName bs then some (.name ⟨bs, h⟩)
  else none

def isAbsolute (path : Path) : Bool :=
  path.head? = some slash

def steps (path : Path) : List Step :=
  (if isAbsolute path then [.root] else []) ++
    (Text.splitOn slash path).filterMap Step.ofBytes?

/-- The steps of a path to what is there. A slash at the end leaves a step behind that stays where
it is, since only a directory can stand there. -/
def parts (path : Path) : List Step :=
  steps path ++ (if path.getLast? = some slash then [.here] else [])

/-- The steps to the directories that a path leads through, outermost first. Steps that stay where
they are lead to no further one; those at the end of a path belong to the last name before them. -/
def stages (path : List Step) : List (List Step) :=
  let named := (path.reverse.dropWhile (· = .here)).length
  ((List.range' 1 (named - 1)).map path.take).filter (·.getLast? ≠ some .here)

def join (directory path : Path) : Path :=
  if isAbsolute path || directory.isEmpty then path
  else if directory.getLast? = some slash then directory ++ path
  else directory ++ slash :: path

/-- The name at the end of a path, unless that leads upward. -/
def fileName? (path : Path) : Option Name :=
  match ((steps path).filter (· ≠ .here)).getLast? with
  | some (.name n) => some n
  | _ => none

/-- A name cut at its last dot. A name without a dot, or with only one at its start, is all stem. -/
def splitName (n : Name) : List UInt8 × Option (List UInt8) :=
  match Text.splitFirst dot n.bytes.reverse with
  | none => (n.bytes, none)
  | some (extension, stem) =>
    if stem.isEmpty then (n.bytes, none) else (stem.reverse, some extension.reverse)

def stem (n : Name) : List UInt8 :=
  (splitName n).1

def extension? (n : Name) : Option (List UInt8) :=
  (splitName n).2

/-- The steps from one place to another, both given by their steps from the root. -/
def stepsBetween : List Step → List Step → List Step
  | b :: base, s :: path =>
    if b = s then stepsBetween base path else (b :: base).map (fun _ ↦ .above) ++ s :: path
  | base, path => base.map (fun _ ↦ .above) ++ path

def Step.bytes : Step → Path
  | root => []
  | here => [dot]
  | above => [dot, dot]
  | name n => n.bytes

def pathFromHome (home : Place) (path : Path) : Path :=
  let base := Step.root :: home.map .name
  let path := if isAbsolute path then steps path else base ++ steps path
  [slash].intercalate ((stepsBetween base (path.filter (· ≠ .here))).map Step.bytes)

end Folio.Files
