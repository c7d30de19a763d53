import Folio.Config.Settings
import Folio.Config.Value

namespace Folio.Config

inductive Source
  | text (s : String)
  | file (path : Files.Path) (isRequired : Bool)
deriving DecidableEq, Repr

/-- The library that reads, merges and looks up settings, over scalars of type `S`. A builder
collects sources and overrides, and building puts their values at paths in one tree. -/
structure Engine (S : Type) where
  /-- a scalar where a text is wanted -/
  text : S → String
  /-- what names have in common that differ in case only -/
  fold : String → String
  /-- the path that a text is read as -/
  key? : String → Option Key
  /-- the file that a path leads to: its name in messages, and its text -/
  find : Files.Path → Option (String × String)
  /-- the entries of a text, and of the file it comes from -/
  read : Option String → String → Option (List (String × Value S))
  /-- the tree with a value put at a path -/
  put : Key → Value S → Value S → Value S
  Error : Type
  Builder : Type
  sources : Builder → List Source
  overrides : Builder → List (Key × S)
  empty : Builder
  addSource : Source → Builder → Builder
  setOverride : String → S → Builder → Except Error Builder
  build : Builder → Except Error (Value S)
  settings : Value S → Except Error Settings

namespace Engine

variable {S : Type} (E : Engine S)

/-- Names at the top of a file are paths where they can be read as such. -/
def pathOf (name : String) : Key :=
  (E.key? name).getD ⟨name, []⟩

end Engine

end Folio.Config
