import Folio.Proofs.Config.Merge
import Mathlib.Data.List.Induction

namespace Folio.Config

namespace Engine

variable {S : Type} {E : Engine S} {table name : String}

/-- The entries of a file give these scalars to the site, each name once. -/
def Gives (E : Engine S) (entries : List (String × Value S)) (given : List (String × S)) : Prop :=
  E.given? entries = some given ∧ (given.map Prod.fst).Nodup

end Engine

namespace Layer

variable {S : Type} (E : Engine S)

/-- The file at a path is there and gives scalars to the site, each name once. -/
def Sets (path : Files.Path) : Prop :=
  ∃ origin s entries given, E.find path = some (origin, s) ∧
    E.read (some origin) s = some entries ∧ E.Gives entries given

/-- A layer that can be counted on: its file, if there has to be one, is there, and what is there
sets scalars; an override gives a scalar to a setting. -/
inductive Fits : Layer S → Prop
  | file {path : Files.Path} : Sets E path → Fits (.file path)
  | optionalFile {path : Files.Path} : Sets E path → Fits (.optionalFile path)
  | absent {path : Files.Path} : E.find path = none → Fits (.optionalFile path)
  | override {key : String} {s : S} {k : Key} {x : Setting} : E.key? key = some k →
    E.siteScalars? k (.scalar s) = some [(x.name, s)] → Fits (.override key s)

end Layer

section Layers

variable {S : Type} {E : Engine S} {layers : List (Layer S)}

end Layers

end Folio.Config
