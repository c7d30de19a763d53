import Folio.Config.Loader
import Mathlib.Data.List.Forall2
import Mathlib.Data.List.Nodup

namespace Folio.Config.Engine

variable {S : Type} (E : Engine S)

def scalars? (entries : List (String × Value S)) : Option (List (String × S)) :=
  entries.mapM fun (name, v) ↦ v.scalar?.map (E.fold name, ·)

/-- The scalars that a value gives to the site when it is put at a path: those of a table at the
site itself, or one at an entry of it. A path to another place gives none to the site; no answer means
that something else is put at the site. -/
def siteScalars? (key : Key) (v : Value S) : Option (List (String × S)) :=
  if E.fold key.first = "site" then
    match key.steps, v with
    | [], .table _ entries => E.scalars? entries
    | [.name name], v => v.scalar?.map fun s ↦ [(E.fold name, s)]
    | _, _ => none
  else some []

def given? (entries : List (String × Value S)) : Option (List (String × S)) :=
  (entries.mapM fun (name, v) ↦ E.siteScalars? (E.pathOf name) v).map List.flatten

end Folio.Config.Engine
