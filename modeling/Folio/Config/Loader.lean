import Folio.Config.Engine

namespace Folio.Config

inductive Layer (S : Type)
  | file (path : Files.Path)
  | optionalFile (path : Files.Path)
  | override (key : String) (value : S)
deriving DecidableEq, Repr

namespace Engine

variable {S : Type} (E : Engine S)

def loader : E.Builder :=
  E.addSource (.text Settings.standardText) E.empty

def addLayer (b : E.Builder) : Layer S → Except E.Error E.Builder
  | .file path => .ok (E.addSource (.file path true) b)
  | .optionalFile path => .ok (E.addSource (.file path false) b)
  | .override key value => E.setOverride key value b

def load (layers : List (Layer S)) : Except E.Error Settings := do
  let b ← layers.foldlM E.addLayer E.loader
  E.settings (← E.build b)

end Engine

end Folio.Config
