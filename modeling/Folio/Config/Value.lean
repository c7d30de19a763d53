namespace Folio.Config

inductive Step
  | name (s : String)
  | place (i : Int)
deriving DecidableEq, Repr

structure Key where
  first : String
  steps : List Step
deriving DecidableEq, Repr

/-- Values over scalars of type `S`. Lists and tables keep the file that they come from. -/
inductive Value (S : Type)
  | nothing
  | scalar (s : S)
  | list (origin : Option String) (items : List (Value S))
  | table (origin : Option String) (entries : List (String × Value S))
deriving Inhabited

namespace Value

variable {S : Type}

def emptyTable : Value S :=
  table none []

def get? (name : String) : Value S → Option (Value S)
  | table _ entries => (entries.find? (·.1 == name)).map Prod.snd
  | _ => none

def scalar? : Value S → Option S
  | scalar s => some s
  | _ => none

end Value

end Folio.Config
