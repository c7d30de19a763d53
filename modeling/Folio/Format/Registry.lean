import Folio.Dump
import Folio.Html.Fragment
import Folio.Json.Document

namespace Folio.Format

open Markup

inductive FormatError
  | notFound (name : String)
  | failed (reason : String)
deriving DecidableEq, Repr

def FormatError.message : FormatError → String
  | notFound name => "format '" ++ name ++ "' not found"
  | failed reason => "serialization error: " ++ reason

structure Formatter where
  name : String
  format : Document → Except FormatError String

structure Registry where
  formatters : List Formatter

namespace Formatter

def html (l : Code.Language) : Formatter :=
  ⟨"html", fun d ↦ .ok (Html.fragment l d)⟩

def tag : Formatter :=
  ⟨"tag", fun d ↦ .ok (Dump.document d)⟩

def json (print : Json.Printer) : Formatter :=
  ⟨"json", fun d ↦ (print (Json.document d)).mapError .failed⟩

end Formatter

namespace Registry

def empty : Registry :=
  ⟨[]⟩

def register (r : Registry) (f : Formatter) : Registry :=
  ⟨f :: r.formatters.filter (·.name != f.name)⟩

def get? (r : Registry) (name : String) : Option Formatter :=
  r.formatters.find? (·.name == name)

def has (r : Registry) (name : String) : Bool :=
  (r.get? name).isSome

def names (r : Registry) : List String :=
  (r.formatters.map Formatter.name).mergeSort (· ≤ ·)

def format (r : Registry) (d : Document) (name : String) : Except FormatError String :=
  match r.get? name with
  | some f => f.format d
  | none => .error (.notFound name)

def standard (print : Json.Printer) (l : Code.Language) : Registry :=
  ((empty.register (.html l)).register .tag).register (.json print)

end Registry

end Folio.Format
