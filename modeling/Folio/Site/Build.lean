import Folio.Files.Path
import Folio.Html.Fragment
import Folio.Markup.Document.Reader

namespace Folio.Site

open Markup

structure Source where
  name : String
  text : String
deriving DecidableEq, Repr

inductive SiteError
  | io (path : Files.Path) (reason : String)
  | malformed (name : String) (error : ParseError)
deriving DecidableEq, Repr

def SiteError.message : SiteError → String
  | io path reason => Text.lossy path ++ ": " ++ reason
  | malformed name error => name ++ ": " ++ error.message

/-- The names of the documents whose pages were stored, and those skipped with the reason. -/
structure Report where
  rendered : List String
  skipped : List (String × SiteError)
deriving DecidableEq, Repr

def Report.isClean (r : Report) : Bool :=
  r.skipped.isEmpty

abbrev Assembler (σ : Type) :=
  String → String → σ → Except SiteError Unit × σ

variable {σ : Type}

def buildOne (assemble : Assembler σ) (s : Source) (state : σ) : Option SiteError × σ :=
  match Document.parse s.text with
  | .error e => (some (.malformed s.name e), state)
  | .ok d =>
    match assemble s.name (Html.fragment .cpp d) state with
    | (.ok _, state) => (none, state)
    | (.error e, state) => (some e, state)

def build (assemble : Assembler σ) : List Source → σ → Report × σ
  | [], state => (⟨[], []⟩, state)
  | s :: ss, state =>
    let (error, state) := buildOne assemble s state
    let (report, state) := build assemble ss state
    match error with
    | none => ({ report with rendered := s.name :: report.rendered }, state)
    | some e => ({ report with skipped := (s.name, e) :: report.skipped }, state)

end Folio.Site
