import Folio.Format.Registry
import Folio.Html.Page
import Folio.Markup.Document.Reader

namespace Folio

inductive Stage
  | token | ast | html | code
deriving DecidableEq, Repr

inductive Form
  | simple | json | tag | fragment | page | html
deriving DecidableEq, Repr

inductive Inspection
  | tokenSimple | tokenJson
  | astTag | astJson
  | htmlFragment | htmlPage
  | codeHtml | codeJson
deriving DecidableEq, Repr

def Stage.name : Stage → String
  | token => "token"
  | ast => "ast"
  | html => "html"
  | code => "code"

def Stage.all : List Stage :=
  [token, ast, html, code]

def Form.name : Form → String
  | simple => "simple"
  | json => "json"
  | tag => "tag"
  | fragment => "fragment"
  | page => "page"
  | html => "html"

inductive InspectionError
  | unknown (format : String)
  | unknownStage (stage : String)
  | unknownForm (form : String) (stage : Stage)
  | unreadable (path reason : String)
  | malformed (error : Markup.ParseError)
  | unprinted (error : Format.FormatError)
deriving DecidableEq, Repr

namespace InspectionError

def message : InspectionError → String
  | unknown format => "Invalid format: " ++ format
  | unknownStage stage => "Invalid stage: " ++ stage
  | unknownForm form stage =>
    "Invalid format type: '" ++ form ++ "' is not supported for the " ++ stage.name ++ " stage"
  | unreadable path reason => "IO error: " ++ path ++ ": " ++ reason
  | malformed error => "Failed to parse document: " ++ error.message
  | unprinted error => error.message

end InspectionError

namespace Inspection

def stage : Inspection → Stage
  | tokenSimple | tokenJson => .token
  | astTag | astJson => .ast
  | htmlFragment | htmlPage => .html
  | codeHtml | codeJson => .code

def form : Inspection → Form
  | tokenSimple => .simple
  | tokenJson | astJson | codeJson => .json
  | astTag => .tag
  | htmlFragment => .fragment
  | htmlPage => .page
  | codeHtml => .html

def all : List Inspection :=
  [tokenSimple, tokenJson, astTag, astJson, htmlFragment, htmlPage, codeHtml, codeJson]

def name (i : Inspection) : String :=
  i.stage.name ++ "-" ++ i.form.name

def names : List String :=
  all.map name

/-- Reads the name of an inspection: the stage ends at the first dash. -/
def ofName (s : String) : Except InspectionError Inspection :=
  match Text.splitFirst '-' s.toList with
  | none => .error (.unknown s)
  | some (stage, form) =>
    let form := String.ofList form
    match Stage.all.find? fun t ↦ t.name.toList == stage with
    | none => .error (.unknownStage (String.ofList stage))
    | some stage =>
      match all.find? fun i ↦ i.stage = stage ∧ i.form.name = form with
      | none => .error (.unknownForm form stage)
      | some i => .ok i

def tokenLines (ts : List Markup.Token) : String :=
  String.join (ts.map fun t ↦ if t.kind = .newline then t.display ++ "\n" else t.display)

/-- What an inspection shows of a document; `name` is the title of a whole page. -/
def render (print : Json.Printer) (i : Inspection) (name source : String) :
    Except InspectionError String :=
  let formatted (format : String) : Except InspectionError String := do
    let d ← (Markup.Document.parse source).mapError .malformed
    ((Format.Registry.standard print .cpp).format d format).mapError .unprinted
  let printed (v : Json.Value) : Except InspectionError String :=
    (print v).mapError fun reason ↦ .unprinted (.failed reason)
  match i with
  | tokenSimple => .ok (tokenLines (Markup.lex source))
  | tokenJson => printed (.array ((Markup.lex source).map Json.token))
  | astTag => formatted "tag"
  | astJson => formatted "json"
  | htmlFragment => formatted "html"
  | htmlPage => do
    let fragment ← formatted "html"
    .ok (Html.Shell.standard.page name fragment)
  | codeHtml => .ok (Code.highlight .cpp none source)
  | codeJson => printed (.array ((Code.classify .cpp source).map Json.codeToken))

end Inspection

end Folio
