import Folio.Code.Listing
import Folio.Markup.Document.Reader

namespace Folio.Html

open Markup

def inline (l : Code.Language) : Inline → String
  | .text s => s
  | .heading level title =>
    let tag := if 2 ≤ level then "h2" else "h1"
    "<" ++ tag ++ " class=\"text\">" ++ title ++ "</" ++ tag ++ ">"
  | .bold s => "<strong>" ++ s ++ "</strong>"
  | .italic s => "<em>" ++ s ++ "</em>"
  | .code s => "<code>" ++ escape s ++ "</code>"
  | .codeBlock tag code => Code.highlight l tag code
  | .link label address => "<a href=\"" ++ escapeAttribute address ++ "\">" ++ label ++ "</a>"
  | .image alt source =>
    "<img src=\"" ++ escapeAttribute source ++ "\" alt=\"" ++ escapeAttribute alt ++ "\">"
  | .view .. => ""

def run (l : Code.Language) (r : Run) : String :=
  String.join (r.map (inline l))

def textBlock (s : String) : String :=
  let t := Text.trim s
  if t.isEmpty then "" else "<div class=\"text\">" ++ t ++ "</div>"

/-- The blocks of a paragraph; `text` is what was gathered since the last of them. -/
def paragraph (l : Code.Language) (text : String) : Run → String
  | [] => textBlock text
  | n :: r =>
    if n.isBlockLevel then textBlock text ++ inline l n ++ paragraph l "" r
    else paragraph l (text ++ inline l n) r

def list (l : Code.Language) (items : List Run) : String :=
  "<ul class=\"list\">" ++ String.join (items.map fun r ↦ "<li>" ++ run l r ++ "</li>") ++ "</ul>"

def row (l : Code.Language) (cells : List Run) : String :=
  "<tr>" ++ String.join (cells.map fun r ↦ "<td>" ++ run l r ++ "</td>") ++ "</tr>"

def table (l : Code.Language) (rows : List (List Run)) : String :=
  "<table class=\"table\">" ++ String.join (rows.map (row l)) ++ "</table>"

mutual

def block (l : Code.Language) : Block → String
  | .paragraph content => paragraph l "" content
  | .list items => list l items
  | .table rows => table l rows
  | .segment bs => "<div class=\"segment\">" ++ blocks l bs ++ "</div>"

def blocks (l : Code.Language) : List Block → String
  | [] => ""
  | b :: bs => block l b ++ blocks l bs

end

def fragment (l : Code.Language) (d : Document) : String :=
  blocks l d.blocks

def ofText (l : Code.Language) (source : String) : Except ParseError String :=
  (Document.parse source).map (fragment l)

theorem blocks_append (l : Code.Language) (bs cs : List Block) :
    blocks l (bs ++ cs) = blocks l bs ++ blocks l cs := by
  induction bs with
  | nil => simp [blocks]
  | cons b bs ih => simp only [List.cons_append, blocks, ih, String.append_assoc]

end Folio.Html
