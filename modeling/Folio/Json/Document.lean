import Folio.Code.Token
import Folio.Json.Value
import Folio.Markup.Document
import Folio.Markup.Token

namespace Folio.Json

open Markup Value

def inline : Inline → Value
  | .text s => object [("text", string s)]
  | .heading level title =>
    object [("heading", object [("level", number level), ("text", string title)])]
  | .bold s => object [("bold", string s)]
  | .italic s => object [("italic", string s)]
  | .code s => object [("code", string s)]
  | .codeBlock language body =>
    object [("code-block",
      object [("language", language.elim null string), ("code", string body)])]
  | .link label address =>
    object [("link", object [("label", string label), ("address", string address)])]
  | .image alt source =>
    object [("image", object [("alt", string alt), ("src", string source)])]
  | .view label address =>
    object [("view", object [("label", string label), ("address", string address)])]

def content (r : Run) : Value :=
  object [("content", array (r.map inline))]

mutual

def block : Block → Value
  | .paragraph r => object [("paragraph", content r)]
  | .list items => object [("list", object [("items", array (items.map content))])]
  | .table rows =>
    object [("table", object [("rows",
      array (rows.map fun cells ↦ object [("cells", array (cells.map content))]))])]
  | .segment bs => object [("segment", object [("blocks", array (blocks bs))])]

def blocks : List Block → List Value
  | [] => []
  | b :: bs => block b :: blocks bs

end

def document (d : Document) : Value :=
  object [("blocks", array (blocks d.blocks))]

def token (t : Markup.Token) : Value :=
  object [("kind", string t.kind.label), ("value", string t.value)]

def codeToken (t : Code.Token) : Value :=
  object [("category", string t.category.name), ("text", string t.text)]

end Folio.Json
