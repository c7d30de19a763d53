import Folio.Code.Token
import Folio.Html.Escape

namespace Folio.Code

open Text Html

/-- A stretch of text in one colour; without a class it is plain. -/
structure Piece where
  spanClass : Option String
  text : List Char
deriving DecidableEq, Repr

/-- The pieces of an include directive: its keyword, one space and its path. -/
def includePieces (cs : List Char) : List Piece :=
  if isWhole cutInclude cs then
    [⟨some "include-keyword", includeKeyword⟩, ⟨none, [' ']⟩,
      ⟨some "include-path", dropBlank (cs.drop includeKeyword.length)⟩]
  else [⟨none, cs⟩]

/-- The pieces of a word with an opening parenthesis at its end: the word, the blanks between, and
the parenthesis as an operator. -/
def callPieces (spanClass : Option String) (cs : List Char) : List Piece :=
  let head := cs.dropLast
  let name := dropBlankEnd head
  [⟨spanClass, name⟩, ⟨none, head.drop name.length⟩, ⟨some "operator", ['(']⟩]

def Token.pieces (t : Token) : List Piece :=
  let cs := t.text.toList
  match t.category with
  | .functionName | .controlKeyword =>
    if cs.getLast? = some '(' then callPieces t.category.spanClass? cs
    else [⟨t.category.spanClass?, cs⟩]
  | .include => includePieces cs
  | c => [⟨c.spanClass?, cs⟩]

abbrev Line := List Piece

namespace Line

def isBlank (l : Line) : Bool :=
  l.all fun p ↦ p.text.all Text.isBlank

end Line

namespace Piece

def dropReturns (p : Piece) : List Char :=
  (p.text.reverse.dropWhile (· == '\r')).reverse

def markup (p : Piece) : String :=
  let cs := p.dropReturns
  if cs = [] then ""
  else match p.spanClass with
    | some c => "<span class=\"" ++ c ++ "\">" ++ escape (String.ofList cs) ++ "</span>"
    | none => escape (String.ofList cs)

def lines (p : Piece) : List Line :=
  (splitOn '\n' p.text).map fun cs ↦ [⟨p.spanClass, cs⟩]

end Piece

/-- Puts lines after lines: the last of the first and the first of the second are one line. -/
def joinLines {α : Type} : List (List α) → List (List α) → List (List α)
  | [], ms => ms
  | [l], m :: ms => (l ++ m) :: ms
  | l :: ls, ms => l :: joinLines ls ms

def linesOf (ts : List Token) : List Line :=
  (ts.flatMap Token.pieces).foldr (fun p ls ↦ joinLines p.lines ls) [[]]

def trimLines (ls : List Line) : List Line :=
  ((ls.dropWhile Line.isBlank).reverse.dropWhile Line.isBlank).reverse

def Line.markup (l : Line) : String :=
  String.join (l.map Piece.markup)

def renderLines (ts : List Token) : List String :=
  (trimLines (linesOf ts)).map Line.markup

def markupLines (l : Language) (code : String) : List String :=
  renderLines (classify l code)

/-- A listing of lines already in markup, with their numbers beside them. The tag names the
language that a fence gave. -/
def listing (tag : Option String) (lines : List String) : String :=
  let numbers := (List.range lines.length).map fun i ↦
    "<div class=\"lines-index\">" ++ toString (i + 1) ++ "</div>"
  let rows := lines.map fun l ↦
    "<div class=\"code-line-parent\"><div class=\"code-line\">" ++ l ++ "</div></div>"
  let tagged := match tag with
    | some t => " data-language=\"" ++ escape t ++ "\""
    | none => ""
  "<div class=\"holder code\"" ++ tagged ++ ">" ++
    "<div class=\"lines\">" ++ String.join numbers ++ "</div>" ++
    "<div class=\"scrollable\"><div class=\"codes\">" ++ String.join rows ++ "</div></div></div>"

def highlight (l : Language) (tag : Option String) (code : String) : String :=
  listing tag (markupLines l code)

end Folio.Code
