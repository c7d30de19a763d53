import Folio.Html.Escape
import Folio.Markup.Document

namespace Folio.Dump

open Markup Html

def indent (depth : Nat) : String :=
  String.join (List.replicate depth "  ")

/-- The attribute that keeps what the text of an element does not show. -/
def attributes : Inline → String
  | .heading level _ => " level=\"" ++ toString level ++ "\""
  | .codeBlock (some language) _ => " language=\"" ++ escapeXml language ++ "\""
  | .link _ address | .view _ address => " to=\"" ++ escapeXml address ++ "\""
  | .image _ source => " to=\"" ++ escapeXml source ++ "\""
  | _ => ""

/-- The text of an element; unlike to a reader, a view shows its label here. -/
def content : Inline → String
  | .view label _ => label
  | n => n.plainText

def inline (n : Inline) : String :=
  "<" ++ n.type ++ attributes n ++ ">" ++ escapeXml (content n) ++ "</" ++ n.type ++ ">"

def run (r : Run) : String :=
  String.join (r.map inline)

def item (depth : Nat) (r : Run) : String :=
  indent depth ++ "<item>" ++ run r ++ "</item>\n"

def row (depth : Nat) (cells : List Run) : String :=
  indent depth ++ "<row>" ++ String.join (cells.map fun r ↦ "<cell>" ++ run r ++ "</cell>") ++
    "</row>\n"

mutual

def block (depth : Nat) : Block → String
  | .paragraph r => indent depth ++ "<paragraph>" ++ run r ++ "</paragraph>\n"
  | .list items =>
    indent depth ++ "<list>\n" ++ String.join (items.map (item (depth + 1))) ++
      indent depth ++ "</list>\n"
  | .table rows =>
    indent depth ++ "<table>\n" ++ String.join (rows.map (row (depth + 1))) ++
      indent depth ++ "</table>\n"
  | .segment [] => indent depth ++ "<segment></segment>\n"
  | .segment (b :: bs) =>
    indent depth ++ "<segment>\n" ++ block (depth + 1) b ++ blocks (depth + 1) bs ++
      indent depth ++ "</segment>\n"

def blocks (depth : Nat) : List Block → String
  | [] => ""
  | b :: bs => block depth b ++ blocks depth bs

end

def document (d : Document) : String :=
  "<document>\n" ++ blocks 1 d.blocks ++ "</document>"

end Folio.Dump
