import Folio.Check.TextMatch
import Folio.Markup.Document

namespace Folio.Check

open Markup

structure Step where
  entries : String
  index : Nat
deriving DecidableEq, Repr

abbrev Place := List Step

def Place.text (p : Place) : String :=
  "document" ++ String.join (p.map fun s ↦ "." ++ s.entries ++ "[" ++ toString s.index ++ "]")

def shownOption : Option String → String
  | some s => "Some(" ++ Text.quoted s ++ ")"
  | none => "None"

def shownList (l : List String) : String :=
  "[" ++ ", ".intercalate (l.map Text.quoted) ++ "]"

def shownUnit (name s : String) : String :=
  name ++ "(" ++ Text.quoted s ++ ")"

def shownFields (name field₁ value₁ field₂ value₂ : String) : String :=
  name ++ " \x7b " ++ field₁ ++ ": " ++ value₁ ++ ", " ++ field₂ ++ ": " ++ value₂ ++ " \x7d"

def shown : Inline → String
  | .text s => shownUnit "Text" s
  | .heading level title =>
    shownFields "Heading" "level" (toString level) "text" (Text.quoted title)
  | .bold s => shownUnit "Bold" s
  | .italic s => shownUnit "Italic" s
  | .code s => shownUnit "Code" s
  | .codeBlock language body =>
    shownFields "CodeBlock" "language" (shownOption language) "code" (Text.quoted body)
  | .link label address =>
    shownFields "Link" "label" (Text.quoted label) "address" (Text.quoted address)
  | .image alt source =>
    shownFields "Image" "alt" (Text.quoted alt) "src" (Text.quoted source)
  | .view label address =>
    shownFields "View" "label" (Text.quoted label) "address" (Text.quoted address)

inductive Fault
  /-- there are fewer entries than the check needs -/
  | outOfBounds (what : String) (index size : Nat)
  /-- a block of another type stands there -/
  | wrongBlock (expected found : String)
  /-- an inline of another type stands there -/
  | wrongInline (expected : String) (node : Inline)
  /-- a text does not do what it should -/
  | wrongText (wanted : TextMatch) (actual : String)
  /-- two things, given as they are shown, should be equal -/
  | unequal (about actual expected : String)
deriving DecidableEq, Repr

structure Broken where
  place : Place
  fault : Fault
deriving DecidableEq, Repr

def textMessage (context : String) (m : TextMatch) (actual : String) : String :=
  context ++ ": Expected text to " ++ m.wish ++ ", but got " ++ Text.quoted actual

def Broken.message (b : Broken) : String :=
  let context := b.place.text
  match b.fault with
  | .outOfBounds what index size =>
    context ++ ": " ++ what ++ " index " ++ toString index ++ " out of bounds (found " ++
      toString size ++ ")"
  | .wrongBlock expected found => context ++ ": Expected " ++ expected ++ ", found " ++ found
  | .wrongInline expected node =>
    context ++ ": Expected " ++ expected ++ ", found " ++ node.type ++ " (" ++ shown node ++ ")"
  | .wrongText wanted actual => textMessage context wanted actual
  | .unequal about actual expected =>
    "assertion \x60left == right\x60 failed: " ++ context ++ ": " ++ about ++ "\n  left: " ++
      actual ++ "\n right: " ++ expected

end Folio.Check
