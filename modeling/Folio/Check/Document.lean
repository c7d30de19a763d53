import Folio.Check.Broken

namespace Folio.Check

open Markup

inductive InlineCheck
  | text (s : String)
  | heading (level : Nat) (title : String)
  | bold (s : String)
  | italic (s : String)
  | code (s : String)
  /-- the language, and a part of the code -/
  | codeBlock (language : Option String) (part : String)
  | link (label address : String)
  | image (alt source : String)
  | view (label address : String)
  /-- the visible text of a node of any type -/
  | plainText (s : String)

inductive ParagraphCheck
  | text (s : String)
  | textContains (part : String)
  | inlineCount (n : Nat)
  | inline (i : Nat) (checks : List InlineCheck)

inductive ListCheck
  | itemCount (n : Nat)
  | itemText (i : Nat) (s : String)
  | itemInline (item i : Nat) (checks : List InlineCheck)

inductive TableCheck
  | rowCount (n : Nat)
  | rowTexts (row : Nat) (texts : List String)
  | cellInline (row cell i : Nat) (checks : List InlineCheck)

mutual

inductive BlockCheck
  | anything
  | paragraph (checks : List ParagraphCheck)
  | list (checks : List ListCheck)
  | table (checks : List TableCheck)
  | segment (checks : List LevelCheck)

inductive LevelCheck
  | blockCount (n : Nat)
  | block (i : Nat) (check : BlockCheck)

end

abbrev Outcome := Except Broken Unit

def all {α : Type} (check : α → Outcome) : List α → Outcome
  | [] => .ok ()
  | a :: as => do
    check a
    all check as

def Place.enter (p : Place) (entries : String) (i : Nat) : Place :=
  p ++ [⟨entries, i⟩]

def entryAt {α : Type} (p : Place) (what : String) (l : List α) (i : Nat) : Except Broken α :=
  match l[i]? with
  | some a => .ok a
  | none => .error ⟨p, .outOfBounds what i l.length⟩

def checkText (p : Place) (m : TextMatch) (actual : String) : Outcome :=
  if m.accepts actual then .ok () else .error ⟨p, .wrongText m actual⟩

def checkEqual {α : Type} [DecidableEq α] (p : Place) (about : String) (shown : α → String)
    (actual expected : α) : Outcome :=
  if actual = expected then .ok () else .error ⟨p, .unequal about (shown actual) (shown expected)⟩

def checkTwo (p : Place) (node field₁ field₂ : String) (actual expected : String × String) :
    Outcome := do
  checkEqual p (node ++ " " ++ field₁) Text.quoted actual.1 expected.1
  checkEqual p (node ++ " " ++ field₂) Text.quoted actual.2 expected.2

def checkInline (p : Place) (n : Inline) : InlineCheck → Outcome
  | .text s =>
    match n with
    | .text actual => checkText p (.exact s) actual
    | n => .error ⟨p, .wrongInline "text" n⟩
  | .heading level title =>
    match n with
    | .heading actual text => do
      checkEqual p "heading level" toString actual level
      checkText p (.exact title) text
    | n => .error ⟨p, .wrongInline "heading" n⟩
  | .bold s =>
    match n with
    | .bold actual => checkText p (.exact s) actual
    | n => .error ⟨p, .wrongInline "bold" n⟩
  | .italic s =>
    match n with
    | .italic actual => checkText p (.exact s) actual
    | n => .error ⟨p, .wrongInline "italic" n⟩
  | .code s =>
    match n with
    | .code actual => checkText p (.exact s) actual
    | n => .error ⟨p, .wrongInline "code" n⟩
  | .codeBlock language part =>
    match n with
    | .codeBlock actual body => do
      checkEqual p "language" shownOption actual language
      checkText p (.contains part) body
    | n => .error ⟨p, .wrongInline "code-block" n⟩
  | .link label address =>
    match n with
    | .link l a => checkTwo p "link" "label" "address" (l, a) (label, address)
    | n => .error ⟨p, .wrongInline "link" n⟩
  | .image alt source =>
    match n with
    | .image a s => checkTwo p "image" "alt" "src" (a, s) (alt, source)
    | n => .error ⟨p, .wrongInline "image" n⟩
  | .view label address =>
    match n with
    | .view l a => checkTwo p "view" "label" "address" (l, a) (label, address)
    | n => .error ⟨p, .wrongInline "view" n⟩
  | .plainText s => checkText p (.exact s) n.plainText

def checkInlineAt (p : Place) (r : Run) (i : Nat) (checks : List InlineCheck) : Outcome := do
  let n ← entryAt p "Inline" r i
  all (checkInline (p.enter "inlines" i) n) checks

def typesOf (types : List String) : String :=
  "[" ++ ", ".intercalate types ++ "]"

/-- Checks the number of some entries; `detail` is said of the entries that are there. -/
def checkCount (p : Place) (what detail : String) (actual expected : Nat) : Outcome :=
  checkEqual p
    ("Expected " ++ toString expected ++ " " ++ what ++ ", found " ++ toString actual ++ detail)
    toString actual expected

def checkParagraph (p : Place) (r : Run) : ParagraphCheck → Outcome
  | .text s => checkText p (.exact s) (Run.plainText r)
  | .textContains part => checkText p (.contains part) (Run.plainText r)
  | .inlineCount n =>
    checkCount p "inline nodes" (": " ++ typesOf (r.map Inline.type)) r.length n
  | .inline i checks => checkInlineAt p r i checks

def checkList (p : Place) (items : List Run) : ListCheck → Outcome
  | .itemCount n => checkCount p "list items" "" items.length n
  | .itemText i s => do
    let item ← entryAt p "Item" items i
    checkText (p.enter "items" i) (.exact s) (Run.plainText item)
  | .itemInline i j checks => do
    let item ← entryAt p "Item" items i
    checkInlineAt (p.enter "items" i) item j checks

def checkTable (p : Place) (rows : List (List Run)) : TableCheck → Outcome
  | .rowCount n => checkCount p "rows" "" rows.length n
  | .rowTexts i texts => do
    let row ← entryAt p "Row" rows i
    checkEqual (p.enter "rows" i) "cell texts differ" shownList (row.map Run.plainText) texts
  | .cellInline i j k checks => do
    let row ← entryAt p "Row" rows i
    let cell ← entryAt (p.enter "rows" i) "Cell" row j
    checkInlineAt ((p.enter "rows" i).enter "cells" j) cell k checks

mutual

def checkBlock (p : Place) (b : Block) : BlockCheck → Outcome
  | .anything => .ok ()
  | .paragraph checks =>
    match b with
    | .paragraph r => all (checkParagraph p r) checks
    | b => .error ⟨p, .wrongBlock "paragraph" b.type⟩
  | .list checks =>
    match b with
    | .list items => all (checkList p items) checks
    | b => .error ⟨p, .wrongBlock "list" b.type⟩
  | .table checks =>
    match b with
    | .table rows => all (checkTable p rows) checks
    | b => .error ⟨p, .wrongBlock "table" b.type⟩
  | .segment checks =>
    match b with
    | .segment bs => checkLevels p bs checks
    | b => .error ⟨p, .wrongBlock "segment" b.type⟩

def checkLevel (p : Place) (bs : List Block) : LevelCheck → Outcome
  | .blockCount n => checkCount p "blocks" (": " ++ typesOf (bs.map Block.type)) bs.length n
  | .block i check => do
    let b ← entryAt p "Block" bs i
    checkBlock (p.enter "blocks" i) b check

def checkLevels (p : Place) (bs : List Block) : List LevelCheck → Outcome
  | [] => .ok ()
  | c :: cs => do
    checkLevel p bs c
    checkLevels p bs cs

end

def checkDocument (d : Document) (checks : List LevelCheck) : Outcome :=
  checkLevels [] d.blocks checks

end Folio.Check
