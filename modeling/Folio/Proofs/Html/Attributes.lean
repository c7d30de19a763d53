import Folio.Html.Page
import Folio.Proofs.Html.Paragraphs
import Folio.Proofs.Html.Template

namespace Folio.Markup

/-- The inline without the data that its attributes are filled from. -/
def Inline.skeleton : Inline → Inline
  | .link label _ => .link label ""
  | .image _ _ => .image "" ""
  | .codeBlock (some _) written => .codeBlock (some "") written
  | n => n

def Document.skeleton (d : Document) : Document :=
  d.mapRuns (·.map Inline.skeleton)

theorem Inline.isBlockLevel_skeleton (n : Inline) : n.skeleton.isBlockLevel = n.isBlockLevel := by
  cases n with
  | codeBlock tag code => cases tag <;> rfl
  | _ => rfl

end Folio.Markup

namespace Folio.Html

open Markup

/-- The attributes that an inline fills, in the order in which they are written. -/
def inlineAttributes : Inline → List Attribute
  | .link _ address => [⟨.address, address⟩]
  | .image alt source => [⟨.source, source⟩, ⟨.alternative, alt⟩]
  | .codeBlock (some tag) _ => [⟨.language, tag⟩]
  | _ => []

def attributes (d : Document) : List Attribute :=
  d.inlines.flatMap inlineAttributes

def listingBody (lines : List String) : String :=
  "<div class=\"lines\">" ++ Code.numberColumn lines.length ++ "</div>" ++
    "<div class=\"scrollable\"><div class=\"codes\">" ++ Code.rowColumn lines ++ "</div></div></div>"

theorem listing_eq_body (tag : Option String) (lines : List String) :
    Code.listing tag lines = Code.holderTag tag ++ listingBody lines := by
  -- not by its equation lemma: its literals are too long for that to be proved
  delta listingBody
  rw [Code.listing_eq]
  simp only [String.append_assoc]

section

variable (l : Code.Language)

def inlineTemplate : Inline → Template
  | .link label _ => .hole "<a " .address (.text (">" ++ label ++ "</a>"))
  | .image _ _ => .hole "<img " .source (.hole " " .alternative (.text ">"))
  | .codeBlock (some _) code =>
    .hole "<div class=\"holder code\" " .language (.text (">" ++ listingBody (Code.markupLines l code)))
  | n => .text (inline l n)

def runTemplate (r : Run) : Template :=
  .join (r.map (inlineTemplate l))

/-- The template of a paragraph; `t` is that of the text gathered since its last block. -/
def paragraphTemplate (t : Template) : Run → Template
  | [] => t.block
  | n :: r =>
    if n.isBlockLevel then
      (t.block.append (inlineTemplate l n)).append (paragraphTemplate (.text "") r)
    else paragraphTemplate (t.append (inlineTemplate l n)) r

def listTemplate (items : List Run) : Template :=
  .elements "<ul class=\"list\">" "</ul>" (fun r ↦ (runTemplate l r).wrap "<li>" "</li>") items

def rowTemplate (cells : List Run) : Template :=
  .elements "<tr>" "</tr>" (fun r ↦ (runTemplate l r).wrap "<td>" "</td>") cells

def tableTemplate (rows : List (List Run)) : Template :=
  .elements "<table class=\"table\">" "</table>" (rowTemplate l) rows

mutual

def blockTemplate : Block → Template
  | .paragraph content => paragraphTemplate l (.text "") content
  | .list items => listTemplate l items
  | .table rows => tableTemplate l rows
  | .segment bs => (blocksTemplate bs).wrap "<div class=\"segment\">" "</div>"

def blocksTemplate : List Block → Template
  | [] => .text ""
  | b :: bs => (blockTemplate b).append (blocksTemplate bs)

end

def fragmentTemplate (d : Document) : Template :=
  blocksTemplate l d.blocks

end

def pageHead : String :=
  "<!DOCTYPE html>\n" ++
  "<html lang=\"en\">\n" ++
  "<head>\n" ++
  "    <meta charset=\"UTF-8\">\n" ++
  "    <meta name=\"viewport\" content=\"width=device-width, initial-scale=1.0\">\n"

def pageRest (name fragment : String) : String :=
  "    <title>" ++ escape name ++ "</title>\n" ++
  "</head>\n" ++
  "<body>\n" ++
  "    <div id=\"main\">\n" ++
  "        <div id=\"header\"></div>\n" ++
  "        <div id=\"content\">" ++ fragment ++ "</div>\n" ++
  "        <div id=\"footer\"></div>\n" ++
  "    </div>\n" ++
  "</body>\n" ++
  "</html>\n"

theorem page_eq (shell : Shell) (name fragment : String) :
    shell.page name fragment = pageHead ++
      ("    <link rel=\"stylesheet\" href=\"" ++ escape shell.stylesheet ++ "\">\n") ++
        pageRest name fragment := by
  delta Shell.page pageHead pageRest
  simp only [String.append_assoc]

def pageTemplate (name fragment : String) : Template :=
  .hole (pageHead ++ "    <link rel=\"stylesheet\" ") .stylesheet
    (.text (">\n" ++ pageRest name fragment))

/-- A value between quotes, however its markup is cut into literals. -/
theorem Slot.write_between {first last before after : String} (k : Slot) (data : String)
    (hfirst : first = before ++ k.name ++ "=\"") (hlast : last = "\"" ++ after) :
    first ++ k.write data ++ last = before ++ Attribute.written ⟨k, data⟩ ++ after := by
  rw [hfirst, hlast, Attribute.written, Attribute.value]
  simp only [String.append_assoc]

section

variable {l : Code.Language}

theorem link_fits (label address : String) :
    Fits (inlineTemplate l (.link label address)) (inlineAttributes (.link label address))
      (inline l (.link label address)) := by
  have hopen : "<a href=\"" ++ escapeAttribute address ++ "\">" =
      "<a " ++ Attribute.written ⟨.address, address⟩ ++ ">" :=
    Slot.write_between .address address (by decide) (by decide)
  have hlink : inline l (.link label address) =
      "<a " ++ Attribute.written ⟨.address, address⟩ ++ (">" ++ label ++ "</a>") := by
    rw [← String.append_assoc, ← String.append_assoc, ← hopen]
    rfl
  rw [hlink]
  exact .hole "<a " ⟨.address, address⟩ (.text _)

theorem image_fits (alt source : String) :
    Fits (inlineTemplate l (.image alt source)) (inlineAttributes (.image alt source))
      (inline l (.image alt source)) := by
  have hsource : "<img src=\"" ++ escapeAttribute source ++ "\" alt=\"" =
      "<img " ++ Attribute.written ⟨.source, source⟩ ++ " alt=\"" :=
    Slot.write_between .source source (by decide) (by decide)
  have halt : " alt=\"" ++ escapeAttribute alt ++ "\">" =
      " " ++ Attribute.written ⟨.alternative, alt⟩ ++ ">" :=
    Slot.write_between .alternative alt (by decide) (by decide)
  have himage : inline l (.image alt source) = "<img " ++ Attribute.written ⟨.source, source⟩ ++
      (" " ++ Attribute.written ⟨.alternative, alt⟩ ++ ">") := by
    rw [← halt, ← String.append_assoc, ← String.append_assoc, ← hsource]
    rfl
  rw [himage]
  exact .hole "<img " ⟨.source, source⟩ (.hole " " ⟨.alternative, alt⟩ (.text ">"))

theorem codeBlock_fits (tag code : String) :
    Fits (inlineTemplate l (.codeBlock (some tag) code))
      (inlineAttributes (.codeBlock (some tag) code)) (inline l (.codeBlock (some tag) code)) := by
  have hopen : Code.holderTag (some tag) =
      "<div class=\"holder code\" " ++ Attribute.written ⟨.language, tag⟩ ++ ">" := by
    rw [Code.holderTag_some]
    exact Slot.write_between .language tag (by decide) (by decide)
  have hcode : inline l (.codeBlock (some tag) code) =
      "<div class=\"holder code\" " ++ Attribute.written ⟨.language, tag⟩ ++
        (">" ++ listingBody (Code.markupLines l code)) := by
    have hlisting : inline l (.codeBlock (some tag) code) =
        Code.listing (some tag) (Code.markupLines l code) := rfl
    rw [hlisting, listing_eq_body, hopen, String.append_assoc]
  rw [hcode]
  exact .hole "<div class=\"holder code\" " ⟨.language, tag⟩ (.text _)

theorem inline_fits (n : Inline) :
    Fits (inlineTemplate l n.skeleton) (inlineAttributes n) (inline l n) := by
  cases n with
  | link label address => exact link_fits label address
  | image alt source => exact image_fits alt source
  | codeBlock tag code =>
    cases tag with
    | none => exact .text _
    | some tag => exact codeBlock_fits tag code
  | _ => exact .text _

theorem run_fits (r : Run) :
    Fits (runTemplate l (r.map Inline.skeleton)) (r.flatMap inlineAttributes) (run l r) := by
  rw [runTemplate, List.map_map]
  exact .join inline_fits r

theorem paragraph_fits {t : Template} {as : List Attribute} {text : String} (h : Fits t as text)
    (r : Run) : Fits (paragraphTemplate l t (r.map Inline.skeleton))
      (as ++ r.flatMap inlineAttributes) (paragraph l text r) := by
  -- on the run; the text gathered since the last block keeps to its template `t`
  induction r generalizing t as text with
  | nil =>
    rw [List.flatMap_nil, List.append_nil]
    exact h.block
  | cons n r ih =>
    rw [paragraph, List.map_cons, paragraphTemplate, n.isBlockLevel_skeleton, List.flatMap_cons,
      ← List.append_assoc]
    split
    · exact (h.block.append (inline_fits n)).append (ih (.text ""))
    · exact ih (h.append (inline_fits n))

theorem item_fits (first last : String) (r : Run) :
    Fits ((runTemplate l (r.map Inline.skeleton)).wrap first last) (r.flatMap inlineAttributes)
      (first ++ run l r ++ last) :=
  (run_fits r).wrap first last

theorem flatMap_flatten {α β : Type} (f : α → List β) (xs : List (List α)) :
    xs.flatten.flatMap f = xs.flatMap (·.flatMap f) := by
  rw [← List.flatMap_id, List.flatMap_assoc]
  rfl

theorem list_fits (items : List Run) :
    Fits (listTemplate l (items.map (·.map Inline.skeleton)))
      (items.flatten.flatMap inlineAttributes) (list l items) := by
  rw [listTemplate, Template.elements_map, flatMap_flatten]
  exact .elements _ _ (item_fits "<li>" "</li>") items

theorem row_fits (cells : List Run) :
    Fits (rowTemplate l (cells.map (·.map Inline.skeleton)))
      (cells.flatten.flatMap inlineAttributes) (row l cells) := by
  rw [rowTemplate, Template.elements_map, flatMap_flatten]
  exact .elements _ _ (item_fits "<td>" "</td>") cells

theorem table_fits (rows : List (List Run)) :
    Fits (tableTemplate l (rows.map (·.map (·.map Inline.skeleton))))
      (rows.flatten.flatten.flatMap inlineAttributes) (table l rows) := by
  have hrows : rows.flatten.flatten.flatMap inlineAttributes =
      rows.flatMap fun cells ↦ cells.flatten.flatMap inlineAttributes := by
    rw [flatMap_flatten, flatMap_flatten]
    simp only [flatMap_flatten]
  rw [tableTemplate, Template.elements_map, hrows]
  exact .elements _ _ row_fits rows

mutual

theorem block_fits : ∀ b : Block,
    Fits (blockTemplate l (b.mapRuns (·.map Inline.skeleton)))
      (b.inlines.flatMap inlineAttributes) (block l b)
  | .paragraph content => paragraph_fits (.text "") content
  | .list items => list_fits items
  | .table rows => table_fits rows
  | .segment bs => (blocks_fits bs).wrap "<div class=\"segment\">" "</div>"

theorem blocks_fits : ∀ bs : List Block,
    Fits (blocksTemplate l (Block.mapRunsAll (·.map Inline.skeleton) bs))
      ((Block.inlinesAll bs).flatMap inlineAttributes) (blocks l bs)
  | [] => .text ""
  | b :: bs => by
    rw [Block.mapRunsAll, blocksTemplate, Block.inlinesAll, List.flatMap_append, blocks]
    exact (block_fits b).append (blocks_fits bs)

end

end

theorem page_fits (shell : Shell) (name fragment : String) :
    Fits (pageTemplate name fragment) [⟨.stylesheet, shell.stylesheet⟩]
      (shell.page name fragment) := by
  have hlink : "    <link rel=\"stylesheet\" href=\"" ++ escape shell.stylesheet ++ "\">\n" =
      "    <link rel=\"stylesheet\" " ++ Attribute.written ⟨.stylesheet, shell.stylesheet⟩ ++ ">\n" :=
    Slot.write_between .stylesheet shell.stylesheet (by decide) (by decide)
  have hpage : shell.page name fragment = pageHead ++ "    <link rel=\"stylesheet\" " ++
      Attribute.written ⟨.stylesheet, shell.stylesheet⟩ ++ (">\n" ++ pageRest name fragment) := by
    rw [page_eq, hlink]
    simp only [String.append_assoc]
  rw [hpage]
  exact .hole _ ⟨.stylesheet, shell.stylesheet⟩ (.text _)

/-- What is written for a document or a page is its template with its attributes in their places.
Each value decodes to its data and holds no angle bracket; a double quote that it holds is one of
the data, in a slot that does not escape it. -/
theorem attributes_written (l : Code.Language) :
    (∀ d : Document, Fits (fragmentTemplate l d.skeleton) (attributes d) (fragment l d)) ∧
    (∀ shell name content, Fits (pageTemplate name content) [⟨.stylesheet, shell.stylesheet⟩]
      (Shell.page shell name content)) ∧
    ∀ a : Attribute, AngleFree a.value.toList ∧ decodeValue a.value.toList = a.data.toList ∧
      ('"' ∈ a.value.toList ↔
        (a.slot = .language ∨ a.slot = .stylesheet) ∧ '"' ∈ a.data.toList) := by
  refine ⟨fun d ↦ blocks_fits d.blocks, page_fits, fun a ↦ ?_⟩
  exact ⟨a.angleFree_value, a.decodeValue_value, a.quote_mem_value_iff⟩

/-- The data stands in the text as a quoted value behind `first`. -/
def Quotes (first data s : String) : Prop :=
  ∃ v after, s = first ++ v ++ "\"" ++ after ∧ '"' ∉ v.toList ∧
    decodeValue v.toList = data.toList

theorem takeWhile_unquoted {v : List Char} (h : '"' ∉ v) (rest : List Char) :
    (v ++ '"' :: rest).takeWhile (· ≠ '"') = v := by
  refine (Text.span_run (fun c hc ↦ ?_) (by simp)).1
  exact decide_eq_true (ne_of_mem_of_not_mem hc h)

/-- A quoted value goes as far as the first double quote. -/
theorem quotes_iff {v : String} (hv : '"' ∉ v.toList) (first after data : String) :
    Quotes first data (first ++ v ++ "\"" ++ after) ↔ decodeValue v.toList = data.toList := by
  constructor
  · rintro ⟨w, rest, htext, hw, hdata⟩
    have hchars : v.toList ++ '"' :: after.toList = w.toList ++ '"' :: rest.toList := by
      have happend := congrArg String.toList htext
      simpa using happend
    rw [← takeWhile_unquoted hv after.toList, hchars, takeWhile_unquoted hw, hdata]
  · intro hdata
    exact ⟨v, after, rfl, hv, hdata⟩

/-- A double quote ends the value of a stylesheet, and that of a language: what is read there is
the data before it. -/
theorem quote_ends_value :
    (¬Quotes (pageHead ++ "    <link rel=\"stylesheet\" href=\"") "a\" b=\"c"
        (Shell.page ⟨"a\" b=\"c"⟩ "n" "f") ∧
      Quotes (pageHead ++ "    <link rel=\"stylesheet\" href=\"") "a"
        (Shell.page ⟨"a\" b=\"c"⟩ "n" "f")) ∧
    ¬Quotes "<div class=\"holder code\" data-language=\"" "c\"x"
        (fragment .cpp ⟨[.paragraph [.codeBlock (some "c\"x") "y"]]⟩) ∧
      Quotes "<div class=\"holder code\" data-language=\"" "c"
        (fragment .cpp ⟨[.paragraph [.codeBlock (some "c\"x") "y"]]⟩) := by
  have hpage : Shell.page ⟨"a\" b=\"c"⟩ "n" "f" =
      pageHead ++ "    <link rel=\"stylesheet\" href=\"" ++ "a" ++ "\"" ++
        (" b=\"c" ++ "\">\n" ++ pageRest "n" "f") := by
    have hvalue : escape "a\" b=\"c" = "a" ++ "\"" ++ " b=\"c" := by decide
    rw [page_eq, hvalue]
    simp only [String.append_assoc]
  have hcode : fragment .cpp ⟨[.paragraph [.codeBlock (some "c\"x") "y"]]⟩ =
      "<div class=\"holder code\" data-language=\"" ++ "c" ++ "\"" ++
        ("x" ++ "\">" ++ listingBody (Code.markupLines .cpp "y")) := by
    have hvalue : escape "c\"x" = "c" ++ "\"" ++ "x" := by decide
    rw [fragment_codeBlock, Code.highlight, listing_eq_body, Code.holderTag_some, hvalue]
    simp only [String.append_assoc]
  rw [hpage, hcode, quotes_iff (by decide), quotes_iff (by decide), quotes_iff (by decide),
    quotes_iff (by decide)]
  decide

end Folio.Html
