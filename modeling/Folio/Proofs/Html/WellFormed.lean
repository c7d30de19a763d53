import Folio.Html.Fragment
import Folio.Proofs.Html.Listing

namespace Folio.Markup

mutual

def Block.inlines : Block → List Inline
  | .paragraph content => content
  | .list items => items.flatten
  | .table rows => rows.flatten.flatten
  | .segment bs => inlinesAll bs

def Block.inlinesAll : List Block → List Inline
  | [] => []
  | b :: bs => b.inlines ++ inlinesAll bs

end

/-- Holds no angle brackets where it is shown as it was written. -/
def Inline.PlainProse : Inline → Prop
  | .text s | .heading _ s | .bold s | .italic s | .link s _ => Html.AngleFree s.toList
  | _ => True

instance : DecidablePred Inline.PlainProse
  | .text s | .heading _ s | .bold s | .italic s | .link s _ =>
    inferInstanceAs (Decidable (Html.AngleFree s.toList))
  | .code _ | .codeBlock .. | .image .. | .view .. => isTrue trivial

end Folio.Markup

namespace Folio.Html

open Markup

variable {l : Code.Language}

theorem heading_nests (level : Nat) {title : String} (h : AngleFree title.toList) :
    Nests (inline l (.heading level title)) := by
  have hinline : inline l (.heading level title) =
      "<" ++ (if 2 ≤ level then "h2" else "h1") ++ " class=\"text\">" ++ title ++
        ("</" ++ (if 2 ≤ level then "h2" else "h1") ++ ">") := by
    rw [← String.append_assoc, ← String.append_assoc]
    rfl
  rw [hinline]
  split
  · have hopens : Opens ['h', '2'] ("<" ++ "h2" ++ " class=\"text\">") := fun _ ↦ rfl
    exact .element hopens (.text h) fun _ ↦ rfl
  · have hopens : Opens ['h', '1'] ("<" ++ "h1" ++ " class=\"text\">") := fun _ ↦ rfl
    exact .element hopens (.text h) fun _ ↦ rfl

theorem link_opens (address : String) :
    Opens ['a'] ("<a href=\"" ++ escapeAttribute address ++ "\">") :=
  .of_tag (.attribute "a href=\"" rfl (by decide) (angleFree_escapeAttribute address)) fun _ ↦ rfl

theorem image_nests (alt source : String) : Nests (inline l (.image alt source)) := by
  have hs : (inline l (.image alt source)).toList = '<' :: ("img src=\"".toList ++
      (escapeAttribute source).toList ++ "\" alt=\"".toList ++ (escapeAttribute alt).toList ++
        ['\"'] ++ ['>']) := by
    simp [inline]
  have hsource := angleFree_escapeAttribute source
  have halt := angleFree_escapeAttribute alt
  have hfree := ((((by decide : AngleFree "img src=\"".toList).append hsource).append
    (by decide : AngleFree "\" alt=\"".toList)).append halt).append (by decide : AngleFree ['\"'])
  exact .of_tag ⟨hs, hfree⟩ fun _ ↦ rfl

theorem inline_nests {n : Inline} (h : n.PlainProse) : Nests (inline l n) := by
  cases n with
  | text s => exact .text h
  | heading level title => exact heading_nests level h
  | bold s => exact .element (fun _ ↦ rfl) (.text h) fun _ ↦ rfl
  | italic s => exact .element (fun _ ↦ rfl) (.text h) fun _ ↦ rfl
  | code s => exact .element (fun _ ↦ rfl) (.text (angleFree_escape s)) fun _ ↦ rfl
  | codeBlock tag code => exact Code.highlight_nests l tag code
  | link label address => exact .element (link_opens address) (.text h) fun _ ↦ rfl
  | image alt source => exact image_nests alt source
  | view label address => exact .empty

theorem run_nests {r : Run} (h : ∀ n ∈ r, n.PlainProse) : Nests (run l r) := by
  refine .join fun s hs ↦ ?_
  obtain ⟨n, hn, rfl⟩ := List.mem_map.1 hs
  exact inline_nests (h n hn)

theorem textBlock_nests {s : String} (h : Nests s) : Nests (textBlock s) := by
  simp only [textBlock]
  split
  · exact .empty
  · exact .element (fun _ ↦ rfl) h.trim Code.div_closes

theorem paragraph_nests {text : String} {r : Run} (ht : Nests text)
    (hr : ∀ n ∈ r, n.PlainProse) : Nests (paragraph l text r) := by
  induction r generalizing text with
  | nil => exact textBlock_nests ht
  | cons n r ih =>
    have hn : Nests (inline l n) := inline_nests (hr n (List.mem_cons_self ..))
    have hrest : ∀ m ∈ r, m.PlainProse := fun m hm ↦ hr m (List.mem_cons_of_mem n hm)
    rw [paragraph]
    split
    · exact ((textBlock_nests ht).append hn).append (ih .empty hrest)
    · exact ih (ht.append hn) hrest

theorem list_nests {items : List Run} (h : ∀ r ∈ items, ∀ n ∈ r, n.PlainProse) :
    Nests (list l items) := by
  refine .element (fun _ ↦ rfl) (.join fun s hs ↦ ?_) fun _ ↦ rfl
  obtain ⟨r, hr, rfl⟩ := List.mem_map.1 hs
  exact .element (fun _ ↦ rfl) (run_nests (h r hr)) fun _ ↦ rfl

theorem row_nests {cells : List Run} (h : ∀ r ∈ cells, ∀ n ∈ r, n.PlainProse) :
    Nests (row l cells) := by
  refine .element (fun _ ↦ rfl) (.join fun s hs ↦ ?_) fun _ ↦ rfl
  obtain ⟨r, hr, rfl⟩ := List.mem_map.1 hs
  exact .element (fun _ ↦ rfl) (run_nests (h r hr)) fun _ ↦ rfl

theorem table_nests {rows : List (List Run)}
    (h : ∀ cells ∈ rows, ∀ r ∈ cells, ∀ n ∈ r, n.PlainProse) : Nests (table l rows) := by
  refine .element (fun _ ↦ rfl) (.join fun s hs ↦ ?_) fun _ ↦ rfl
  obtain ⟨cells, hcells, rfl⟩ := List.mem_map.1 hs
  exact row_nests (h cells hcells)

theorem segment_opens : Opens ['d', 'i', 'v'] "<div class=\"segment\">" :=
  fun _ ↦ rfl

mutual

theorem block_nests : ∀ b : Block, (∀ n ∈ b.inlines, n.PlainProse) → Nests (block l b)
  | .paragraph _, h => paragraph_nests .empty h
  | .list _, h => list_nests fun _ hr n hn ↦ h n (List.mem_flatten_of_mem hr hn)
  | .table _, h => table_nests fun _ hcells _ hr n hn ↦
      h n (List.mem_flatten_of_mem (List.mem_flatten_of_mem hcells hr) hn)
  | .segment bs, h => .element segment_opens (blocks_nests bs h) Code.div_closes

theorem blocks_nests : ∀ bs : List Block, (∀ n ∈ Block.inlinesAll bs, n.PlainProse) →
    Nests (blocks l bs)
  | [], _ => .empty
  | b :: bs, h =>
    (block_nests b fun n hn ↦ h n (List.mem_append_left _ hn)).append
      (blocks_nests bs fun n hn ↦ h n (List.mem_append_right _ hn))

end

/-- Where the prose of a document holds no angle brackets, its markup is text and tags, and every
element is closed in its turn; code, addresses and images may hold any characters. -/
theorem wellFormed_fragment (l : Code.Language) (d : Document)
    (h : ∀ n ∈ Block.inlinesAll d.blocks, n.PlainProse) : WellFormed (fragment l d) :=
  (blocks_nests d.blocks h).wellFormed

/-- Angle brackets and quotes in code, in a fence tag, in addresses and in an image, within a
segment and a table. -/
theorem wellFormed_fragment_brackets :
    (∀ n ∈ Block.inlinesAll [.segment [.paragraph [.text "see ", .link "here" "\"><b>",
        .codeBlock (some "\"<c>") "#include <map>\n\nauto s = \"a\n>b\";", .code "</code>"],
      .table [[[.image "<" "\">"], [.view "<i>" ">"]]]]], n.PlainProse) ∧
      WellFormed (fragment .cpp ⟨[.segment [.paragraph [.text "see ", .link "here" "\"><b>",
        .codeBlock (some "\"<c>") "#include <map>\n\nauto s = \"a\n>b\";", .code "</code>"],
      .table [[[.image "<" "\">"], [.view "<i>" ">"]]]]]⟩) :=
  ⟨by decide, wellFormed_fragment .cpp ⟨_⟩ (by decide)⟩

end Folio.Html
