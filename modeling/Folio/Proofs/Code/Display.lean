import Folio.Proofs.Code.Rows
import Folio.Proofs.Text.Pieces
import Mathlib.Data.List.Forall2

namespace Folio.Code

open Text Html

/-- The text that a token contributes. In an include directive one space takes the place of the
blanks before the path. -/
inductive Contributes (t : Token) : List Char → Prop
  | directive {gap path : List Char} : t.category = .include → IsDirective t.text.toList gap path →
      Contributes t (includeKeyword ++ ' ' :: path)
  | whole : (t.category = .include → ∀ gap path, ¬IsDirective t.text.toList gap path) →
      Contributes t t.text.toList

theorem contributes_iff {t : Token} {cs : List Char} :
    Contributes t cs ↔ Line.text t.pieces = cs := by
  constructor
  · rintro (⟨hc, h⟩ | h)
    · exact Token.text_pieces_of_directive hc h
    · exact Token.text_pieces_of_other h
  · rintro rfl
    by_cases h : t.category = .include ∧ ∃ gap path, IsDirective t.text.toList gap path
    · obtain ⟨hc, gap, path, hdirective⟩ := h
      rw [Token.text_pieces_of_directive hc hdirective]
      exact .directive hc hdirective
    · have hother : t.category = .include → ∀ gap path, ¬IsDirective t.text.toList gap path :=
        fun hc gap path hdirective ↦ h ⟨hc, gap, path, hdirective⟩
      rw [Token.text_pieces_of_other hother]
      exact .whole hother

theorem forall₂_contributes_iff {ts : List Token} {parts : List (List Char)} :
    List.Forall₂ Contributes ts parts ↔ ts.map (fun t ↦ Line.text t.pieces) = parts := by
  have hiff : Contributes = fun t cs ↦ Line.text t.pieces = cs :=
    funext₂ fun _ _ ↦ propext contributes_iff
  rw [← List.forall₂_eq_eq_eq, List.forall₂_map_left_iff, hiff]

/-- The elements from the first to the last that does not satisfy `p`. -/
structure Kept {α : Type} (p : α → Bool) (l kept : List α) : Prop where
  ends : ∃ before after, l = before ++ (kept ++ after) ∧ (∀ a ∈ before, p a) ∧ ∀ a ∈ after, p a
  first : ∀ a ∈ kept.head?, p a = false
  last : ∀ a ∈ kept.getLast?, p a = false

section

variable {α : Type} {p : α → Bool} {l kept : List α}

theorem kept_trimEnds (p : α → Bool) (l : List α) : Kept p l (trimEnds p l) := by
  have hl : l.takeWhile p ++ l.dropWhile p = l := List.takeWhile_append_dropWhile
  generalize hm : l.dropWhile p = m at hl
  have hback : m = trimEnds p l ++ (m.reverse.takeWhile p).reverse := by
    rw [trimEnds, hm, ← List.reverse_append, List.takeWhile_append_dropWhile, List.reverse_reverse]
  constructor
  case ends =>
    refine ⟨l.takeWhile p, (m.reverse.takeWhile p).reverse, ?_, ?_, ?_⟩
    · rw [← hback, hl]
    · exact fun a ha ↦ List.mem_takeWhile_imp ha
    · exact fun a ha ↦ List.mem_takeWhile_imp (List.mem_reverse.1 ha)
  case first =>
    intro a ha
    have hfirst : a ∈ (l.dropWhile p).head? := by
      rw [hm, hback, List.head?_append, Option.mem_def.1 ha]
      rfl
    exact head_dropWhile a hfirst
  case last =>
    rw [trimEnds, List.getLast?_reverse]
    exact head_dropWhile

theorem Kept.eq_trimEnds (h : Kept p l kept) : kept = trimEnds p l := by
  obtain ⟨before, after, rfl, hbefore, hafter⟩ := h.ends
  cases kept with
  | nil =>
    have hall : ∀ a ∈ before ++ ([] ++ after), p a := List.forall_mem_append.2 ⟨hbefore, hafter⟩
    rw [trimEnds, List.dropWhile_eq_nil_iff.2 hall]
    rfl
  | cons a kept =>
    have hfirst : ∀ b ∈ (a :: kept ++ after).head?, p b = false := h.first
    have hlast : ∀ b ∈ (a :: kept).reverse.head?, p b = false := by
      rw [List.head?_reverse]
      exact h.last
    have hback : ∀ b ∈ after.reverse, p b := fun b hb ↦ hafter b (List.mem_reverse.1 hb)
    rw [trimEnds, (span_run hbefore hfirst).2, List.reverse_append, (span_run hback hlast).2,
      List.reverse_reverse]

end

def IsClassName (name : String) : Prop :=
  ∀ c ∈ name.toList, c.isLower ∨ c = '-'

instance (name : String) : Decidable (IsClassName name) :=
  List.decidableBAll (fun c : Char ↦ c.isLower ∨ c = '-') name.toList

/-- Escaped text and complete spans that hold escaped text. -/
inductive RowMarkup : String → Prop
  | nil : RowMarkup ""
  | text {s row : String} : RowMarkup row → RowMarkup (escape s ++ row)
  | span {name s row : String} : IsClassName name → RowMarkup row →
      RowMarkup ("<span class=\"" ++ name ++ "\">" ++ escape s ++ "</span>" ++ row)

/-- The row stands on one line and shows the line, but for carriage returns. -/
structure Shows (row : String) (line : List Char) : Prop where
  single : '\n' ∉ row.toList
  markup : RowMarkup row
  visible : (visible row).filter (· ≠ '\r') = line.filter (· ≠ '\r')

theorem isClassName_classNames : ∀ name ∈ classNames, IsClassName name := by
  decide

theorem newline_not_mem_escape {s : String} (h : '\n' ∉ s.toList) : '\n' ∉ (escape s).toList := by
  intro hn
  obtain ⟨c, hc, hn⟩ := mem_join_map_iff.1 hn
  unfold escapeChar at hn
  split at hn
  · exact absurd hn (by decide)
  · exact absurd hn (by decide)
  · exact absurd hn (by decide)
  · obtain rfl : '\n' = c := by simpa using hn
    exact h hc

theorem IsClassName.newline_not_mem {name : String} (h : IsClassName name) : '\n' ∉ name.toList :=
  fun hn ↦ absurd (h '\n' hn) (by decide)

section

variable {p : Piece} (hclass : ∀ s, p.spanClass = some s → s ∈ classNames)

include hclass

theorem RowMarkup.piece {row : String} (h : RowMarkup row) : RowMarkup (p.markup ++ row) := by
  simp only [Piece.markup]
  split
  · rwa [String.empty_append]
  · split
    · next s hs => exact .span (isClassName_classNames s (hclass s hs)) h
    · exact .text h

theorem newline_not_mem_markup (h : '\n' ∉ p.text) : '\n' ∉ p.markup.toList := by
  obtain ⟨returns, htext, -⟩ := p.exists_returns
  have hkept : '\n' ∉ p.dropReturns := fun hn ↦ h (htext ▸ List.mem_append_left returns hn)
  have hescape : '\n' ∉ (escape (String.ofList p.dropReturns)).toList :=
    newline_not_mem_escape (by rwa [String.toList_ofList])
  simp only [Piece.markup]
  split
  · exact List.not_mem_nil
  · split
    · next s hs =>
      have hname := (isClassName_classNames s (hclass s hs)).newline_not_mem
      simp only [String.toList_append, List.mem_append, not_or]
      exact ⟨⟨⟨⟨by decide, hname⟩, by decide⟩, hescape⟩, by decide⟩
    · exact hescape

end

/-- The row of a line is markup of one line, and shows it. -/
theorem shows_markup {ts : List Token} {l : Line} (hl : l ∈ linesOf ts) :
    Shows l.markup l.text := by
  have hclass : ∀ p ∈ l, ∀ s, p.spanClass = some s → s ∈ classNames :=
    fun _ hp _ hs ↦ mem_classNames_of_mem_linesOf hl hp hs
  constructor
  case single =>
    have hmem : l.text ∈ splitOn '\n' (shownText ts) := by
      rw [← map_text_linesOf]
      exact List.mem_map_of_mem hl
    obtain ⟨left, right, hpiece⟩ := mem_splitOn_iff.1 hmem
    rw [Line.markup, String.toList_join]
    intro hn
    obtain ⟨row, hrow, hn⟩ := List.mem_flatMap.1 hn
    obtain ⟨p, hp, rfl⟩ := List.mem_map.1 hrow
    have htext : '\n' ∉ p.text := fun h ↦ hpiece.free (List.mem_flatMap.2 ⟨p, hp, h⟩)
    exact newline_not_mem_markup (hclass p hp) htext hn
  case markup =>
    clear hl
    induction l with
    | nil => exact .nil
    | cons p l ih =>
      rw [Line.markup, List.map_cons, String.join_cons]
      exact (ih fun q hq ↦ hclass q (List.mem_cons_of_mem p hq)).piece
        (hclass p (List.mem_cons_self ..))
  case visible => exact filter_visible_markup (by decide) hl

/-- The rows of any tokens. The text is put together from what each token contributes; its lines from
the first to the last that holds ink are the rows, in order. -/
theorem renderLines_show (ts : List Token) :
    (∃ parts kept, List.Forall₂ Contributes ts parts ∧
        Kept (·.all isBlank) (splitOn '\n' parts.flatten) kept) ∧
      ∀ parts kept, List.Forall₂ Contributes ts parts →
        Kept (·.all isBlank) (splitOn '\n' parts.flatten) kept →
          List.Forall₂ Shows (renderLines ts) kept := by
  refine ⟨⟨_, _, forall₂_contributes_iff.2 rfl, kept_trimEnds _ _⟩, fun parts kept hparts hkept ↦ ?_⟩
  obtain rfl := forall₂_contributes_iff.1 hparts
  have hlines : kept = (trimLines (linesOf ts)).map Line.text := by
    rw [← contentLines_shownText, shownText_eq, List.flatMap_def]
    exact hkept.eq_trimEnds
  rw [hlines, renderLines, List.forall₂_map_left_iff, List.forall₂_map_right_iff, List.forall₂_same]
  exact fun l hl ↦ shows_markup (mem_of_mem_trimLines hl)

/-- The path of the directive stands below its keyword, and the last token is cut in two by a line
end of its own. -/
theorem renderLines_show_of_directive :
    let ts : List Token :=
      [⟨.comment, " \n"⟩, ⟨.include, "#include\n\t<a>"⟩, ⟨.enumType, "\r\n& <\r"⟩]
    let parts := [" \n", "#include <a>", "\r\n& <\r"].map String.toList
    let kept := ["#include <a>\r", "& <\r"].map String.toList
    List.Forall₂ Contributes ts parts ∧
      Kept (·.all isBlank) (splitOn '\n' parts.flatten) kept ∧
      List.Forall₂ Shows (renderLines ts) kept := by
  intro ts parts kept
  have hdirective : IsDirective "#include\n\t<a>".toList ['\n', '\t'] ['<', 'a', '>'] :=
    ⟨by decide, List.all_eq_true.1 (by decide), .angles (List.cons_ne_nil 'a' []) (by decide)⟩
  have hparts : List.Forall₂ Contributes ts parts :=
    .cons (.whole nofun) (.cons (.directive rfl hdirective) (.cons (.whole nofun) .nil))
  have hkept : Kept (·.all isBlank) (splitOn '\n' parts.flatten) kept :=
    ⟨⟨[[' ']], [], by decide, by decide, by decide⟩, by decide, by decide⟩
  exact ⟨hparts, hkept, (renderLines_show ts).2 parts kept hparts hkept⟩

end Folio.Code
