import Folio.Proofs.Code.Shown
import Folio.Proofs.Html.Listing
import Folio.Proofs.Html.Visible

namespace Folio.Code

open Text Html

theorem outsideTags_markup {p : Piece} (h : ∀ s, p.spanClass = some s → AngleFree s.toList)
    (rest : List Char) :
    outsideTags false (p.markup.toList ++ rest) =
      (escape (String.ofList p.dropReturns)).toList ++ outsideTags false rest := by
  have htext (rest : List Char) :
      outsideTags false ((escape (String.ofList p.dropReturns)).toList ++ rest) =
        (escape (String.ofList p.dropReturns)).toList ++ outsideTags false rest :=
    outsideTags_text (angleFree_escape _) rest
  simp only [Piece.markup]
  split
  · next hnil =>
    rw [hnil]
    rfl
  · split
    · next s hs =>
      have hclose : IsTag "</span>" "/span".toList := ⟨rfl, by decide⟩
      rw [String.toList_append, String.toList_append, List.append_assoc, List.append_assoc,
        (span_isTag (h s hs)).outsideTags, htext, hclose.outsideTags]
    · exact htext rest

theorem visible_markup {l : Line}
    (h : ∀ p ∈ l, ∀ s, p.spanClass = some s → AngleFree s.toList) :
    visible l.markup = l.flatMap Piece.dropReturns := by
  unfold visible Line.markup
  induction l with
  | nil => rfl
  | cons p l ih =>
    have hl := ih fun q hq ↦ h q (List.mem_cons_of_mem p hq)
    rw [List.map_cons, String.join_cons, String.toList_append,
      outsideTags_markup (h p (List.mem_cons_self ..)), decode_escape_append, hl,
      String.toList_ofList, List.flatMap_cons]

theorem Piece.exists_returns (p : Piece) :
    ∃ returns, p.text = p.dropReturns ++ returns ∧ ∀ c ∈ returns, c = '\r' := by
  refine ⟨(p.text.reverse.takeWhile (· == '\r')).reverse, ?_, fun c hc ↦ ?_⟩
  · rw [Piece.dropReturns, ← List.reverse_append, List.takeWhile_append_dropWhile,
      List.reverse_reverse]
  · exact eq_of_beq (List.mem_takeWhile_imp (p := (· == '\r')) (List.mem_reverse.1 hc))

section

variable {q : Char → Bool} (hq : q '\r' = false)

include hq

theorem filter_dropReturns (p : Piece) : p.dropReturns.filter q = p.text.filter q := by
  obtain ⟨returns, htext, hreturns⟩ := p.exists_returns
  have hnone : returns.filter q = [] :=
    List.filter_eq_nil_iff.2 fun c hc ↦ by simp [hreturns c hc, hq]
  rw [htext, List.filter_append, hnone, List.append_nil]

/-- A row shows its line, but for carriage returns. -/
theorem filter_visible_markup {ts : List Token} {l : Line} (hl : l ∈ linesOf ts) :
    (visible l.markup).filter q = l.text.filter q := by
  have hclass : ∀ p ∈ l, ∀ s, p.spanClass = some s → AngleFree s.toList :=
    fun _ hp _ hs ↦ angleFree_of_mem_linesOf hl hp hs
  rw [visible_markup hclass, Line.text, List.filter_flatMap, List.filter_flatMap]
  exact List.flatMap_congr fun p _ ↦ filter_dropReturns hq p

end

theorem contentLines_shownText (ts : List Token) :
    contentLines (shownText ts) = (trimLines (linesOf ts)).map Line.text := by
  have hblank : (fun cs : List Char ↦ cs.all isBlank) ∘ Line.text = Line.isBlank := by
    funext l
    simp [Line.isBlank, Line.text, List.all_flatMap]
  have htrim : trimEnds Line.isBlank (linesOf ts) = trimLines (linesOf ts) := rfl
  rw [contentLines, ← map_text_linesOf, trimEnds_map, hblank, htrim]

theorem map_ink_renderLines (ts : List Token) :
    (renderLines ts).map (fun s ↦ ink (visible s)) = (contentLines (shownText ts)).map ink := by
  rw [contentLines_shownText, renderLines, List.map_map, List.map_map]
  exact List.map_congr_left fun l hl ↦ filter_visible_markup (by decide) (mem_of_mem_trimLines hl)

/-- There is one row for each line of the code from the first to the last that holds ink, less the
line ends within include directives. -/
theorem length_renderLines (ts : List Token) :
    (renderLines ts).length + hiddenBreaks ts = (contentLines (codeText ts)).length := by
  have hrows : (renderLines ts).length = (contentLines (shownText ts)).length := by
    simpa using congrArg List.length (map_ink_renderLines ts)
  have hcount := count_shownText ts
  by_cases hink : ∃ c ∈ codeText ts, ¬isBlank c
  · have hshown : ∃ c ∈ shownText ts, ¬isBlank c := by
      obtain ⟨c, hc, hblank⟩ := hink
      have hmem : c ∈ ink (shownText ts) := by
        rw [ink_shownText]
        exact List.mem_filter.2 ⟨hc, by simpa using hblank⟩
      exact ⟨c, (List.mem_filter.1 hmem).1, hblank⟩
    have hs := length_contentLines hshown
    have hc := length_contentLines hink
    rw [takeWhile_shownText, takeWhile_reverse_shownText] at hs
    omega
  · -- nothing but blanks is shown as it stands
    have hblank : ∀ c ∈ codeText ts, isBlank c := by simpa using hink
    have hshown : ∀ c ∈ shownText ts, isBlank c := by
      have hnone : ink (shownText ts) = [] := by rw [ink_shownText, ink_of_blank hblank]
      simpa [ink] using hnone
    have heq : shownText ts = codeText ts := by
      rw [← List.takeWhile_eq_self_iff.2 hshown, takeWhile_shownText,
        List.takeWhile_eq_self_iff.2 hblank]
    rw [heq] at hrows hcount
    omega

theorem map_ink_renderLines_iff (ts : List Token) :
    (renderLines ts).map (fun s ↦ ink (visible s)) = (contentLines (codeText ts)).map ink ↔
      hiddenBreaks ts = 0 := by
  constructor
  · intro h
    have hlength := congrArg List.length h
    rw [List.length_map, List.length_map, ← length_renderLines] at hlength
    omega
  · intro h
    rw [map_ink_renderLines, map_ink_contentLines, map_ink_contentLines, skeleton_shownText h]

/-- Rows of a listing and lines of the code, from the first line to the last that holds ink. Each
row shows the ink of its line exactly where every include directive has its path on the line of its
keyword; each line end between the two costs a row. The numbers of a listing count its rows. -/
theorem markupLines_rows (l : Language) (code : String) :
    (markupLines l code).length + hiddenBreaks (classify l code) =
        (contentLines code.toList).length ∧
      ((markupLines l code).map (fun s ↦ ink (visible s)) = (contentLines code.toList).map ink ↔
        hiddenBreaks (classify l code) = 0) ∧
      ∀ tag, highlight l tag code = holderTag tag ++ "<div class=\"lines\">" ++
        numberColumn (markupLines l code).length ++ "</div>" ++
          "<div class=\"scrollable\"><div class=\"codes\">" ++ rowColumn (markupLines l code) ++
            "</div></div></div>" := by
  have hlength := length_renderLines (classify l code)
  have hrows := map_ink_renderLines_iff (classify l code)
  rw [codeText_classify] at hlength hrows
  exact ⟨hlength, hrows, fun tag ↦ listing_eq tag (markupLines l code)⟩

/-- A literal and a call that go on in the next line, with blank lines around them. -/
theorem markupLines_rows_literal :
    hiddenBreaks (classify .cpp "\n \n#include  <m>\nif (s == \"a\n\n<b\") f\n (x); // c\n\t\n") = 0 ∧
      (markupLines .cpp "\n \n#include  <m>\nif (s == \"a\n\n<b\") f\n (x); // c\n\t\n").map
          (fun s ↦ ink (visible s)) =
        (contentLines
          "\n \n#include  <m>\nif (s == \"a\n\n<b\") f\n (x); // c\n\t\n".toList).map ink :=
  ⟨by decide +kernel, (markupLines_rows .cpp _).2.1.2 (by decide +kernel)⟩

/-- The line end after the keyword of the directive is lost, so the listing is a row short. -/
theorem markupLines_short :
    (markupLines .cpp "#include\n<a>\nx").length = 2 ∧
      (contentLines "#include\n<a>\nx".toList).length = 3 ∧
      (markupLines .cpp "#include\n<a>\nx").map (fun s ↦ ink (visible s)) ≠
        (contentLines "#include\n<a>\nx".toList).map ink := by
  decide +kernel

end Folio.Code
