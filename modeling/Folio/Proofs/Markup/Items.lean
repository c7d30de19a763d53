import Folio.Proofs.Markup.Locality

namespace Folio.Markup

/-- What is read from a line by itself ends at the end of the line. -/
theorem readRun_line_rest {run run' : Run} {line rest : List Token} {v : String}
    (hu : Unbroken line) (h : readRun .line run (line ++ [⟨.newline, v⟩]) = .ok (run', rest)) :
    rest = [⟨.newline, v⟩] := by
  have hl : EndsLine (line ++ [⟨.newline, v⟩]) := by simp [EndsLine]
  have hne := readRun_rest_ne_nil hl (by simp) h
  obtain ⟨spans, -, hspans, -, -, hend⟩ := readRun_spans h
  obtain ⟨⟨k, w⟩, rest, rfl⟩ := List.exists_cons_of_ne_nil hne
  obtain rfl : k = .newline := by simpa [Context.endsAt] using hend
  -- a newline before the last token would stand in the line
  rcases List.eq_nil_or_concat rest with rfl | ⟨before, t, rfl⟩
  · exact (List.append_inj' hspans rfl).2.symm
  · rw [List.concat_eq_append, ← List.cons_append, ← List.append_assoc] at hspans
    have hline := (List.append_inj' hspans rfl).1
    exact absurd rfl (hu ⟨.newline, w⟩ (by simp [hline]))

def itemLine (l : String) : List Token :=
  ⟨.dash, "-"⟩ :: tokenize (l ++ "\n")

theorem tokenize_item (l : String) : tokenize ("-" ++ l ++ "\n") = itemLine l := by
  have hdash : dropReturns "-" = ['-'] := by decide
  rw [String.append_assoc, tokenize, dropReturns_append, hdash, List.singleton_append,
    lexChars_mark (k := .dash) rfl]
  rfl

theorem lex_item {l : String} (hl : '\n' ∉ l.toList) : lex ("-" ++ l) = itemLine l := by
  have hlast : ¬ ("-" ++ l).toList.getLast?.all (· = '\n') := by
    have hne : ("-" ++ l).toList ≠ [] := by simp
    rw [List.getLast?_eq_some_getLast hne, Option.all_some, decide_eq_true_iff]
    intro h
    have hmem := List.getLast_mem hne
    rw [h, String.toList_append, List.mem_append] at hmem
    exact hmem.elim (by decide) hl
  rw [lex, endLine, if_neg hlast, tokenize_item]

theorem lex_items (ls : List String) :
    lex (String.join (ls.map fun l ↦ "-" ++ l ++ "\n")) = ls.flatMap itemLine := by
  have hlines := lex_lines (ls.map ("-" ++ ·))
  simp only [List.map_map, List.flatMap_map, tokenize_item] at hlines
  exact hlines

section

variable {l : String} {run : Run}

theorem readItems_itemLine {us : List Token} {items : List Run}
    (hr : readRun .line [] (tokenize (l ++ "\n")) = .ok (run, [⟨.newline, "\n"⟩]))
    (hus : readItems us = .ok (items, [])) :
    readItems (itemLine l ++ us) = .ok (Run.trim run :: items, []) := by
  have hne : tokenize (l ++ "\n") ≠ [] := by simp [tokenize_append_newline]
  have happend := readRun_append (endsLine_tokenize l) hne (hr ▸ known_ok) us
  rw [itemLine, List.cons_append, readItems_dash, happend, hr]
  have hrest : (readItems us).map (fun q ↦ (Run.trim run :: q.1, q.2)) =
      .ok (Run.trim run :: items, []) := by
    rw [hus]
    rfl
  exact hrest

theorem readAll_items {v : String} {ts : List Token} {items : List Run}
    (h : readItems (⟨.dash, v⟩ :: ts) = .ok (items, [])) :
    readAll (⟨.dash, v⟩ :: ts) = .ok [.list items] := by
  refine readAll_of_readLeaf (b := some (.list items)) (by simp) (by simp) ?_
  exact congrArg (Except.map _) h

theorem parse_item (hl : '\n' ∉ l.toList)
    (hr : readRun .line [] (tokenize (l ++ "\n")) = .ok (run, [⟨.newline, "\n"⟩])) :
    Document.parse ("-" ++ l) = .ok ⟨[.list [Run.trim run]]⟩ := by
  have hnil : readItems [] = .ok ([], []) := LineReader.lines_of_head (by simp)
  have hitems := readItems_itemLine hr hnil
  rw [List.append_nil] at hitems
  rw [Document.parse, Document.ofTokens_eq_ok_iff, lex_item hl]
  exact readAll_items hitems

/-- A line that is a document by itself is read to its end. -/
theorem exists_run_of_parse_item {d : Document} (hl : '\n' ∉ l.toList)
    (h : Document.parse ("-" ++ l) = .ok d) :
    ∃ run, readRun .line [] (tokenize (l ++ "\n")) = .ok (run, [⟨.newline, "\n"⟩]) := by
  rw [Document.parse, Document.ofTokens_eq_ok_iff, lex_item hl] at h
  obtain ⟨o, rest, h, -⟩ := readAll_eq_ok_iff.1 h
  rw [itemLine, Outline.run_cons, if_neg (by simp), step_of_leaf (by simp) (by simp)] at h
  obtain ⟨q, h, -⟩ := bind_eq_ok_iff.1 h
  obtain ⟨leaf, h, -⟩ := map_eq_ok_iff.1 h
  obtain ⟨items, h, -⟩ := map_eq_ok_iff.1 h
  rw [readItems_dash] at h
  obtain ⟨⟨run, rest'⟩, hr, -⟩ := bind_eq_ok_iff.1 h
  have hr' := hr
  rw [tokenize_append_newline] at hr'
  obtain rfl := readRun_line_rest (unbroken_tokenize hl) hr'
  exact ⟨run, hr⟩

end

theorem readItems_lines {ls : List String} (hline : ∀ l ∈ ls, '\n' ∉ l.toList)
    (hok : ∀ l ∈ ls, ∃ d, Document.parse ("-" ++ l) = .ok d) :
    ∃ items, readItems (ls.flatMap itemLine) = .ok (items, []) ∧
      List.Forall₂ (fun l item ↦ Document.parse ("-" ++ l) = .ok ⟨[.list [item]]⟩) ls items := by
  induction ls with
  | nil => exact ⟨[], LineReader.lines_of_head (by simp), .nil⟩
  | cons l ls ih =>
    obtain ⟨items, hitems, hall⟩ := ih (fun m hm ↦ hline m (List.mem_cons_of_mem l hm))
      fun m hm ↦ hok m (List.mem_cons_of_mem l hm)
    have hl := hline l (List.mem_cons_self ..)
    obtain ⟨d, hd⟩ := hok l (List.mem_cons_self ..)
    obtain ⟨run, hr⟩ := exists_run_of_parse_item hl hd
    refine ⟨Run.trim run :: items, ?_, .cons (parse_item hl hr) hall⟩
    rw [List.flatMap_cons]
    exact readItems_itemLine hr hitems

/-- Lines that begin with a dash and are documents by themselves are one list when they are put
together, and its items are, in order, those of the lists that the lines are. -/
theorem parse_items {ls : List String} (hne : ls ≠ []) (hline : ∀ l ∈ ls, '\n' ∉ l.toList)
    (hok : ∀ l ∈ ls, ∃ d, Document.parse ("-" ++ l) = .ok d) :
    ∃ items,
      Document.parse (String.join (ls.map fun l ↦ "-" ++ l ++ "\n")) = .ok ⟨[.list items]⟩ ∧
      List.Forall₂ (fun l item ↦ Document.parse ("-" ++ l) = .ok ⟨[.list [item]]⟩) ls items := by
  obtain ⟨items, hitems, hall⟩ := readItems_lines hline hok
  refine ⟨items, ?_, hall⟩
  rw [Document.parse, Document.ofTokens_eq_ok_iff, lex_items]
  obtain ⟨l, ls, rfl⟩ := List.exists_cons_of_ne_nil hne
  exact readAll_items hitems

theorem parse_items_of_marks :
    ∃ items,
      Document.parse (String.join (["\x60\x60\x60a|\x60\x60\x60 ", "*b", "- c"].map
        fun l ↦ "-" ++ l ++ "\n")) = .ok ⟨[.list items]⟩ ∧
      List.Forall₂ (fun l item ↦ Document.parse ("-" ++ l) = .ok ⟨[.list [item]]⟩)
        ["\x60\x60\x60a|\x60\x60\x60 ", "*b", "- c"] items := by
  refine parse_items (by simp) (by decide) ?_
  intro l hl
  simp only [List.mem_cons, List.not_mem_nil, or_false] at hl
  rcases hl with rfl | rfl | rfl
  · exact ⟨⟨[.list [[.codeBlock none "a|"]]]⟩, by decide +kernel⟩
  · exact ⟨⟨[.list [[.text "*b"]]]⟩, by decide +kernel⟩
  · exact ⟨⟨[.list [[.text "- c"]]]⟩, by decide +kernel⟩

end Folio.Markup
