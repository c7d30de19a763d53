import Folio.Inspection
import Folio.Proofs.Code.Margins
import Folio.Proofs.Html.Paragraphs
import Folio.Proofs.Markup.Segments

namespace Folio.Markup

def backtick : Token :=
  ⟨.backtick, "\x60"⟩

def closingFence : List Token :=
  [backtick, backtick, backtick, ⟨.newline, "\n"⟩]

theorem upToFence_of_not_isInfix {body rest : List Token} (hl : EndsLine body)
    (hf : ¬ fence <:+: body.map Token.kind) (hr : startsWith fence rest) :
    upToFence (body ++ rest) = .ok (body, rest.drop fence.length) := by
  induction body with
  | nil =>
    cases rest with
    | nil => cases hr
    | cons t rest => rw [List.nil_append, upToFence, if_pos hr]
  | cons t body ih =>
    have hmark : ¬startsWith fence (t :: (body ++ rest)) := by
      rw [← List.cons_append, startsWith_append_eq fence (by decide) hl (by simp), startsWith_iff]
      exact fun h ↦ hf h.isInfix
    have hrest := ih hl.tail fun h ↦ hf (h.trans (List.suffix_cons ..).isInfix)
    rw [List.cons_append, upToFence, if_neg hmark, hrest]
    rfl

theorem dropReturns_eq {a : String} (h : '\r' ∉ a.toList) : dropReturns a = a.toList := by
  rw [dropReturns, List.filter_eq_self]
  intro c hc
  simpa using ne_of_mem_of_not_mem hc h

theorem lex_fenced (a : String) :
    lex ("\x60\x60\x60" ++ a ++ "\n\x60\x60\x60\n") =
      backtick :: backtick :: backtick :: (tokenize (a ++ "\n") ++ closingFence) := by
  have hmark : Kind.ofChar? '\x60' = some .backtick := rfl
  have hopen : dropReturns "\x60\x60\x60" = ['\x60', '\x60', '\x60'] := by decide
  have hclose : lex "\x60\x60\x60\n" = closingFence := by decide +kernel
  have htext : "\x60\x60\x60" ++ a ++ "\n\x60\x60\x60\n" =
      "\x60\x60\x60" ++ a ++ "\n" ++ "\x60\x60\x60\n" := by simp [String.append_assoc]
  rw [htext, lex_append_line, hclose, String.append_assoc, tokenize, dropReturns_append, hopen]
  simp only [List.cons_append, List.nil_append, lexChars_mark hmark]
  rfl

theorem readRun_fenced {body : List Token} (hl : EndsLine body)
    (hf : ¬ fence <:+: body.map Token.kind) :
    readRun .line [] (backtick :: backtick :: backtick :: (body ++ closingFence)) =
      .ok ([codeBlockOf (Token.spell body)], [⟨.newline, "\n"⟩]) := by
  have hclose : startsWith fence closingFence := rfl
  have hbody := upToFence_of_not_isInfix hl hf hclose
  have hcode : readInline .line backtick (backtick :: backtick :: (body ++ closingFence)) =
      .ok (codeBlockOf (Token.spell body), [⟨.newline, "\n"⟩]) := by
    have hcode : readCode .line (backtick :: backtick :: backtick :: (body ++ closingFence)) =
        (upToFence (body ++ closingFence)).map fun p ↦ (codeBlockOf (Token.spell p.1), p.2) :=
      rfl
    rw [hbody] at hcode
    exact hcode
  obtain ⟨language, code, hblock⟩ := exists_codeBlockOf_eq (Token.spell body)
  have hend : readRun .line [.codeBlock language code] [⟨.newline, "\n"⟩] =
      .ok ([.codeBlock language code], [⟨.newline, "\n"⟩]) := by
    rw [readRun_cons, if_pos (by decide)]
  rw [readRun_cons, if_neg (by decide), hcode, hblock]
  exact hend

/-- What stands between two fences is one block of code, which holds it as it was written. -/
theorem parse_fenced {a : String} (hr : '\r' ∉ a.toList)
    (hf : ¬ ['\x60', '\x60', '\x60'] <:+: a.toList) :
    Document.parse ("\x60\x60\x60" ++ a ++ "\n\x60\x60\x60\n") =
      .ok ⟨[.paragraph [codeBlockOf (a ++ "\n")]]⟩ := by
  obtain ⟨language, code, hblock⟩ := exists_codeBlockOf_eq (a ++ "\n")
  have htrim : Run.trim [codeBlockOf (a ++ "\n")] = [codeBlockOf (a ++ "\n")] := by
    rw [hblock]
    rfl
  rw [Document.parse, Document.ofTokens_eq_ok_iff, lex_fenced]
  have htokens : tokenize (a ++ "\n") = lexChars (a.toList ++ ['\n']) := by
    rw [tokenize, dropReturns_append, dropReturns_eq hr]
    rfl
  have hspell : Token.spell (tokenize (a ++ "\n")) = a ++ "\n" := by
    rw [← String.toList_inj, htokens, toList_spell_lexChars, String.toList_append]
    rfl
  have hrun := readRun_fenced (endsLine_tokenize a) (htokens ▸ not_fence_of_ended (.inr rfl) hf)
  rw [hspell] at hrun
  refine readAll_of_readLeaf (b := some (.paragraph [codeBlockOf (a ++ "\n")])) (by decide)
    (by decide) ?_
  rw [readLeaf_of_other (by decide) (by decide), readParagraph, hrun]
  simp [Except.map, htrim, dropNewline]

theorem codeBlockOf_newline (code : String) :
    codeBlockOf ("\n" ++ code) = .codeBlock none ("\n" ++ code) := by
  have hsplit : Text.splitFirst '\n' ("\n" ++ code).toList = some ([], code.toList) := by
    rw [String.toList_append]
    rfl
  rw [codeBlockOf, hsplit]
  rfl

theorem isBlank_eq_false_of_isTagChar {c : Char} (h : isTagChar c) : Text.isBlank c = false := by
  simp only [isTagChar, Bool.or_eq_true, beq_iff_eq, or_assoc] at h
  rcases h with h | rfl | rfl | rfl | rfl | rfl
  · exact Text.isBlank_eq_false_of_isWord (Text.isWord_of_ascii (by simp [h]))
  all_goals decide

theorem trim_of_inked {cs : List Char} (h : ∀ c ∈ cs, Text.isBlank c = false) :
    Text.trim (String.ofList cs) = String.ofList cs := by
  have hbegin : Text.BeginsBare cs := fun c hc ↦ h c (List.mem_of_mem_head? hc)
  have hend : Text.EndsBare cs := fun c hc ↦ h c (List.mem_of_getLast? hc)
  rw [← String.toList_inj, Text.toList_trim, String.toList_ofList, hbegin.dropBlank_eq,
    hend.dropBlankEnd_eq]

theorem codeBlockOf_tag {tag : String} (hne : tag ≠ "") (htag : ∀ c ∈ tag.toList, isTagChar c)
    (code : String) : codeBlockOf (tag ++ "\n" ++ code) = .codeBlock (some tag) code := by
  have hline : '\n' ∉ tag.toList := fun h ↦ absurd (htag _ h) (by decide)
  have hsplit : Text.splitFirst '\n' (tag ++ "\n" ++ code).toList =
      some (tag.toList, code.toList) := by
    rw [String.toList_append, String.toList_append, List.append_assoc]
    exact Text.splitFirst_append hline code.toList
  have htrim : Text.trim (String.ofList tag.toList) = tag := by
    rw [trim_of_inked fun c hc ↦ isBlank_eq_false_of_isTagChar (htag c hc), String.ofList_toList]
  rw [codeBlockOf, hsplit]
  dsimp only
  rw [htrim, if_pos, String.ofList_toList]
  simpa [hne] using htag

end Folio.Markup

namespace Folio.Html

open Markup

theorem highlight_append_newline (tag : Option String) (code : String) :
    Code.highlight .cpp tag (code ++ "\n") = Code.highlight .cpp tag code := by
  rw [Code.highlight, Code.highlight, Code.markupLines_append_newline]

theorem highlight_newline_append (tag : Option String) (code : String) :
    Code.highlight .cpp tag ("\n" ++ code) = Code.highlight .cpp tag code := by
  rw [Code.highlight, Code.highlight, Code.markupLines_newline_append]

theorem isInfix_of_append {α : Type} {a : α} {p first rest : List α}
    (h : a :: p <:+: first ++ rest) (ha : a ∉ first) : a :: p <:+: rest := by
  induction first with
  | nil => exact h
  | cons b first ih =>
    rw [List.mem_cons, not_or] at ha
    rcases List.infix_cons_iff.1 h with h | h
    · exact absurd (List.cons_prefix_cons.1 h).1 ha.1
    · exact ih h ha.2

/-- A fence with `info` beside its opening mark, and `c` on the lines below. -/
theorem ofText_fence {info c : String} (hinfo : ∀ ch ∈ info.toList, isTagChar ch)
    (hr : '\r' ∉ c.toList) (hf : ¬ ['\x60', '\x60', '\x60'] <:+: c.toList)
    {tag : Option String} {code : String}
    (hblock : codeBlockOf (info ++ "\n" ++ (c ++ "\n")) = .codeBlock tag code) :
    ofText .cpp ("\x60\x60\x60" ++ (info ++ "\n" ++ c) ++ "\n\x60\x60\x60\n") =
      .ok (Code.highlight .cpp tag code) := by
  have htext : (info ++ "\n" ++ c).toList = (info.toList ++ ['\n']) ++ c.toList := by
    rw [String.toList_append, String.toList_append]
    rfl
  have hfirst : ∀ {ch}, ch ≠ '\n' → isTagChar ch = false → ch ∉ info.toList ++ ['\n'] := by
    intro ch hline htag hch
    rcases List.mem_append.1 hch with hch | hch
    · rw [hinfo ch hch] at htag
      cases htag
    · exact hline (List.mem_singleton.1 hch)
  have hreturn : '\r' ∉ (info ++ "\n" ++ c).toList := by
    rw [htext, List.mem_append, not_or]
    exact ⟨hfirst (by decide) (by decide), hr⟩
  have hfence : ¬ ['\x60', '\x60', '\x60'] <:+: (info ++ "\n" ++ c).toList := by
    rw [htext]
    exact fun h ↦ hf (isInfix_of_append h (hfirst (by decide) (by decide)))
  have hraw : info ++ "\n" ++ c ++ "\n" = info ++ "\n" ++ (c ++ "\n") := String.append_assoc
  rw [ofText, parse_fenced hreturn hfence, hraw, hblock, Except.map, fragment_codeBlock]

/-- A document that is one fence is shown as a file of the code between the fences is, with the
tag beside the opening fence. -/
theorem ofText_fenced {c : String} (hr : '\r' ∉ c.toList)
    (hf : ¬ ['\x60', '\x60', '\x60'] <:+: c.toList) :
    ofText .cpp ("\x60\x60\x60\n" ++ c ++ "\n\x60\x60\x60\n") =
        .ok (Code.highlight .cpp none c) ∧
      (∀ print name, Inspection.codeHtml.render print name c =
        .ok (Code.highlight .cpp none c)) ∧
      ∀ tag, tag ≠ "" → (∀ ch ∈ tag.toList, isTagChar ch) →
        ofText .cpp ("\x60\x60\x60" ++ tag ++ "\n" ++ c ++ "\n\x60\x60\x60\n") =
          .ok (Code.highlight .cpp (some tag) c) := by
  refine ⟨?_, fun print name ↦ rfl, fun tag hne htag ↦ ?_⟩
  · have htext : "\x60\x60\x60\n" ++ c = "\x60\x60\x60" ++ ("" ++ "\n" ++ c) := by
      rw [String.empty_append, ← String.append_assoc]
      rfl
    have hblock : codeBlockOf ("" ++ "\n" ++ (c ++ "\n")) =
        .codeBlock none ("\n" ++ (c ++ "\n")) := by
      rw [String.empty_append, codeBlockOf_newline]
    rw [htext, ofText_fence (by simp) hr hf hblock, highlight_newline_append,
      highlight_append_newline]
  · have htext : "\x60\x60\x60" ++ tag ++ "\n" ++ c = "\x60\x60\x60" ++ (tag ++ "\n" ++ c) := by
      simp only [String.append_assoc]
    rw [htext, ofText_fence htag hr hf (codeBlockOf_tag hne htag (c ++ "\n")),
      highlight_append_newline]

/-- Code with marks of the markup in it, a fence cut short, and a keyword at the end. -/
theorem ofText_fenced_marks :
    '\r' ∉ "\n# [a](b) \x60\x60|\n enum".toList ∧
      ¬ ['\x60', '\x60', '\x60'] <:+: "\n# [a](b) \x60\x60|\n enum".toList ∧
      ofText .cpp ("\x60\x60\x60\n" ++ "\n# [a](b) \x60\x60|\n enum" ++ "\n\x60\x60\x60\n") =
        .ok (Code.highlight .cpp none "\n# [a](b) \x60\x60|\n enum") ∧
      ofText .cpp ("\x60\x60\x60" ++ "c++" ++ "\n" ++ "\n# [a](b) \x60\x60|\n enum" ++
          "\n\x60\x60\x60\n") =
        .ok (Code.highlight .cpp (some "c++") "\n# [a](b) \x60\x60|\n enum") := by
  have hr : '\r' ∉ "\n# [a](b) \x60\x60|\n enum".toList := by decide
  have hf : ¬ ['\x60', '\x60', '\x60'] <:+: "\n# [a](b) \x60\x60|\n enum".toList := by
    decide +kernel
  obtain ⟨hplain, -, htagged⟩ := ofText_fenced hr hf
  exact ⟨hr, hf, hplain, htagged "c++" (by decide) (List.all_eq_true.1 (by decide))⟩

end Folio.Html
