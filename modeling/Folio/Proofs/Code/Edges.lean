import Folio.Proofs.Code.Names

namespace Folio.Code

open Text

theorem breaksWord_newline : BreaksWord ['\n'] :=
  ⟨forall_head_cons (by decide) [], forall_head_cons (by decide) [], nofun⟩

theorem cutToQuote_append_newline {quote : Char} (h : '\n' ≠ quote) (cs : List Char) :
    cutToQuote quote (cs ++ ['\n']) = (cutToQuote quote cs).map (Cut.extend ['\n']) := by
  fun_induction cutToQuote quote cs with
  | case1 =>
    rw [List.nil_append, cutToQuote_cons (by decide), if_neg h]
    rfl
  | case2 => rfl
  | case3 cs =>
    rw [List.cons_append, List.cons_append, cutToQuote, if_pos rfl]
    rfl
  | case4 c cs hc ih =>
    rw [List.cons_append, List.cons_append, cutToQuote, if_neg hc, ih, Option.map_map,
      Option.map_map]
    rfl
  | case5 cs hend hpair =>
    rw [List.cons_append, cutToQuote_cons (ne_backslash hend hpair), if_pos rfl]
    rfl
  | case6 c cs hend hpair hc ih =>
    rw [List.cons_append, cutToQuote_cons (ne_backslash hend hpair), if_neg hc, ih,
      Option.map_map, Option.map_map]
    rfl

theorem cutQuoted_append_newline {quote : Char} (h : '\n' ≠ quote) (c : Char) (cs : List Char) :
    cutQuoted quote (c :: (cs ++ ['\n'])) =
      (cutQuoted quote (c :: cs)).map (Cut.extend ['\n']) := by
  rw [cutQuoted, cutQuoted, cutToQuote_append_newline h]
  split
  · rw [Option.map_map, Option.map_map]
    rfl
  · rfl

theorem cutComment_append_newline (cs : List Char) :
    cutComment (cs ++ ['\n']) = (cutComment cs).map (Cut.extend ['\n']) := by
  have hline : ∀ c ∈ ['\n'].head?, decide (c ≠ '\n') = false :=
    forall_head_cons (by decide) []
  match cs with
  | [] => rfl
  | [c] => simp [cutComment]
  | c :: d :: cs =>
    obtain ⟨htake, hdrop⟩ := span_extend hline cs
    rw [List.cons_append, List.cons_append]
    by_cases hslash : c = '/' ∧ d = '/'
    · obtain ⟨rfl, rfl⟩ := hslash
      rw [cutComment, cutComment, htake, hdrop]
      rfl
    · have hnone : ∀ cs, cutComment (c :: d :: cs) = none := by
        intro cs
        unfold cutComment
        split
        · next heq =>
          cases heq
          exact absurd ⟨rfl, rfl⟩ hslash
        · rfl
      rw [hnone, hnone]
      rfl

theorem cutPath_ended {opening closing : Char} (h : '\n' ≠ closing) (cs : List Char) :
    cutPath opening closing (ended cs) =
      (cutPath opening closing cs).map (Cut.extend ['\n']) := by
  cases cs with
  | nil => rfl
  | cons c cs =>
    rw [ended, cutPath, cutPath]
    by_cases hstop : ∃ x ∈ cs, ¬decide (x ≠ closing) = true
    · obtain ⟨htake, hdrop⟩ := span_extend_of_not hstop ['\n']
      obtain ⟨d, ds, hd⟩ : ∃ d ds, cs.dropWhile (· ≠ closing) = d :: ds := by
        refine List.exists_cons_of_ne_nil ?_
        rw [Ne, List.dropWhile_eq_nil_iff]
        simpa using hstop
      rw [htake, hdrop, hd, List.cons_append]
      dsimp only
      split
      · rfl
      · rfl
    · have hnone : closing ∉ cs := by simpa using hstop
      have hline : closing ∉ cs ++ ['\n'] := by simp [hnone, Ne.symm h]
      have hdrop {cs : List Char} (hcs : closing ∉ cs) : cs.dropWhile (· ≠ closing) = [] := by
        rw [List.dropWhile_eq_nil_iff]
        intro x hx
        simpa using ne_of_mem_of_not_mem hx hcs
      rw [hdrop hnone, hdrop hline]
      rfl

theorem cutInclude_append_newline (cs : List Char) :
    cutInclude (cs ++ ['\n']) = (cutInclude cs).map (Cut.extend ['\n']) := by
  by_cases hk : includeKeyword <+: cs
  · obtain ⟨ds, rfl⟩ := hk
    have hpath := dropBlank_append_newline ds
    rw [dropBlank, dropBlank] at hpath
    rw [List.append_assoc, cutInclude, cutInclude,
      if_pos (List.isPrefixOf_iff_prefix.2 (List.prefix_append ..)),
      if_pos (List.isPrefixOf_iff_prefix.2 (List.prefix_append ..)), List.drop_left, List.drop_left]
    dsimp only
    rw [hpath, cutPath_ended (by decide), cutPath_ended (by decide), ← Option.map_or]
    by_cases hstop : ∃ x ∈ ds, ¬isBlank x
    · rw [(span_extend_of_not hstop ['\n']).1, Option.map_map, Option.map_map]
      rfl
    · have hnil : ds.dropWhile isBlank = [] := by
        rw [List.dropWhile_eq_nil_iff]
        simpa using hstop
      rw [hnil]
      rfl
  · have hline : ¬includeKeyword <+: cs ++ ['\n'] :=
      mt (prefix_append_newline (by decide) cs).1 hk
    rw [cutInclude, cutInclude, if_neg (mt List.isPrefixOf_iff_prefix.1 hline),
      if_neg (mt List.isPrefixOf_iff_prefix.1 hk)]
    rfl

/-- Only blanks that nothing else follows take the line end with them. -/
theorem lexeme_append_newline {c : Char} {cs : List Char} (h : ¬∀ x ∈ c :: cs, isBlank x) :
    lexeme c (cs ++ ['\n']) = (lexeme c cs).extend ['\n'] := by
  by_cases hw : isWord c
  · exact breaksWord_newline.lexeme_word_extend hw cs
  by_cases hb : isBlank c
  · have hink : ∃ x ∈ cs, ¬isBlank x := by simpa [hb] using h
    rw [lexeme, lexeme, if_neg hw, if_neg hw, if_pos hb, if_pos hb, cutWhile_extend_of_not hink]
  · have hsymbol : ∀ x ∈ ['\n'].head?, isSymbol x = false := forall_head_cons (by decide) []
    have hcomment := cutComment_append_newline (c :: cs)
    have hinclude := cutInclude_append_newline (c :: cs)
    rw [List.cons_append] at hcomment hinclude
    rw [lexeme, lexeme, if_neg hw, if_neg hw, if_neg hb, if_neg hb,
      cutQuoted_append_newline (by decide), cutQuoted_append_newline (by decide), hcomment,
      hinclude, cutWhile_extend hsymbol, ← Option.map_or, ← Option.map_or, ← Option.map_or,
      Option.getD_map]

theorem lexCode_of_blank {c : Char} (hc : isBlank c) (cs : List Char) :
    lexCode (c :: cs) = (c :: cs.takeWhile isBlank) :: lexCode (cs.dropWhile isBlank) := by
  have hw : ¬isWord c := by simp [isWord_eq_false_of_isBlank hc]
  rw [lexCode, lexeme, if_neg hw, if_pos hc, cutWhile]

theorem lexCode_blanks {c : Char} {cs : List Char} (h : ∀ x ∈ c :: cs, isBlank x) :
    lexCode (c :: cs) = [c :: cs] := by
  have htail : ∀ x ∈ cs, isBlank x := fun x hx ↦ h x (List.mem_cons_of_mem c hx)
  rw [lexCode_of_blank (h c (List.mem_cons_self ..)), List.takeWhile_eq_self_iff.2 htail,
    List.dropWhile_eq_nil_iff.2 htail, lexCode]

/-- The line end goes to the blanks at the end of the text, of which there may be none. -/
theorem lexCode_append_newline (cs : List Char) : ∃ ts b, (∀ c ∈ b, isBlank c) ∧
    (lexCode cs = ts ++ [b] ∨ b = [] ∧ lexCode cs = ts) ∧
    lexCode (cs ++ ['\n']) = ts ++ [b ++ ['\n']] := by
  fun_induction lexCode cs with
  | case1 =>
    exact ⟨[], [], List.forall_mem_nil _, .inr ⟨rfl, rfl⟩,
      lexCode_blanks (List.forall_mem_singleton.2 (by decide))⟩
  | case2 c cs ih =>
    by_cases h : ∀ x ∈ c :: cs, isBlank x
    · have hline : ∀ x ∈ c :: (cs ++ ['\n']), isBlank x := by
        intro x hx
        rw [← List.cons_append, List.mem_append, List.mem_singleton] at hx
        rcases hx with hx | rfl
        · exact h x hx
        · decide
      have hcode := lexCode_blanks h
      rw [lexCode] at hcode
      exact ⟨[], c :: cs, h, .inl hcode, lexCode_blanks hline⟩
    · obtain ⟨ts, b, hb, hcs, hline⟩ := ih
      refine ⟨(lexeme c cs).1 :: ts, b, hb, ?_, ?_⟩
      · rcases hcs with hcs | ⟨hnil, hcs⟩
        · exact .inl (congrArg _ hcs)
        · exact .inr ⟨hnil, congrArg _ hcs⟩
      · rw [List.cons_append, lexCode, lexeme_append_newline h, List.cons_append]
        exact congrArg _ hline

theorem lexCode_newline_cons (cs : List Char) : ∃ b ts, (∀ c ∈ b, isBlank c) ∧
    (lexCode cs = b :: ts ∨ b = [] ∧ lexCode cs = ts) ∧
    lexCode ('\n' :: cs) = ('\n' :: b) :: ts := by
  refine ⟨cs.takeWhile isBlank, lexCode (cs.dropWhile isBlank),
    fun c hc ↦ List.mem_takeWhile_imp hc, ?_, lexCode_of_blank (by decide) cs⟩
  cases cs with
  | nil => exact .inr ⟨rfl, rfl⟩
  | cons c cs =>
    by_cases hb : isBlank c
    · rw [List.takeWhile_cons_of_pos hb, List.dropWhile_cons_of_pos hb]
      exact .inl (lexCode_of_blank hb cs)
    · rw [List.takeWhile_cons_of_neg hb, List.dropWhile_cons_of_neg hb]
      exact .inr ⟨rfl, rfl⟩

end Folio.Code
