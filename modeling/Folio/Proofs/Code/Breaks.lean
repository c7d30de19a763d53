import Folio.Proofs.Code.Shown

namespace Folio.Code

open Text

def Cut.extend (rest : List Char) (cut : Cut) : Cut :=
  (cut.1, cut.2 ++ rest)

theorem cutWhile_extend {p : Char → Bool} {rest : List Char} (h : ∀ c ∈ rest.head?, p c = false)
    (c : Char) (cs : List Char) : cutWhile p c (cs ++ rest) = (cutWhile p c cs).extend rest := by
  obtain ⟨htake, hdrop⟩ := span_extend h cs
  rw [cutWhile, cutWhile, htake, hdrop]
  rfl

theorem cutWhile_extend_of_not {p : Char → Bool} {cs : List Char} (h : ∃ c ∈ cs, ¬p c) (c : Char)
    (rest : List Char) : cutWhile p c (cs ++ rest) = (cutWhile p c cs).extend rest := by
  obtain ⟨htake, hdrop⟩ := span_extend_of_not h rest
  rw [cutWhile, cutWhile, htake, hdrop]
  rfl

theorem cutComment_of_ne {c : Char} (h : c ≠ '/') (cs : List Char) :
    cutComment (c :: cs) = none := by
  unfold cutComment
  split
  · next heq => exact absurd (List.cons.inj heq).1 h
  · rfl

theorem cutInclude_of_ne {c : Char} (h : c ≠ '#') (cs : List Char) :
    cutInclude (c :: cs) = none := by
  simp [cutInclude, includeKeyword, Ne.symm h]

structure BreaksWord (rest : List Char) : Prop where
  word : ∀ c ∈ rest.head?, isWord c = false
  point : ∀ c ∈ rest.head?, c ≠ '.'
  call : ∀ c ∈ (dropBlank rest).head?, c ≠ '('

namespace BreaksWord

variable {rest : List Char} (h : BreaksWord rest)

include h

theorem atWordEnd_append (cs : List Char) : atWordEnd (cs ++ rest) = atWordEnd cs := by
  cases cs with
  | nil =>
    have hrest : atWordEnd rest := by
      rw [atWordEnd, Option.all_eq_true]
      intro c hc
      simp [h.word c hc]
    exact hrest
  | cons c cs => rfl

theorem not_digit {isDigit : Char → Bool} (hd : ∀ c, isDigit c → isWord c) :
    ∀ c ∈ rest.head?, isDigit c = false := by
  intro c hc
  rw [Bool.eq_false_iff]
  intro hdigit
  have hw := h.word c hc
  rw [hd c hdigit] at hw
  cases hw

theorem cutBased_extend (mark : Char) {isDigit : Char → Bool}
    (hmark : ∀ c, c = mark ∨ c = mark.toUpper → isWord c) (hdigit : ∀ c, isDigit c → isWord c)
    (c : Char) (cs : List Char) :
    cutBased mark isDigit (c :: (cs ++ rest)) =
      (cutBased mark isDigit (c :: cs)).map (Cut.extend rest) := by
  cases cs with
  | nil =>
    cases rest with
    | nil => rfl
    | cons x rest =>
      have hx : ¬(x = mark ∨ x = mark.toUpper) := by
        intro hx
        have hw := h.word x rfl
        rw [hmark x hx] at hw
        cases hw
      rw [List.nil_append, cutBased, if_neg fun hcut ↦ hx hcut.2.1]
      rfl
  | cons x cs =>
    obtain ⟨htake, hdrop⟩ := span_extend (h.not_digit hdigit) cs
    rw [List.cons_append, cutBased, cutBased, htake, hdrop, h.atWordEnd_append]
    split
    · rfl
    · rfl

theorem cutFloatMark_extend (number cs : List Char) :
    cutFloatMark number (cs ++ rest) = (cutFloatMark number cs).map (Cut.extend rest) := by
  cases cs with
  | nil =>
    cases rest with
    | nil => rfl
    | cons c rest =>
      have hc : ¬(c = 'f' ∨ c = 'F') := by
        have hw := h.word c rfl
        rintro (rfl | rfl)
        · revert hw
          decide
        · revert hw
          decide
      have hend : atWordEnd (c :: rest) := by
        rw [← List.nil_append (c :: rest), h.atWordEnd_append]
        rfl
      rw [List.nil_append, cutFloatMark, if_neg fun hcut ↦ hc hcut.1, if_pos hend]
      rfl
  | cons c cs =>
    have hend := h.atWordEnd_append (c :: cs)
    rw [List.cons_append] at hend ⊢
    rw [cutFloatMark, cutFloatMark, h.atWordEnd_append, hend]
    split
    · rfl
    · split
      · rfl
      · rfl

theorem cutFraction_extend (cs : List Char) :
    cutFraction (cs ++ rest) = (cutFraction cs).map (Cut.extend rest) := by
  cases cs with
  | nil =>
    cases rest with
    | nil => rfl
    | cons c rest =>
      rw [List.nil_append, cutFraction_of_ne (h.point c rfl)]
      rfl
  | cons c cs =>
    rw [List.cons_append]
    by_cases hc : c = '.'
    · subst hc
      obtain ⟨htake, hdrop⟩ := span_extend (h.not_digit fun _ ↦ isWord_of_isDecimal) cs
      rw [cutFraction, cutFraction, htake, hdrop]
      split
      · rfl
      · rfl
    · rw [cutFraction_of_ne hc, cutFraction_of_ne hc]
      rfl

theorem cutDecimal_extend (cs : List Char) :
    cutDecimal (cs ++ rest) = (cutDecimal cs).map (Cut.extend rest) := by
  obtain ⟨htake, hdrop⟩ := span_extend (h.not_digit fun _ ↦ isWord_of_isDecimal) cs
  simp only [cutDecimal, htake, hdrop, h.cutFraction_extend, h.cutFloatMark_extend]
  split
  · rfl
  · cases hf : cutFraction (cs.dropWhile isDecimal) with
    | none => rfl
    | some fraction =>
      have hmark := h.cutFloatMark_extend (cs.takeWhile isDecimal ++ fraction.1) fraction.2
      simp only [Option.map_some, Option.bind_some, Cut.extend, hmark, Option.map_or]

theorem cutCall_extend (cs : List Char) :
    cutCall (cs ++ rest) = (cutCall cs).map (Cut.extend rest) := by
  obtain ⟨htake, hdrop⟩ := span_extend h.word cs
  simp only [cutCall, htake, hdrop]
  generalize cs.dropWhile isWord = after
  rw [List.dropWhile_append]
  cases hd : after.dropWhile isBlank with
  | nil =>
    -- only blanks are left of `cs`, and no parenthesis follows them
    rw [List.isEmpty_nil, if_pos rfl]
    split
    · next heq => exact absurd rfl (h.call '(' (by rw [dropBlank, heq]; rfl))
    · rfl
  | cons d ds =>
    have hink : ∃ c ∈ after, ¬isBlank c := by
      refine ⟨d, (List.dropWhile_sublist isBlank).subset (hd ▸ List.mem_cons_self ..), ?_⟩
      exact Bool.eq_false_iff.1 (head_dropWhile d (Option.mem_def.2 (congrArg List.head? hd)))
    rw [List.isEmpty_cons, if_neg (by simp), takeWhile_append_of_not hink, List.cons_append]
    by_cases hparen : d = '('
    · subst hparen
      by_cases hword : cs.takeWhile isWord = []
      · simp [hword]
      · simp [hword, Cut.extend]
    · split
      · next heq => exact absurd (List.cons.inj heq).1 hparen
      · split
        · next heq => exact absurd (List.cons.inj heq).1 hparen
        · rfl

/-- A lexeme that begins with a word is the same whether the text follows or not. -/
theorem lexeme_word_extend {c : Char} (hc : isWord c) (cs : List Char) :
    lexeme c (cs ++ rest) = (lexeme c cs).extend rest := by
  have hhex := h.cutBased_extend 'x' (by rintro c (rfl | rfl) <;> decide)
    (fun _ ↦ isWord_of_isHexDigit) c cs
  have hbin := h.cutBased_extend 'b' (by rintro c (rfl | rfl) <;> decide)
    (fun _ ↦ isWord_of_isBinaryDigit) c cs
  have hdec := h.cutDecimal_extend (c :: cs)
  have hcall := h.cutCall_extend (c :: cs)
  rw [List.cons_append] at hdec hcall
  rw [lexeme, lexeme, if_pos hc, if_pos hc, cutHexadecimal, cutBinary, hhex, hbin, hdec, hcall,
    cutWhile_extend h.word, ← Option.map_or, ← Option.map_or, ← Option.map_or, Option.getD_map]

end BreaksWord

theorem cutToQuote_cons {quote c : Char} (hc : c ≠ '\\') (cs : List Char) :
    cutToQuote quote (c :: cs) =
      if c = quote then some ([c], cs)
      else (cutToQuote quote cs).map fun p ↦ (c :: p.1, p.2) := by
  rw [cutToQuote.eq_def]
  split
  · next heq => cases heq
  · next heq => exact absurd (List.cons.inj heq).1 hc
  · next heq => exact absurd (List.cons.inj heq).1 hc
  · next heq =>
    obtain ⟨rfl, rfl⟩ := List.cons.inj heq
    rfl

def tokenOf (l : Language) (names : Declared) (t : List Char) : Token :=
  ⟨categoryOf l names (String.ofList t), String.ofList t⟩

theorem classify_eq (l : Language) (code : String) :
    classify l code = (lexCode code.toList).map (tokenOf l (Declared.ofCode code l)) := by
  rw [classify, lexemes, List.map_map]
  rfl

theorem codeText_map_tokenOf (l : Language) (names : Declared) (ts : List (List Char)) :
    codeText (ts.map (tokenOf l names)) = ts.flatten := by
  simp [codeText, tokenOf, List.flatMap_def, Function.comp_def]

end Folio.Code
