import Folio.Code.Token
import Folio.Proofs.Text.Classes
import Folio.Proofs.Text.Spans
import Mathlib.Data.List.Chain

namespace Folio.Code

open Text

/-- What stands between the quotes of a literal. A backslash takes the next character with it. -/
inductive QuotedBody (quote : Char) : List Char → Prop
  | nil : QuotedBody quote []
  | plain {c : Char} {cs : List Char} :
      c ≠ quote → c ≠ '\\' → QuotedBody quote cs → QuotedBody quote (c :: cs)
  | escaped {c : Char} {cs : List Char} :
      c ≠ '\n' → QuotedBody quote cs → QuotedBody quote ('\\' :: c :: cs)

/-- The forms of a lexeme that stands before the text `rest`. -/
inductive Form (rest : List Char) : List Char → Prop
  | word {cs : List Char} : (∀ c ∈ cs, isWord c) → Form rest cs
  | blanks {cs : List Char} : (∀ c ∈ cs, isBlank c) → Form rest cs
  | symbols {cs : List Char} : (∀ c ∈ cs, isSymbol c) → Form rest cs
  | literal {quote : Char} {body : List Char} : quote = '"' ∨ quote = '\x27' →
      QuotedBody quote body → Form rest (quote :: body ++ [quote])
  | fraction {whole part mark : List Char} : whole ≠ [] → part ≠ [] →
      (∀ c ∈ whole ++ part, isDecimal c) → mark = [] ∨ mark = ['f'] ∨ mark = ['F'] →
      Form rest (whole ++ '.' :: part ++ mark)
  | call {name gap : List Char} : name ≠ [] → (∀ c ∈ name, isWord c) → (∀ c ∈ gap, isBlank c) →
      Form rest (name ++ gap ++ ['('])
  | comment {body : List Char} : (∀ c ∈ body, c ≠ '\n') → (∀ c ∈ rest.head?, c = '\n') →
      Form rest ('/' :: '/' :: body)
  | directive {opening closing : Char} {gap path : List Char} :
      (opening, closing) = ('<', '>') ∨ (opening, closing) = ('"', '"') →
      (∀ c ∈ gap, isBlank c) → path ≠ [] → (∀ c ∈ path, c ≠ closing) →
      Form rest (includeKeyword ++ gap ++ (opening :: path ++ [closing]))

/-- A cut off the front of a text that is a lexeme. It leaves neither a word nor a run of blanks
unfinished. -/
structure Cut.Clean (cut : Cut) : Prop where
  form : Form cut.2 cut.1
  word : (∃ c ∈ cut.1.getLast?, isWord c) → atWordEnd cut.2
  blank : (∀ c ∈ cut.1, isBlank c) → ∀ c ∈ cut.2.head?, isBlank c = false

theorem Cut.Clean.of_inked {cut : Cut} {first : List Char} {c : Char} (form : Form cut.2 cut.1)
    (hc : cut.1 = first ++ [c]) (hw : isWord c = false) (hb : isBlank c = false) : cut.Clean := by
  refine ⟨form, ?_, fun h ↦ ?_⟩
  · rintro ⟨d, hd, hd'⟩
    rw [hc, List.getLast?_concat, Option.mem_some_iff] at hd
    rw [← hd, hw] at hd'
    cases hd'
  · have := h c (by rw [hc]; exact List.mem_append_right first (List.mem_singleton_self c))
    rw [hb] at this
    cases this

theorem Cut.Clean.of_word {cut : Cut} {c : Char} (form : Form cut.2 cut.1) (hc : c ∈ cut.1)
    (hw : isWord c) (hend : atWordEnd cut.2) : cut.Clean := by
  refine ⟨form, fun _ ↦ hend, fun h ↦ ?_⟩
  have := h c hc
  rw [isBlank_eq_false_of_isWord hw] at this
  cases this

theorem atWordEnd_dropWhile (cs : List Char) : atWordEnd (cs.dropWhile isWord) := by
  rw [atWordEnd, Option.all_eq_true]
  intro c hc
  rw [head_dropWhile c hc]
  rfl

theorem cutWord_clean {c : Char} (h : isWord c) (cs : List Char) :
    (cutWhile isWord c cs).Clean := by
  refine .of_word (.word fun d hd ↦ ?_) (List.mem_cons_self ..) h (atWordEnd_dropWhile cs)
  rcases List.mem_cons.1 hd with rfl | hd
  · exact h
  · exact List.mem_takeWhile_imp hd

theorem cutBlank_clean {c : Char} (h : isBlank c) (cs : List Char) :
    (cutWhile isBlank c cs).Clean := by
  have hall : ∀ d ∈ (cutWhile isBlank c cs).1, isBlank d := by
    intro d hd
    rcases List.mem_cons.1 hd with rfl | hd
    · exact h
    · exact List.mem_takeWhile_imp hd
  refine ⟨.blanks hall, ?_, fun _ ↦ head_dropWhile⟩
  rintro ⟨d, hd, hw⟩
  have hb := hall d (List.mem_of_mem_getLast? hd)
  rw [isBlank_eq_false_of_isWord hw] at hb
  cases hb

theorem cutSymbols_clean {c : Char} (h : isSymbol c) (cs : List Char) :
    (cutWhile isSymbol c cs).Clean := by
  have hall : ∀ d ∈ (cutWhile isSymbol c cs).1, isSymbol d := by
    intro d hd
    rcases List.mem_cons.1 hd with rfl | hd
    · exact h
    · exact List.mem_takeWhile_imp hd
  obtain ⟨first, d, hd⟩ : ∃ first d, (cutWhile isSymbol c cs).1 = first ++ [d] :=
    ⟨_, _, (List.dropLast_concat_getLast (List.cons_ne_nil c _)).symm⟩
  have hs := hall d (by simp [hd])
  simp only [isSymbol, Bool.and_eq_true, Bool.not_eq_true'] at hs
  exact .of_inked (.symbols hall) hd hs.1 hs.2

theorem isWord_of_isHexDigit {c : Char} (h : isHexDigit c) : isWord c := by
  refine isWord_of_ascii (Bool.or_eq_true_iff.2 (.inl (isAlphanum_iff.2 ?_)))
  simp only [isHexDigit, Bool.or_eq_true, Bool.and_eq_true, decide_eq_true_eq] at h
  have hf : 'f'.val ≤ 'z'.val := by decide
  have hF : 'F'.val ≤ 'Z'.val := by decide
  rcases h with (h | ⟨hlo, hhi⟩) | ⟨hlo, hhi⟩
  · exact .inr h
  · exact .inl (.inr (isLower_iff.2 ⟨hlo, UInt32.le_trans hhi hf⟩))
  · exact .inl (.inl (isUpper_iff.2 ⟨hlo, UInt32.le_trans hhi hF⟩))

theorem isWord_of_isBinaryDigit {c : Char} (h : isBinaryDigit c) : isWord c := by
  simp only [isBinaryDigit, Bool.or_eq_true, beq_iff_eq] at h
  rcases h with rfl | rfl
  · decide
  · decide

theorem cutBased_clean {mark : Char} {isDigit : Char → Bool} {cs : List Char} {cut : Cut}
    (hmark : ∀ c, c = mark ∨ c = mark.toUpper → isWord c) (hdigit : ∀ c, isDigit c → isWord c)
    (h : cutBased mark isDigit cs = some cut) : cut.Clean := by
  unfold cutBased at h
  split at h
  · next z x cs =>
    obtain ⟨⟨rfl, hx, -, hend⟩, hcut⟩ := Option.ite_none_right_eq_some.1 h
    obtain rfl := Option.some.inj hcut
    refine .of_word (.word fun d hd ↦ ?_) (List.mem_cons_self ..) (by decide) hend
    rcases List.mem_cons.1 hd with rfl | hd
    · decide
    · rcases List.mem_cons.1 hd with rfl | hd
      · exact hmark d hx
      · exact hdigit d (List.mem_takeWhile_imp hd)
  · cases h

theorem cutFloatMark_eq {number rest : List Char} {cut : Cut}
    (h : cutFloatMark number rest = some cut) :
    ∃ mark, (mark = [] ∨ mark = ['f'] ∨ mark = ['F']) ∧ cut.1 = number ++ mark ∧
      atWordEnd cut.2 := by
  unfold cutFloatMark at h
  split at h
  · next c rest =>
    split at h
    · next hc =>
      obtain rfl := Option.some.inj h
      exact ⟨[c], by simpa using hc.1, rfl, hc.2⟩
    · obtain ⟨hend, hcut⟩ := Option.ite_none_right_eq_some.1 h
      obtain rfl := Option.some.inj hcut
      exact ⟨[], .inl rfl, (List.append_nil number).symm, hend⟩
  · obtain rfl := Option.some.inj h
    exact ⟨[], .inl rfl, (List.append_nil number).symm, rfl⟩

theorem cutFraction_eq {cs : List Char} {cut : Cut} (h : cutFraction cs = some cut) :
    ∃ part, part ≠ [] ∧ (∀ c ∈ part, isDecimal c) ∧ cut.1 = '.' :: part := by
  unfold cutFraction at h
  split at h
  · obtain ⟨hne, hcut⟩ := Option.ite_none_left_eq_some.1 h
    obtain rfl := Option.some.inj hcut
    exact ⟨_, hne, fun c hc ↦ List.mem_takeWhile_imp hc, rfl⟩
  · cases h

theorem cutFraction_of_ne {c : Char} (h : c ≠ '.') (cs : List Char) :
    cutFraction (c :: cs) = none := by
  unfold cutFraction
  split
  · next heq => exact absurd (List.cons.inj heq).1 h
  · rfl

theorem cutDecimal_clean {cs : List Char} {cut : Cut} (h : cutDecimal cs = some cut) :
    cut.Clean := by
  simp only [cutDecimal] at h
  obtain ⟨hne, hcut⟩ := Option.ite_none_left_eq_some.1 h
  have hwhole : ∀ c ∈ cs.takeWhile isDecimal, isDecimal c := fun c hc ↦ List.mem_takeWhile_imp hc
  obtain ⟨d, hd⟩ := List.exists_mem_of_ne_nil _ hne
  have hdw := isWord_of_isDecimal (hwhole d hd)
  rcases Option.or_eq_some_iff.1 hcut with hcut | ⟨-, hcut⟩
  · obtain ⟨⟨fraction, rest⟩, hf, hcut⟩ := Option.bind_eq_some_iff.1 hcut
    obtain ⟨part, hpart, hdigits, rfl⟩ := cutFraction_eq hf
    obtain ⟨mark, hmark, heq, hend⟩ := cutFloatMark_eq hcut
    refine .of_word ?_ (c := d) (by simp [heq, hd]) hdw hend
    rw [heq]
    refine .fraction hne hpart (fun c hc ↦ ?_) hmark
    rcases List.mem_append.1 hc with hc | hc
    · exact hwhole c hc
    · exact hdigits c hc
  · obtain ⟨mark, hmark, heq, hend⟩ := cutFloatMark_eq hcut
    refine .of_word (.word fun c hc ↦ ?_) (c := d) (by simp [heq, hd]) hdw hend
    rw [heq] at hc
    rcases List.mem_append.1 hc with hc | hc
    · exact isWord_of_isDecimal (hwhole c hc)
    · have hletter : ∀ c, c = 'f' ∨ c = 'F' → isWord c := by
        rintro c (rfl | rfl)
        · decide
        · decide
      refine hletter c ?_
      rcases hmark with rfl | rfl | rfl
      · cases hc
      · exact .inl (List.mem_singleton.1 hc)
      · exact .inr (List.mem_singleton.1 hc)

theorem cutCall_clean {cs : List Char} {cut : Cut} (h : cutCall cs = some cut) : cut.Clean := by
  simp only [cutCall] at h
  split at h
  · obtain ⟨hne, hcut⟩ := Option.ite_none_left_eq_some.1 h
    obtain rfl := Option.some.inj hcut
    refine .of_inked (.call hne (fun c hc ↦ ?_) fun c hc ↦ ?_) rfl (by decide) (by decide)
    · exact List.mem_takeWhile_imp hc
    · exact List.mem_takeWhile_imp hc
  · cases h

/-- What is neither a backslash at the end nor one with a character behind it is none. -/
theorem ne_backslash {c : Char} {cs : List Char} (hend : c = '\\' → cs = [] → False)
    (hpair : ∀ d ds, c = '\\' → cs = d :: ds → False) : c ≠ '\\' := by
  intro hc
  cases cs with
  | nil => exact hend hc rfl
  | cons d ds => exact hpair d ds hc rfl

theorem cutToQuote_eq {quote : Char} {cs : List Char} {cut : Cut}
    (h : cutToQuote quote cs = some cut) :
    ∃ body, QuotedBody quote body ∧ cut.1 = body ++ [quote] := by
  fun_induction cutToQuote quote cs generalizing cut with
  | case1 | case2 | case3 => cases h
  | case4 c cs hc ih =>
    obtain ⟨p, hp, rfl⟩ := Option.map_eq_some_iff.1 h
    obtain ⟨body, hbody, heq⟩ := ih hp
    exact ⟨'\\' :: c :: body, .escaped hc hbody, by simp [heq]⟩
  | case5 =>
    cases h
    exact ⟨[], .nil, rfl⟩
  | case6 c cs hesc hesc' hc ih =>
    obtain ⟨p, hp, rfl⟩ := Option.map_eq_some_iff.1 h
    obtain ⟨body, hbody, heq⟩ := ih hp
    exact ⟨c :: body, .plain hc (ne_backslash hesc hesc') hbody, by simp [heq]⟩

theorem cutQuoted_clean {quote : Char} {cs : List Char} {cut : Cut}
    (hquote : quote = '"' ∨ quote = '\x27') (h : cutQuoted quote cs = some cut) : cut.Clean := by
  unfold cutQuoted at h
  split at h
  · cases h
  · next c cs =>
    obtain ⟨rfl, hcut⟩ := Option.ite_none_right_eq_some.1 h
    obtain ⟨⟨text, rest⟩, hp, rfl⟩ := Option.map_eq_some_iff.1 hcut
    obtain ⟨body, hbody, rfl⟩ := cutToQuote_eq hp
    have hink : ∀ c, c = '"' ∨ c = '\x27' → isWord c = false ∧ isBlank c = false := by
      rintro c (rfl | rfl)
      · decide
      · decide
    exact .of_inked (.literal hquote hbody) (List.cons_append ..).symm (hink c hquote).1
      (hink c hquote).2

theorem cutComment_clean {cs : List Char} {cut : Cut} (h : cutComment cs = some cut) :
    cut.Clean := by
  unfold cutComment at h
  split at h
  · next cs =>
    obtain rfl := Option.some.inj h
    have hstop : ∀ c ∈ (cs.dropWhile (· ≠ '\n')).head?, c = '\n' :=
      fun c hc ↦ by simpa using head_dropWhile c hc
    refine ⟨.comment (fun c hc ↦ by simpa using List.mem_takeWhile_imp hc) hstop, fun _ ↦ ?_,
      fun hb ↦ absurd (hb '/' (by simp)) (by decide)⟩
    rw [atWordEnd, Option.all_eq_true]
    intro c hc
    rw [hstop c hc]
    decide
  · cases h

theorem cutPath_eq {opening closing : Char} {cs : List Char} {cut : Cut}
    (h : cutPath opening closing cs = some cut) :
    ∃ path, path ≠ [] ∧ (∀ c ∈ path, c ≠ closing) ∧ cut.1 = opening :: path ++ [closing] := by
  unfold cutPath at h
  split at h
  · cases h
  · next c cs =>
    dsimp only at h
    split at h
    · cases h
    · next d rest hd =>
      obtain ⟨⟨rfl, hne⟩, hcut⟩ := Option.ite_none_right_eq_some.1 h
      obtain rfl := Option.some.inj hcut
      have hclosing := head_dropWhile d (Option.mem_def.2 (congrArg List.head? hd))
      obtain rfl : d = closing := by simpa using hclosing
      exact ⟨_, hne, fun c hc ↦ by simpa using List.mem_takeWhile_imp hc, rfl⟩

theorem cutPath_of_ne {opening closing c : Char} (h : c ≠ opening) (cs : List Char) :
    cutPath opening closing (c :: cs) = none := by
  simp only [cutPath]
  split
  · rfl
  · exact if_neg fun hc ↦ h hc.1

theorem cutInclude_clean {cs : List Char} {cut : Cut} (h : cutInclude cs = some cut) :
    cut.Clean := by
  simp only [cutInclude] at h
  obtain ⟨-, hcut⟩ := Option.ite_none_right_eq_some.1 h
  obtain ⟨p, hp, rfl⟩ := Option.map_eq_some_iff.1 hcut
  have hclean : ∀ {opening closing}, (opening, closing) = ('<', '>') ∨
      (opening, closing) = ('"', '"') → isWord closing = false → isBlank closing = false →
      cutPath opening closing ((cs.drop includeKeyword.length).dropWhile isBlank) = some p →
      Cut.Clean (includeKeyword ++ (cs.drop includeKeyword.length).takeWhile isBlank ++ p.1,
        p.2) := by
    intro opening closing hpair hw hb hp
    obtain ⟨path, hne, hpath, heq⟩ := cutPath_eq hp
    rw [heq]
    refine .of_inked ?_ (List.append_assoc ..).symm hw hb
    exact .directive hpair (fun c hc ↦ List.mem_takeWhile_imp hc) hne hpath
  rcases Option.or_eq_some_iff.1 hp with hp | ⟨-, hp⟩
  · exact hclean (.inl rfl) (by decide) (by decide) hp
  · exact hclean (.inr rfl) (by decide) (by decide) hp

theorem lexeme_clean (c : Char) (cs : List Char) : (lexeme c cs).Clean := by
  have getD {x : Option Cut} {d : Cut} (hx : ∀ cut, x = some cut → cut.Clean) (hd : d.Clean) :
      (x.getD d).Clean := by
    cases x with
    | none => exact hd
    | some cut => exact hx cut rfl
  unfold lexeme
  split
  · next hw =>
    refine getD (fun cut h ↦ ?_) (cutWord_clean hw cs)
    rcases Option.or_eq_some_iff.1 h with h | ⟨-, h⟩
    · exact cutBased_clean (by rintro c (rfl | rfl) <;> decide) (fun _ ↦ isWord_of_isHexDigit) h
    rcases Option.or_eq_some_iff.1 h with h | ⟨-, h⟩
    · exact cutBased_clean (by rintro c (rfl | rfl) <;> decide) (fun _ ↦ isWord_of_isBinaryDigit) h
    rcases Option.or_eq_some_iff.1 h with h | ⟨-, h⟩
    · exact cutDecimal_clean h
    · exact cutCall_clean h
  · next hw =>
    split
    · next hb => exact cutBlank_clean hb cs
    · next hb =>
      refine getD (fun cut h ↦ ?_) (cutSymbols_clean (by simp [isSymbol, hw, hb]) cs)
      rcases Option.or_eq_some_iff.1 h with h | ⟨-, h⟩
      · exact cutQuoted_clean (.inl rfl) h
      rcases Option.or_eq_some_iff.1 h with h | ⟨-, h⟩
      · exact cutQuoted_clean (.inr rfl) h
      rcases Option.or_eq_some_iff.1 h with h | ⟨-, h⟩
      · exact cutComment_clean h
      · exact cutInclude_clean h

/-- Neighbours that are not two halves of one word or of one run of blanks. -/
def Parted (t u : List Char) : Prop :=
  (∀ c ∈ t.getLast?, ∀ d ∈ u.head?, ¬(isWord c ∧ isWord d)) ∧
    ¬((∀ c ∈ t, isBlank c) ∧ ∀ c ∈ u, isBlank c)

theorem Cut.Clean.parted {cut : Cut} (h : cut.Clean) {d : Char} (hd : cut.2.head? = some d)
    (u : List Char) : Parted cut.1 (d :: u) := by
  refine ⟨?_, ?_⟩
  · rintro c hc d' hd' ⟨hw, hw'⟩
    have hend := h.word ⟨c, hc, hw⟩
    obtain rfl : d = d' := Option.some.inj hd'
    rw [atWordEnd, hd, Option.all_some, hw'] at hend
    cases hend
  · rintro ⟨ht, hu⟩
    have hb := hu d (List.mem_cons_self ..)
    rw [h.blank ht d hd] at hb
    cases hb

theorem lexCode_ne_nil {code t : List Char} (ht : t ∈ lexCode code) : t ≠ [] := by
  fun_induction lexCode code with
  | case1 => cases ht
  | case2 c cs ih =>
    rcases List.mem_cons.1 ht with rfl | ht
    · exact (lexeme_splits c cs).2
    · exact ih ht

/-- The first lexeme begins as the code does. -/
theorem exists_cons_of_head_lexCode {code t : List Char} (h : t ∈ (lexCode code).head?) :
    ∃ d u, t = d :: u ∧ code.head? = some d := by
  obtain ⟨ts, hts⟩ := List.head?_eq_some_iff.1 h
  obtain ⟨d, u, rfl⟩ := List.exists_cons_of_ne_nil (lexCode_ne_nil (List.mem_of_mem_head? h))
  refine ⟨d, u, rfl, ?_⟩
  rw [← flatten_lexCode code, hts]
  rfl

/-- A lexeme is the one with which the text from there on begins. -/
theorem lexeme_of_lexCode_eq {code t : List Char} {before after : List (List Char)}
    (h : lexCode code = before ++ t :: after) :
    ∃ c cs, c :: cs = t ++ after.flatten ∧ lexeme c cs = (t, after.flatten) := by
  fun_induction lexCode code generalizing before with
  | case1 => simp at h
  | case2 c cs ih =>
    cases before with
    | nil =>
      obtain ⟨rfl, rfl⟩ := List.cons.inj h
      refine ⟨c, cs, ?_, ?_⟩
      · rw [flatten_lexCode, (lexeme_splits c cs).1]
      · rw [flatten_lexCode]
    | cons b before => exact ih (List.cons.inj h).2

theorem form_of_lexCode_eq {code t : List Char} {before after : List (List Char)}
    (h : lexCode code = before ++ t :: after) : Form after.flatten t := by
  obtain ⟨c, cs, -, hlexeme⟩ := lexeme_of_lexCode_eq h
  have hform := (lexeme_clean c cs).form
  rwa [hlexeme] at hform

theorem isChain_lexCode (code : List Char) : (lexCode code).IsChain Parted := by
  fun_induction lexCode code with
  | case1 => exact .nil
  | case2 c cs ih =>
    refine List.isChain_cons.2 ⟨fun u hu ↦ ?_, ih⟩
    obtain ⟨d, u, rfl, hd⟩ := exists_cons_of_head_lexCode hu
    exact (lexeme_clean c cs).parted hd u

/-- Code is cut into lexemes without loss. Each has one of the forms, and none breaks off within a
word or a run of blanks. -/
theorem lexCode_partition (code : List Char) :
    (lexCode code).flatten = code ∧ (∀ t ∈ lexCode code, t ≠ []) ∧
      (∀ before t after, lexCode code = before ++ t :: after → Form after.flatten t) ∧
      (lexCode code).IsChain Parted :=
  ⟨flatten_lexCode code, fun _ ht ↦ lexCode_ne_nil ht, fun _ _ _ h ↦ form_of_lexCode_eq h,
    isChain_lexCode code⟩

/-- A fraction is kept where the word ends after it, and left to the next lexemes where it goes
on. -/
theorem lexCode_partition_of_fractions :
    lexCode "f (2.5x 2.5F //c".toList =
        ["f (", "2", ".", "5x", " "].map String.toList ++
          "2.5F".toList :: [" ", "//c"].map String.toList ∧
      "2.5F".toList ≠ [] ∧ Form " //c".toList "2.5F".toList := by
  have h : lexCode "f (2.5x 2.5F //c".toList =
      ["f (", "2", ".", "5x", " "].map String.toList ++
        "2.5F".toList :: [" ", "//c"].map String.toList := by decide +kernel
  obtain ⟨-, hne, hform, -⟩ := lexCode_partition "f (2.5x 2.5F //c".toList
  refine ⟨h, hne _ ?_, hform _ _ _ h⟩
  rw [h]
  exact List.mem_append_right _ (List.mem_cons_self ..)

end Folio.Code
