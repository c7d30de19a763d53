import Folio.Markup.Token.Lexer
import Mathlib.Data.List.TakeWhile

namespace Folio.Markup

/-- A mark that covers its own character. Prose may cover any text. -/
def Token.Faithful (t : Token) : Prop :=
  ∀ c, t.kind.char? = some c → t.value = c.toString

def AllFaithful (ts : List Token) : Prop :=
  ∀ t ∈ ts, t.Faithful

theorem AllFaithful.of_subset {ts us : List Token} (h : AllFaithful ts) (hs : us ⊆ ts) :
    AllFaithful us :=
  fun t ht ↦ h t (hs ht)

theorem lexChars_mark {k : Kind} {c : Char} (h : Kind.ofChar? c = some k) (cs : List Char) :
    lexChars (c :: cs) = ⟨k, c.toString⟩ :: lexChars cs := by
  rw [lexChars, h]

theorem isProse_of_ofChar? {k : Kind} {c : Char} (h : Kind.ofChar? c = some k) :
    isProse c = false := by
  simp [isProse, h]

theorem lexChars_prose {w rest : List Char} (hw : ∀ c ∈ w, isProse c) (hne : w ≠ [])
    (hr : ∀ c ∈ rest.head?, isProse c = false) :
    lexChars (w ++ rest) = ⟨.text, String.ofList w⟩ :: lexChars rest := by
  obtain ⟨c, w, rfl⟩ := List.exists_cons_of_ne_nil hne
  have hc : Kind.ofChar? c = none := by simpa [isProse] using hw c (by simp)
  have htail : ∀ d ∈ w, isProse d := fun d hd ↦ hw d (by simp [hd])
  have htake : (w ++ rest).takeWhile isProse = w := by
    rw [List.takeWhile_append_of_pos htail]
    cases rest with
    | nil => simp
    | cons d rest => simp [hr d (by simp)]
  have hdrop : (w ++ rest).dropWhile isProse = rest := by
    rw [List.dropWhile_append_of_pos htail]
    cases rest with
    | nil => rfl
    | cons d rest => simp [hr d (by simp)]
  rw [List.cons_append, lexChars, hc]
  simp only [htake, hdrop]

/-- A text is empty, or a mark stands before a text, or a longest run of prose does. -/
theorem runs_induction {motive : List Char → Prop} (nil : motive [])
    (mark : ∀ k c cs, Kind.ofChar? c = some k → motive cs → motive (c :: cs))
    (prose : ∀ w rest, (∀ c ∈ w, isProse c) → w ≠ [] → (∀ c ∈ rest.head?, isProse c = false) →
      motive rest → motive (w ++ rest)) (cs : List Char) : motive cs := by
  fun_induction lexChars cs with
  | case1 => exact nil
  | case2 c cs k hk ih => exact mark k c cs hk ih
  | case3 c cs hc ih =>
    have h := prose (c :: cs.takeWhile isProse) (cs.dropWhile isProse) ?_ (by simp) ?_ ih
    · rwa [List.cons_append, List.takeWhile_append_dropWhile] at h
    · intro d hd
      rcases List.mem_cons.1 hd with rfl | hd
      · simp [isProse, hc]
      · exact List.mem_takeWhile_imp hd
    · intro d hd
      have h := List.head?_dropWhile_not isProse cs
      rw [Option.mem_def.1 hd] at h
      simpa using h

theorem allFaithful_lexChars (cs : List Char) : AllFaithful (lexChars cs) := by
  induction cs using runs_induction with
  | nil => simp [AllFaithful, lexChars]
  | mark k c cs hk ih =>
    intro t ht
    rw [lexChars_mark hk, List.mem_cons] at ht
    rcases ht with rfl | ht
    · intro d hd
      rw [Kind.ofChar?_eq_some_iff.1 hk, Option.some_inj] at hd
      exact congrArg Char.toString hd
    · exact ih t ht
  | prose w rest hw hne hr ih =>
    intro t ht
    rw [lexChars_prose hw hne hr, List.mem_cons] at ht
    rcases ht with rfl | ht
    · intro d hd
      cases hd
    · exact ih t ht

theorem toList_spell_lexChars (cs : List Char) : (Token.spell (lexChars cs)).toList = cs := by
  induction cs using runs_induction with
  | nil => simp [lexChars]
  | mark k c cs hk ih => simp [lexChars_mark hk, ih]
  | prose w rest hw hne hr ih => simp [lexChars_prose hw hne hr, ih]

/-- A text whose tokens begin with a mark begins with it itself. -/
theorem exists_head_of_lexChars {cs : List Char} {t : Token} (h : t ∈ (lexChars cs).head?)
    (ht : t.kind ≠ .text) : ∃ c ∈ cs.head?, t.kind.char? = some c := by
  induction cs using runs_induction with
  | nil => simp [lexChars] at h
  | mark k c cs hk ih =>
    rw [lexChars_mark hk] at h
    obtain rfl := Option.some.inj h
    exact ⟨c, rfl, Kind.ofChar?_eq_some_iff.1 hk⟩
  | prose w rest hw hne hr ih =>
    rw [lexChars_prose hw hne hr] at h
    obtain rfl := Option.some.inj h
    exact absurd rfl ht

theorem lexChars_append_mark {k : Kind} {c : Char} (h : Kind.ofChar? c = some k)
    (cs ds : List Char) : lexChars (cs ++ c :: ds) = lexChars cs ++ lexChars (c :: ds) := by
  induction cs using runs_induction with
  | nil => simp [lexChars]
  | mark k' c' cs hk ih => simp only [List.cons_append, lexChars_mark hk, ih]
  | prose w rest hw hne hr ih =>
    have hr' : ∀ d ∈ (rest ++ c :: ds).head?, isProse d = false := by
      cases rest with
      | nil => simpa using isProse_of_ofChar? h
      | cons d rest => simpa using hr
    rw [List.append_assoc, lexChars_prose hw hne hr', lexChars_prose hw hne hr, ih,
      List.cons_append]

/-- Marks are cut from whatever stands around them. -/
theorem lexChars_append_marks {ms : List Char} (h : ∀ c ∈ ms, isProse c = false) (hne : ms ≠ [])
    (cs ds : List Char) :
    lexChars (cs ++ (ms ++ ds)) = lexChars cs ++ (lexChars ms ++ lexChars ds) := by
  have hkind : ∀ c ∈ ms, ∃ k, Kind.ofChar? c = some k := by
    intro c hc
    simpa [isProse, Option.isSome_iff_exists] using h c hc
  have hmarks : lexChars (ms ++ ds) = lexChars ms ++ lexChars ds := by
    clear hne h
    induction ms with
    | nil => simp [lexChars]
    | cons c ms ih =>
      obtain ⟨k, hk⟩ := hkind c (List.mem_cons_self ..)
      rw [List.cons_append, lexChars_mark hk, lexChars_mark hk,
        ih fun d hd ↦ hkind d (List.mem_cons_of_mem c hd), List.cons_append]
  obtain ⟨c, ms, rfl⟩ := List.exists_cons_of_ne_nil hne
  obtain ⟨k, hk⟩ := hkind c (List.mem_cons_self ..)
  rw [← hmarks, List.cons_append, lexChars_append_mark hk]

theorem countP_newline_lexChars (cs : List Char) :
    (lexChars cs).countP (·.kind == .newline) = cs.count '\n' := by
  induction cs using runs_induction with
  | nil => simp [lexChars]
  | mark k c cs hk ih =>
    have hc : (k == .newline) = (c == '\n') := by
      have h := Kind.ofChar?_eq_some_iff.1 hk
      cases k <;> cases h <;> rfl
    simp [lexChars_mark hk, List.countP_cons, List.count_cons, ih, hc]
  | prose w rest hw hne hr ih =>
    have h0 : w.count '\n' = 0 := by
      refine List.count_eq_zero_of_not_mem fun hn ↦ ?_
      have h := hw _ hn
      revert h
      decide
    simp [lexChars_prose hw hne hr, ih, h0, List.count_append]

/-- A mark among the tokens of a text is a place to cut the text itself. -/
theorem exists_append_of_lexChars_eq {cs : List Char} {done ts : List Token} {t : Token}
    (h : lexChars cs = done ++ t :: ts) (ht : t.kind ≠ .text) :
    ∃ before c after, cs = before ++ c :: after ∧ Kind.ofChar? c = some t.kind ∧
      lexChars before = done ∧ lexChars after = ts := by
  induction cs using runs_induction generalizing done with
  | nil => simp [lexChars] at h
  | mark k c cs hk ih =>
    rw [lexChars_mark hk] at h
    cases done with
    | nil =>
      obtain ⟨rfl, rfl⟩ := List.cons.inj h
      exact ⟨[], c, cs, rfl, hk, by simp [lexChars], rfl⟩
    | cons d done =>
      rw [List.cons_append, List.cons.injEq] at h
      obtain ⟨rfl, hcs⟩ := h
      obtain ⟨before, e, after, rfl, he, rfl, rfl⟩ := ih hcs
      exact ⟨c :: before, e, after, rfl, he, lexChars_mark hk _, rfl⟩
  | prose w rest hw hne hr ih =>
    rw [lexChars_prose hw hne hr] at h
    cases done with
    | nil =>
      obtain ⟨rfl, -⟩ := List.cons.inj h
      exact absurd rfl ht
    | cons d done =>
      rw [List.cons_append, List.cons.injEq] at h
      obtain ⟨rfl, hcs⟩ := h
      obtain ⟨before, e, after, rfl, he, rfl, rfl⟩ := ih hcs
      refine ⟨w ++ before, e, after, by simp, he, lexChars_prose hw hne ?_, rfl⟩
      cases before with
      | nil => simp
      | cons b before => simpa using hr

/-- A character that is a mark stands in every text whose tokens hold it. -/
theorem mem_of_mem_lexChars {cs : List Char} {t : Token} {c : Char} (ht : t ∈ lexChars cs)
    (hc : t.kind.char? = some c) : c ∈ cs := by
  obtain ⟨done, us, hts⟩ := List.append_of_mem ht
  have htext : t.kind ≠ .text := by
    intro h
    simp [h, Kind.char?] at hc
  obtain ⟨before, c', after, rfl, hc', -, -⟩ := exists_append_of_lexChars_eq hts htext
  rw [Kind.ofChar?_eq_some_iff, hc] at hc'
  obtain rfl := Option.some.inj hc'
  simp

theorem eq_nil_of_lexChars {cs : List Char} (h : lexChars cs = []) : cs = [] := by
  have hcs := toList_spell_lexChars cs
  rw [h] at hcs
  exact hcs.symm

theorem exists_cons_of_lexChars_eq {cs : List Char} {ts : List Token} {t : Token}
    (h : lexChars cs = t :: ts) (ht : t.kind ≠ .text) :
    ∃ c after, cs = c :: after ∧ Kind.ofChar? c = some t.kind ∧ lexChars after = ts := by
  obtain ⟨before, c, after, hcs, hc, hbefore, hafter⟩ :=
    exists_append_of_lexChars_eq (List.nil_append (t :: ts) ▸ h) ht
  obtain rfl := eq_nil_of_lexChars hbefore
  exact ⟨c, after, hcs, hc, hafter⟩

theorem dropReturns_append (a b : String) :
    dropReturns (a ++ b) = dropReturns a ++ dropReturns b := by
  simp [dropReturns]

theorem lexChars_append_newline (cs ds : List Char) :
    lexChars (cs ++ '\n' :: ds) = lexChars cs ++ ⟨.newline, "\n"⟩ :: lexChars ds := by
  have hn : Kind.ofChar? '\n' = some .newline := rfl
  rw [lexChars_append_mark hn, lexChars_mark hn]
  rfl

theorem tokenize_append_newline (a : String) :
    tokenize (a ++ "\n") = tokenize a ++ [⟨.newline, "\n"⟩] := by
  have hline : dropReturns "\n" = ['\n'] := by decide
  rw [tokenize, dropReturns_append, hline, lexChars_append_newline]
  simp [tokenize, lexChars]

theorem tokenize_append_line (a b : String) :
    tokenize (a ++ "\n" ++ b) = tokenize (a ++ "\n") ++ tokenize b := by
  have hline : dropReturns "\n" = ['\n'] := by decide
  rw [tokenize_append_newline, tokenize, dropReturns_append, dropReturns_append, hline,
    List.append_assoc, List.singleton_append, lexChars_append_newline]
  simp [tokenize]

/-- To end the last line of a text adds at most a newline. -/
theorem dropReturns_endLine (s : String) :
    dropReturns (endLine s) = dropReturns s ∨
      dropReturns (endLine s) = dropReturns s ++ ['\n'] := by
  unfold endLine
  split
  · exact .inl rfl
  · refine .inr ?_
    rw [dropReturns_append]
    rfl

theorem endLine_append_line (a b : String) : endLine (a ++ "\n" ++ b) = a ++ "\n" ++ endLine b := by
  have hlast : (a ++ "\n" ++ b).toList.getLast?.all (· = '\n') =
      b.toList.getLast?.all (· = '\n') := by
    rw [String.toList_append, List.getLast?_append]
    cases b.toList.getLast? with
    | none => simp
    | some c => rfl
  unfold endLine
  rw [hlast]
  split
  · rfl
  · rw [String.append_assoc]

theorem lex_append_line (a b : String) :
    lex (a ++ "\n" ++ b) = tokenize (a ++ "\n") ++ lex b := by
  rw [lex, endLine_append_line, tokenize_append_line]
  rfl

theorem lex_lines (ls : List String) :
    lex (String.join (ls.map (· ++ "\n"))) = ls.flatMap fun l ↦ tokenize (l ++ "\n") := by
  induction ls with
  | nil => decide +kernel
  | cons l ls ih => rw [List.map_cons, String.join_cons, lex_append_line, ih, List.flatMap_cons]

theorem lex_newline : lex "\n" = [⟨.newline, "\n"⟩] := by
  decide +kernel

/-- To end a line that was ended adds a blank one. -/
theorem tokenize_line (a : String) :
    tokenize (a ++ "\n") = lex a ∨ tokenize (a ++ "\n") = lex a ++ lex "\n" := by
  by_cases h : a.toList.getLast?.all (· = '\n')
  · refine .inr ?_
    rw [tokenize_append_newline, lex_newline, lex, endLine, if_pos h]
  · refine .inl ?_
    rw [lex, endLine, if_neg h]

theorem endLine_eq (a : String) : endLine a = "" ∨ ∃ b, endLine a = b ++ "\n" := by
  by_cases h : a.toList.getLast?.all (· = '\n')
  · rw [endLine, if_pos h]
    rcases List.eq_nil_or_concat a.toList with hnil | ⟨cs, c, hc⟩
    · exact .inl (String.toList_inj.1 hnil)
    · rw [hc, List.concat_eq_append, List.getLast?_concat] at h
      obtain rfl : c = '\n' := by simpa using h
      refine .inr ⟨String.ofList cs, String.toList_inj.1 ?_⟩
      rw [hc, String.toList_append, String.toList_ofList, List.concat_eq_append]
      rfl
  · exact .inr ⟨a, by rw [endLine, if_neg h]⟩

theorem countP_newline_tokenize (a : String) :
    (tokenize a).countP (·.kind == .newline) = a.toList.count '\n' := by
  rw [tokenize, countP_newline_lexChars, dropReturns, List.count_filter (by decide)]

end Folio.Markup
