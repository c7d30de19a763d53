import Folio.Proofs.Markup.Returns
import Mathlib.Data.List.Chain

namespace Folio.Markup

/-- What a token of prose covers: some text, without marks and carriage returns. -/
structure ProseValue (s : String) : Prop where
  ne_empty : s ≠ ""
  prose : ∀ c ∈ s.toList, Kind.ofChar? c = none
  no_return : '\r' ∉ s.toList

structure Canonical (ts : List Token) : Prop where
  marks : AllFaithful ts
  prose : ∀ t ∈ ts, t.kind = .text → ProseValue t.value
  apart : ts.IsChain fun t u ↦ t.kind = .text → u.kind ≠ .text

theorem Canonical.nil : Canonical [] :=
  ⟨by simp [AllFaithful], by simp, .nil⟩

theorem Canonical.tail {t : Token} {ts : List Token} (h : Canonical (t :: ts)) :
    Canonical ts where
  marks u hu := h.marks u (List.mem_cons_of_mem t hu)
  prose u hu := h.prose u (List.mem_cons_of_mem t hu)
  apart := h.apart.tail

theorem Canonical.of_isInfix {ts us : List Token} (h : Canonical ts) (hs : us <:+: ts) :
    Canonical us where
  marks u hu := h.marks u (hs.subset hu)
  prose u hu := h.prose u (hs.subset hu)
  apart := h.apart.infix hs

theorem Canonical.cons {t : Token} {ts : List Token} (h : Canonical ts) (hm : t.Faithful)
    (hp : t.kind = .text → ProseValue t.value ∧ ∀ u ∈ ts.head?, u.kind ≠ .text) :
    Canonical (t :: ts) := by
  refine ⟨?_, ?_, ?_⟩
  · intro u hu
    rcases List.mem_cons.1 hu with rfl | hu
    · exact hm
    · exact h.marks u hu
  · intro u hu hk
    rcases List.mem_cons.1 hu with rfl | hu
    · exact (hp hk).1
    · exact h.prose u hu hk
  · exact List.isChain_cons.2 ⟨fun u hu hk ↦ (hp hk).2 u hu, h.apart⟩

/-- A token that is no prose covers one character, the mark of its kind. -/
theorem Canonical.exists_mark {t : Token} {ts : List Token} (h : Canonical (t :: ts))
    (ht : t.kind ≠ .text) : ∃ c, Kind.ofChar? c = some t.kind ∧ t.value = c.toString := by
  have hc : ∃ c, t.kind.char? = some c := by
    revert ht
    cases t.kind <;> simp [Kind.char?]
  obtain ⟨c, hc⟩ := hc
  exact ⟨c, Kind.ofChar?_eq_some_iff.2 hc, h.marks t (List.mem_cons_self ..) c hc⟩

/-- A mark stands only in the token of its kind. -/
theorem Canonical.kind_of_mem_value {t : Token} {ts : List Token} (h : Canonical ts) (ht : t ∈ ts)
    {c : Char} {k : Kind} (hc : Kind.ofChar? c = some k) (hmem : c ∈ t.value.toList) :
    t.kind = k := by
  by_cases hk : t.kind = .text
  · rw [(h.prose t ht hk).prose c hmem] at hc
    cases hc
  · obtain ⟨pre, post, rfl⟩ := List.append_of_mem ht
    obtain ⟨d, hd, hv⟩ := (h.of_isInfix (List.suffix_append pre (t :: post)).isInfix).exists_mark hk
    obtain rfl : c = d := by simpa [hv] using hmem
    exact Option.some.inj (hd.symm.trans hc)

theorem toList_spell (ts : List Token) :
    (Token.spell ts).toList = ts.flatMap fun t ↦ t.value.toList := by
  rw [Token.spell, String.toList_join, List.flatMap_map]

theorem Canonical.exists_kind_of_mem_spell {ts : List Token} (h : Canonical ts) {c : Char}
    {k : Kind} (hc : Kind.ofChar? c = some k) (hmem : c ∈ (Token.spell ts).toList) :
    ∃ t ∈ ts, t.kind = k := by
  rw [toList_spell, List.mem_flatMap] at hmem
  obtain ⟨t, ht, hmem⟩ := hmem
  exact ⟨t, ht, h.kind_of_mem_value ht hc hmem⟩

/-- What stands after a stretch of prose begins with no prose. -/
theorem head_lexChars_ne_text {cs : List Char} (h : ∀ c ∈ cs.head?, isProse c = false) :
    ∀ t ∈ (lexChars cs).head?, t.kind ≠ .text := by
  intro t ht hk
  cases cs with
  | nil => simp [lexChars] at ht
  | cons c cs =>
    obtain ⟨k, hc⟩ : ∃ k, Kind.ofChar? c = some k := by
      simpa [isProse, Option.isSome_iff_exists] using h c rfl
    rw [lexChars_mark hc] at ht
    obtain rfl := Option.some.inj ht
    exact Kind.ofChar?_ne_text c (hk ▸ hc)

theorem canonical_lexChars {cs : List Char} (hr : '\r' ∉ cs) : Canonical (lexChars cs) := by
  induction cs using runs_induction with
  | nil =>
    rw [lexChars]
    exact .nil
  | mark k c cs hk ih =>
    have hf := allFaithful_lexChars (c :: cs)
    rw [lexChars_mark hk] at hf ⊢
    refine .cons (ih (fun h ↦ hr (List.mem_cons_of_mem c h))) (hf _ (List.mem_cons_self ..)) ?_
    intro ht
    exact absurd (ht ▸ hk) (Kind.ofChar?_ne_text c)
  | prose w rest hw hne hrest ih =>
    rw [lexChars_prose hw hne hrest]
    refine .cons (ih (fun h ↦ hr (List.mem_append_right w h))) (fun c hc ↦ by cases hc) ?_
    intro _
    refine ⟨⟨by simpa using hne, ?_, ?_⟩, head_lexChars_ne_text hrest⟩
    · intro c hc
      simpa [isProse] using hw c (by simpa using hc)
    · intro h
      exact hr (List.mem_append_left rest (by simpa using h))

/-- The text after a token of prose begins with a mark, if it begins at all. -/
theorem Canonical.head_spell {t : Token} {ts : List Token} (h : Canonical (t :: ts))
    (ht : t.kind = .text) : ∀ c ∈ (Token.spell ts).toList.head?, isProse c = false := by
  intro c hc
  cases ts with
  | nil => simp at hc
  | cons u us =>
    have hu : u.kind ≠ .text := (List.isChain_cons_cons.1 h.apart).1 ht
    obtain ⟨d, hd, hv⟩ := h.tail.exists_mark hu
    rw [Token.spell_cons, hv] at hc
    obtain rfl : d = c := by simpa using hc
    exact isProse_of_ofChar? hd

theorem Canonical.lexChars_spell {ts : List Token} (h : Canonical ts) :
    lexChars (Token.spell ts).toList = ts := by
  induction ts with
  | nil => simp [lexChars]
  | cons t ts ih =>
    have hts := ih h.tail
    rw [Token.spell_cons, String.toList_append]
    by_cases ht : t.kind = .text
    · have hv := h.prose t (List.mem_cons_self ..) ht
      have hprose : ∀ c ∈ t.value.toList, isProse c := by
        intro c hc
        simp [isProse, hv.prose c hc]
      have hne : t.value.toList ≠ [] := by simpa using hv.ne_empty
      rw [lexChars_prose hprose hne (h.head_spell ht), hts, String.ofList_toList, ← ht]
    · obtain ⟨c, hc, hv⟩ := h.exists_mark ht
      have hlist : t.value.toList = [c] := by simp [hv]
      rw [hlist, List.singleton_append, lexChars_mark hc, hts, ← hv]

theorem Canonical.no_return {ts : List Token} (h : Canonical ts) :
    '\r' ∉ (Token.spell ts).toList := by
  induction ts with
  | nil => simp
  | cons t ts ih =>
    rw [Token.spell_cons, String.toList_append, List.mem_append]
    rintro (hr | hr)
    · by_cases ht : t.kind = .text
      · exact (h.prose t (List.mem_cons_self ..) ht).no_return hr
      · obtain ⟨c, hc, hv⟩ := h.exists_mark ht
        obtain rfl : '\r' = c := by simpa [hv] using hr
        cases hc
    · exact ih h.tail hr

theorem Canonical.tokenize_spell {ts : List Token} (h : Canonical ts) :
    tokenize (Token.spell ts) = ts := by
  have hall : dropReturns (Token.spell ts) = (Token.spell ts).toList := by
    refine List.filter_eq_self.2 fun c hc ↦ decide_eq_true ?_
    rintro rfl
    exact h.no_return hc
  rw [tokenize, hall, h.lexChars_spell]

/-- Each text is read as the one canonical list that spells it without its carriage returns. -/
structure ReadsCanonically (read : String → List Token) : Prop where
  canonical : ∀ s, Canonical (read s)
  spells : ∀ s, Token.spell (read s) = String.ofList (s.toList.filter (· ≠ '\r'))
  reads : ∀ ts, Canonical ts → read (Token.spell ts) = ts
  unique : ∀ s ts, Canonical ts →
    Token.spell ts = String.ofList (s.toList.filter (· ≠ '\r')) → ts = read s

theorem readsCanonically_tokenize : ReadsCanonically tokenize where
  canonical s := canonical_lexChars (by simp [dropReturns])
  spells s := String.toList_inj.1 (by rw [tokenize, toList_spell_lexChars, dropReturns,
    String.toList_ofList])
  reads ts h := h.tokenize_spell
  unique s ts h hs := by
    have htext : (Token.spell ts).toList = dropReturns s := by
      rw [hs, String.toList_ofList, dropReturns]
    rw [tokenize, ← htext, h.lexChars_spell]

/-- Lexing and spelling are inverse to each other on canonical lists, be the carriage returns left
out first or skipped in passing. -/
theorem tokenize_spell_canonical : ReadsCanonically tokenize ∧ ReadsCanonically scan := by
  have hscan : scan = tokenize := funext scan_eq
  rw [hscan]
  exact ⟨readsCanonically_tokenize, readsCanonically_tokenize⟩

theorem tokenize_spell_canonical_emphasis :
    tokenize "\rab*\rc" = [⟨.text, "ab"⟩, ⟨.star, "*"⟩, ⟨.text, "c"⟩] ∧
      scan "\rab*\rc" = [⟨.text, "ab"⟩, ⟨.star, "*"⟩, ⟨.text, "c"⟩] := by
  have hab : ProseValue "ab" := ⟨by decide, by simp [Kind.ofChar?], by decide +kernel⟩
  have hc : ProseValue "c" := ⟨by decide, by simp [Kind.ofChar?], by decide +kernel⟩
  have hcanonical : Canonical [⟨.text, "ab"⟩, ⟨.star, "*"⟩, ⟨.text, "c"⟩] := by
    refine ⟨?_, ?_, by simp⟩
    · simp [AllFaithful, Token.Faithful, Kind.char?]
    · simp [hab, hc]
  have hspell : Token.spell [⟨.text, "ab"⟩, ⟨.star, "*"⟩, ⟨.text, "c"⟩] =
      String.ofList ("\rab*\rc".toList.filter (· ≠ '\r')) := by decide +kernel
  obtain ⟨htokenize, hscan⟩ := tokenize_spell_canonical
  exact ⟨(htokenize.unique _ _ hcanonical hspell).symm, (hscan.unique _ _ hcanonical hspell).symm⟩

end Folio.Markup
