import Folio.Proofs.Markup.Evidence
import Folio.Proofs.Markup.Lexing
import Mathlib.Data.List.Basic

namespace Folio.Markup

def EndsLine (ts : List Token) : Prop :=
  ∀ t ∈ ts.getLast?, t.kind = .newline

def Failure.append (us : List Token) : Failure → Failure
  | missing k rest => missing k (rest ++ us)
  | unclosed rest => unclosed (rest ++ us)
  | unopened rest => unopened (rest ++ us)

def extend {α : Type} (us : List Token) :
    Except Failure (α × List Token) → Except Failure (α × List Token)
  | .ok (a, rest) => .ok (a, rest ++ us)
  | .error f => .error (f.append us)

theorem extend_map {α β : Type} (us : List Token) (g : α → β)
    (r : Except Failure (α × List Token)) :
    extend us (r.map fun p ↦ (g p.1, p.2)) = (extend us r).map fun p ↦ (g p.1, p.2) := by
  rcases r with f | ⟨a, rest⟩ <;> rfl

def Known {α : Type} (r : Except Failure α) : Prop :=
  ∀ f, r = .error f → f.unread ≠ []

theorem known_error {α : Type} {f : Failure} :
    Known (.error f : Except Failure α) ↔ f.unread ≠ [] := by
  refine ⟨fun h ↦ h f rfl, ?_⟩
  rintro h f' ⟨⟩
  exact h

theorem known_ok {α : Type} {a : α} : Known (.ok a : Except Failure α) := by
  rintro f ⟨⟩

theorem Known.of_map {α β : Type} {r : Except Failure α} {g : α → β} (h : Known (r.map g)) :
    Known r :=
  fun f hf ↦ h f (map_eq_error_iff.2 hf)

theorem EndsLine.of_suffix {ts us : List Token} (h : EndsLine ts) (hs : us <:+ ts) :
    EndsLine us := by
  obtain ⟨pre, rfl⟩ := hs
  intro t ht
  exact h t (by rw [List.getLast?_append, Option.mem_def.1 ht]; rfl)

theorem EndsLine.tail {t : Token} {ts : List Token} (h : EndsLine (t :: ts)) : EndsLine ts :=
  h.of_suffix (List.suffix_cons ..)

theorem EndsLine.ne_nil {t : Token} {ts : List Token} (h : EndsLine (t :: ts))
    (ht : t.kind ≠ .newline) : ts ≠ [] := by
  rintro rfl
  exact ht (h t (by simp))

theorem EndsLine.exists_newline {ts : List Token} (h : EndsLine ts) (hne : ts ≠ []) :
    ∃ t ∈ ts, t.kind = .newline :=
  ⟨ts.getLast hne, List.getLast_mem hne, h _ (by rw [List.getLast?_eq_some_getLast hne]; rfl)⟩

theorem unbroken_tokenize {s : String} (h : '\n' ∉ s.toList) : Unbroken (tokenize s) := by
  intro t ht hk
  have hmem := mem_of_mem_lexChars ht (c := '\n') (by rw [hk]; rfl)
  exact h (List.mem_of_mem_filter hmem)

theorem endsLine_tokenize (a : String) : EndsLine (tokenize (a ++ "\n")) := by
  rw [tokenize_append_newline]
  intro t ht
  rw [List.getLast?_concat] at ht
  obtain rfl := Option.some.inj ht
  rfl

theorem endsLine_lex (a : String) : EndsLine (lex a) := by
  rcases endLine_eq a with h | ⟨b, h⟩
  · rw [lex, h]
    simp [EndsLine, tokenize, dropReturns, lexChars]
  · rw [lex, h]
    exact endsLine_tokenize b

/-- What ends with a line and begins with a node goes on after the node. -/
theorem Spans.rest_ne_nil {ctx : Context} {span rest : List Token} {n : Inline}
    (h : Spans ctx span n) (hl : EndsLine (span ++ rest)) : rest ≠ [] := by
  rintro rfl
  rw [List.append_nil] at hl
  rcases h.unbroken_or_fence with hu | ⟨o, body, m, rfl, -, hm⟩
  · obtain ⟨t, ht, hk⟩ := hl.exists_newline h.ne_nil
    exact hu t ht hk
  · have hne : m ≠ [] := by
      rintro rfl
      simp [fence] at hm
    have hl' := hl.of_suffix (List.suffix_append (o ++ body) m)
    obtain ⟨t, ht, hk⟩ := hl'.exists_newline hne
    rw [kind_of_mem_mark hm (k := .backtick) (by simp [fence]) ht] at hk
    cases hk

theorem startsWith_append_eq (mark : List Kind) {ts : List Token} (hm : .newline ∉ mark)
    (hl : EndsLine ts) (hne : ts ≠ []) (us : List Token) :
    startsWith mark (ts ++ us) = startsWith mark ts := by
  rw [Bool.eq_iff_iff]
  refine ⟨fun h ↦ ?_, fun h ↦ startsWith_append h us⟩
  rw [startsWith_iff, List.map_append] at h
  rw [startsWith_iff]
  -- a mark that reached past `ts` would hold the newline that ends it
  rcases List.prefix_or_prefix_of_prefix h (List.prefix_append _ _) with h' | h'
  · exact h'
  · obtain ⟨t, ht, hk⟩ := hl.exists_newline hne
    exact absurd (h'.subset (hk ▸ List.mem_map_of_mem ht)) hm

theorem drop_append_of_startsWith {mark : List Kind} {ts : List Token} (h : startsWith mark ts)
    (us : List Token) : (ts ++ us).drop mark.length = ts.drop mark.length ++ us := by
  refine List.drop_append_of_le_length ?_
  have hlen := (startsWith_iff.1 h).length_le
  rwa [List.length_map] at hlen

theorem drop_cons_append_of_startsWith {mark : List Kind} {t : Token} {ts : List Token}
    (h : startsWith mark (t :: ts)) (us : List Token) :
    (t :: (ts ++ us)).drop mark.length = (t :: ts).drop mark.length ++ us :=
  drop_append_of_startsWith h us

theorem upTo_append (ctx : Context) (mark : List Kind) {ts : List Token}
    (hm : .newline ∉ mark) (hl : EndsLine ts) (hne : ts ≠ []) (us : List Token) :
    upTo ctx mark (ts ++ us) = (upTo ctx mark ts).map fun p ↦ (p.1, p.2 ++ us) := by
  induction ts with
  | nil => exact absurd rfl hne
  | cons t ts ih =>
    have hs := startsWith_append_eq mark hm hl hne us
    rw [List.cons_append] at hs ⊢
    rw [upTo, upTo, hs]
    split
    · next h =>
      rw [drop_cons_append_of_startsWith h]
      rfl
    · split
      · rfl
      · next he =>
        have ht : t.kind ≠ .newline := Context.ne_newline_of_endsAt (by simpa using he)
        rw [ih hl.tail (hl.ne_nil ht)]
        cases upTo ctx mark ts <;> rfl

theorem upToFence_append {ts body rest : List Token} (hl : EndsLine ts)
    (h : upToFence ts = .ok (body, rest)) (us : List Token) :
    upToFence (ts ++ us) = .ok (body, rest ++ us) := by
  induction ts generalizing body with
  | nil => simp [upToFence] at h
  | cons t ts ih =>
    have hs := startsWith_append_eq fence (by decide) hl (by simp) us
    rw [List.cons_append] at hs ⊢
    rw [upToFence, hs]
    rw [upToFence] at h
    split at h
    · next hf =>
      obtain ⟨rfl, rfl⟩ := Prod.mk.inj (Except.ok.inj h)
      rw [if_pos hf, drop_cons_append_of_startsWith hf]
    · next hf =>
      obtain ⟨⟨body, r⟩, hp, h⟩ := map_eq_ok_iff.1 h
      obtain ⟨rfl, rfl⟩ := Prod.mk.inj h
      rw [if_neg hf, ih hl.tail hp]
      rfl

theorem enclosed_append (d : Delimiter) (depth : Nat) {ts : List Token} (hl : EndsLine ts)
    (hne : ts ≠ []) (us : List Token) :
    enclosed d depth (ts ++ us) = extend us (enclosed d depth ts) := by
  induction ts generalizing depth with
  | nil => exact absurd rfl hne
  | cons t ts ih =>
    simp only [List.cons_append, enclosed]
    split
    · rfl
    · next hn =>
      have hih : ∀ depth', (enclosed d depth' (ts ++ us)).map (fun p ↦ (t :: p.1, p.2)) =
          extend us ((enclosed d depth' ts).map fun p ↦ (t :: p.1, p.2)) := by
        intro depth'
        rw [extend_map, ih depth' hl.tail (hl.ne_nil hn)]
      split
      · split
        · rfl
        · exact hih _
      · exact hih _

theorem span_append {p : Token → Bool} {ts : List Token} (h : ∃ t ∈ ts, p t = false)
    (us : List Token) :
    (ts ++ us).takeWhile p = ts.takeWhile p ∧ (ts ++ us).dropWhile p = ts.dropWhile p ++ us ∧
      ts.dropWhile p ≠ [] := by
  induction ts with
  | nil => simp at h
  | cons t ts ih =>
    by_cases ht : p t
    · obtain ⟨u, hu, hpu⟩ := h
      have hmem : u ∈ ts := by
        rcases List.mem_cons.1 hu with rfl | hu
        · rw [ht] at hpu
          cases hpu
        · exact hu
      simpa [ht] using ih ⟨u, hmem, hpu⟩
    · simp [ht]

theorem readTitle_append {level : Nat} {ts : List Token} (hl : EndsLine ts) (hne : ts ≠ [])
    (us : List Token) :
    readTitle level (ts ++ us) = ((readTitle level ts).1, (readTitle level ts).2 ++ us) := by
  obtain ⟨t, ht, hk⟩ := hl.exists_newline hne
  obtain ⟨htake, hdrop, hne'⟩ := span_append (p := (·.kind == .hashtag)) ⟨t, ht, by simp [hk]⟩ us
  unfold readTitle
  rw [htake, hdrop]
  obtain ⟨u, rest, hu⟩ := List.exists_cons_of_ne_nil hne'
  obtain ⟨k, v⟩ := u
  rw [hu]
  cases k <;> rfl

/-- Whether a list begins with a token of this kind. -/
theorem head_cases (k : Kind) (ts : List Token) :
    (∃ v rest, ts = ⟨k, v⟩ :: rest) ∨ ∀ t ∈ ts.head?, t.kind ≠ k := by
  rcases ts with _ | ⟨⟨k', v⟩, rest⟩
  · exact .inr (by simp)
  · by_cases hk : k' = k
    · subst hk
      exact .inl ⟨v, rest, rfl⟩
    · refine .inr fun t ht ↦ ?_
      obtain rfl := Option.some.inj ht
      exact hk

theorem readHeading_of_head {ts : List Token} (h : ∀ t ∈ ts.head?, t.kind ≠ .hashtag) :
    readHeading ts = readTitle 1 ts := by
  unfold readHeading
  split
  · exact absurd rfl (h _ rfl)
  · rfl

theorem readHeading_append {ts : List Token} (hl : EndsLine ts) (hne : ts ≠ [])
    (us : List Token) :
    readHeading (ts ++ us) = ((readHeading ts).1, (readHeading ts).2 ++ us) := by
  rcases head_cases .hashtag ts with ⟨v, ts, rfl⟩ | h
  · exact readTitle_append hl.tail (hl.ne_nil (by simp)) us
  · have h' : ∀ t ∈ (ts ++ us).head?, t.kind ≠ .hashtag := by
      rwa [List.head?_append_of_ne_nil ts hne]
    rw [readHeading_of_head h, readHeading_of_head h']
    exact readTitle_append hl hne us

theorem readEmphasis_star (ctx : Context) (v : String) (ts : List Token) :
    readEmphasis ctx (⟨.star, v⟩ :: ts) =
      (upTo ctx [.star, .star] ts).elim (.text "**", ts)
        fun p ↦ (.bold (Token.spell p.1), p.2) := by
  rw [readEmphasis]
  cases upTo ctx [.star, .star] ts <;> rfl

theorem readEmphasis_of_head (ctx : Context) {ts : List Token}
    (h : ∀ t ∈ ts.head?, t.kind ≠ .star) :
    readEmphasis ctx ts =
      (upTo ctx [.star] ts).elim (.text "*", ts) fun p ↦ (.italic (Token.spell p.1), p.2) := by
  unfold readEmphasis
  split
  · exact absurd rfl (h _ rfl)
  · cases upTo ctx [.star] ts <;> rfl

theorem readEmphasis_append {ctx : Context} {ts : List Token} (hl : EndsLine ts) (hne : ts ≠ [])
    (us : List Token) :
    readEmphasis ctx (ts ++ us) = ((readEmphasis ctx ts).1, (readEmphasis ctx ts).2 ++ us) := by
  rcases head_cases .star ts with ⟨v, ts, rfl⟩ | h
  · rw [List.cons_append, readEmphasis_star, readEmphasis_star,
      upTo_append ctx [.star, .star] (by decide) hl.tail (hl.ne_nil (by simp))]
    cases upTo ctx [.star, .star] ts <;> rfl
  · have h' : ∀ t ∈ (ts ++ us).head?, t.kind ≠ .star := by
      rwa [List.head?_append_of_ne_nil ts hne]
    rw [readEmphasis_of_head ctx h, readEmphasis_of_head ctx h',
      upTo_append ctx [.star] (by decide) hl hne]
    cases upTo ctx [.star] ts <;> rfl

theorem readCode_append {ctx : Context} {t : Token} {ts : List Token} (ht : t.kind ≠ .newline)
    (hl : EndsLine (t :: ts)) (hk : Known (readCode ctx (t :: ts))) (us : List Token) :
    readCode ctx (t :: ts ++ us) = extend us (readCode ctx (t :: ts)) := by
  unfold readCode at hk ⊢
  rw [startsWith_append_eq fence (by decide) hl (by simp)]
  split
  · next hs =>
    rw [if_pos hs] at hk
    rw [drop_append_of_startsWith hs]
    cases h : upToFence ((t :: ts).drop fence.length) with
    | error f =>
      obtain rfl : f = .missing .backtick [] := upToFence_error h
      exact absurd rfl (hk.of_map _ h)
    | ok p =>
      rw [upToFence_append (hl.of_suffix (List.drop_suffix ..)) h]
      rfl
  · rw [List.cons_append, List.tail_cons, List.tail_cons,
      upTo_append ctx [.backtick] (by decide) hl.tail (hl.ne_nil ht)]
    rcases upTo ctx [.backtick] ts with _ | ⟨body, rest⟩ <;> rfl

theorem readLinkParts_append {ts : List Token} (hl : EndsLine ts) (hne : ts ≠ [])
    (us : List Token) : readLinkParts (ts ++ us) = extend us (readLinkParts ts) := by
  unfold readLinkParts
  rw [enclosed_append .bracket 0 hl hne]
  cases h : enclosed .bracket 0 ts with
  | error f => rfl
  | ok p =>
    obtain ⟨label, rest⟩ := p
    obtain ⟨b, hb, -, rfl⟩ := enclosed_spans h
    have hl' := hl.of_suffix (List.suffix_append ..)
    have hrest : rest ≠ [] := hl'.ne_nil (by rw [hb]; decide)
    obtain ⟨⟨k, v⟩, rest, rfl⟩ := List.exists_cons_of_ne_nil hrest
    by_cases hk : k = .parenOpen
    · subst hk
      have hr := enclosed_append .paren 0 hl'.tail.tail
        (hl'.tail.ne_nil (by simp)) us
      simp only [extend, List.cons_append, bind, Except.bind, hr]
      rcases enclosed .paren 0 rest with f | ⟨address, rest⟩ <;> rfl
    · simp only [extend, List.cons_append, bind, Except.bind]
      cases k <;> first | rfl | exact absurd rfl hk

theorem readBangText_append (ctx : Context) {ts : List Token} (hne : ts ≠ [])
    (us : List Token) :
    readBangText ctx (ts ++ us) = ((readBangText ctx ts).1, (readBangText ctx ts).2 ++ us) := by
  obtain ⟨t, ts, rfl⟩ := List.exists_cons_of_ne_nil hne
  simp only [List.cons_append, readBangText]
  split <;> rfl

theorem readImage_bracket (ctx : Context) (v : String) (ts : List Token) :
    readImage ctx (⟨.bracketOpen, v⟩ :: ts) =
      match readLinkParts ts with
      | .ok (parts, rest) => (.image parts.1 parts.2, rest)
      | .error _ => readBangText ctx (⟨.bracketOpen, v⟩ :: ts) := by
  rw [readImage]
  rcases readLinkParts ts with f | ⟨⟨alt, source⟩, rest⟩ <;> rfl

theorem readImage_of_head (ctx : Context) {ts : List Token}
    (h : ∀ t ∈ ts.head?, t.kind ≠ .bracketOpen) : readImage ctx ts = readBangText ctx ts := by
  unfold readImage
  split
  · exact absurd rfl (h _ rfl)
  · rfl

theorem readImage_append {ctx : Context} {ts : List Token} (hl : EndsLine ts) (hne : ts ≠ [])
    (us : List Token) :
    readImage ctx (ts ++ us) = ((readImage ctx ts).1, (readImage ctx ts).2 ++ us) := by
  have hbang := readBangText_append ctx hne us
  rcases head_cases .bracketOpen ts with ⟨v, ts, rfl⟩ | h
  · rw [List.cons_append] at hbang
    rw [List.cons_append, readImage_bracket, readImage_bracket,
      readLinkParts_append hl.tail (hl.ne_nil (by simp)), hbang]
    rcases readLinkParts ts with f | ⟨parts, rest⟩ <;> rfl
  · have h' : ∀ t ∈ (ts ++ us).head?, t.kind ≠ .bracketOpen := by
      rwa [List.head?_append_of_ne_nil ts hne]
    rw [readImage_of_head ctx h, readImage_of_head ctx h']
    exact hbang

theorem readInline_append {ctx : Context} {t : Token} {ts : List Token}
    (ht : ctx.endsAt t.kind = false) (hl : EndsLine (t :: ts))
    (hk : Known (readInline ctx t ts)) (us : List Token) :
    readInline ctx t (ts ++ us) = extend us (readInline ctx t ts) := by
  have hn := Context.ne_newline_of_endsAt ht
  have hne := hl.ne_nil hn
  unfold readInline at hk ⊢
  split
  · rw [readHeading_append hl.tail hne]
    rfl
  · rw [readEmphasis_append hl.tail hne]
    rfl
  · next hkind =>
    simp only [hkind] at hk
    exact readCode_append hn hl hk us
  · rw [readLinkParts_append hl.tail hne]
    rcases readLinkParts ts with f | ⟨⟨label, address⟩, rest⟩ <;> rfl
  · obtain ⟨⟨k, v⟩, ts, rfl⟩ := List.exists_cons_of_ne_nil hne
    by_cases ho : k = .bracketOpen
    · subst ho
      have hts := readLinkParts_append hl.tail.tail (hl.tail.ne_nil (by simp)) us
      simp only [List.cons_append, hts]
      rcases readLinkParts ts with f | ⟨⟨label, address⟩, rest⟩ <;> rfl
    · cases k <;> first | rfl | exact absurd rfl ho
  · rw [readImage_append hl.tail hne]
    rfl
  · rfl

/-- A run that begins before the end of a line does not reach past it. -/
theorem readRun_rest_ne_nil {ctx : Context} {run run' : Run} {ts rest : List Token}
    (hl : EndsLine ts) (hne : ts ≠ []) (h : readRun ctx run ts = .ok (run', rest)) :
    rest ≠ [] := by
  fun_induction readRun ctx run ts with
  | case1 => exact absurd rfl hne
  | case2 run t ts ht =>
    obtain ⟨-, rfl⟩ := Prod.mk.inj (Except.ok.inj h)
    simp
  | case3 => simp at h
  | case4 run t ts ht n r hn ih =>
    obtain ⟨span, hspan, hs⟩ := readInline_spans (by simpa using ht) hn
    rw [hspan] at hl
    exact ih (hl.of_suffix (List.suffix_append ..)) (hs.rest_ne_nil hl) h

theorem readRun_append {ctx : Context} {run : Run} {ts : List Token} (hl : EndsLine ts)
    (hne : ts ≠ []) (hk : Known (readRun ctx run ts)) (us : List Token) :
    readRun ctx run (ts ++ us) = extend us (readRun ctx run ts) := by
  fun_induction readRun ctx run ts with
  | case1 => exact absurd rfl hne
  | case2 run t ts ht =>
    rw [List.cons_append, readRun_cons, if_pos ht]
    rfl
  | case3 run t ts ht f hn =>
    have hi := readInline_append (by simpa using ht) hl
      (by rw [hn]; exact known_error.2 (known_error.1 hk)) us
    rw [List.cons_append, readRun_cons, if_neg ht, hi, hn]
    rfl
  | case4 run t ts ht n r hn ih =>
    have ht' : ctx.endsAt t.kind = false := by simpa using ht
    have hi := readInline_append ht' hl (by rw [hn]; exact known_ok) us
    -- the node stays before the end of the line, so there is something left to read
    obtain ⟨span, hspan, hs⟩ := readInline_spans ht' hn
    rw [hspan] at hl
    rw [List.cons_append, readRun_cons, if_neg ht, hi, hn]
    exact ih (hl.of_suffix (List.suffix_append ..)) (hs.rest_ne_nil hl) hk

theorem dropNewline_append {ts : List Token} (hne : ts ≠ []) (us : List Token) :
    dropNewline (ts ++ us) = dropNewline ts ++ us := by
  obtain ⟨⟨k, v⟩, ts, rfl⟩ := List.exists_cons_of_ne_nil hne
  cases k <;> rfl

/-- Lines that are read alike whatever follows the end of the last of them. -/
structure LineReader.Local {α : Type} (r : LineReader α) : Prop where
  mark_ne : r.mark ≠ .newline
  rest_ne_nil {ts rest : List Token} {a : α} : EndsLine ts → ts ≠ [] →
    r.read ts = .ok (a, rest) → rest ≠ []
  append {ts : List Token} : EndsLine ts → ts ≠ [] → Known (r.read ts) →
    ∀ us, r.read (ts ++ us) = extend us (r.read ts)

theorem LineReader.Local.lines_append {α : Type} {r : LineReader α} (h : r.Local)
    {ts us : List Token} (hl : EndsLine ts) (hu : ∀ t ∈ us.head?, t.kind ≠ r.mark)
    (hk : Known (r.lines ts)) : r.lines (ts ++ us) = extend us (r.lines ts) := by
  fun_induction lines r ts with
  | case1 => exact lines_of_head hu
  | case2 t ts ht f hr =>
    have hts := h.append hl.tail (hl.ne_nil (ht ▸ h.mark_ne))
      (by rw [hr]; exact known_error.2 (known_error.1 hk)) us
    rw [List.cons_append, lines_mark ht, hts, hr]
    rfl
  | case3 t ts ht a rest hr ih =>
    have hne := hl.ne_nil (ht ▸ h.mark_ne)
    have hts := h.append hl.tail hne (by rw [hr]; exact known_ok) us
    have hrest := (dropNewline_suffix rest).trans (r.read_suffix hr)
    rw [List.cons_append, lines_mark ht, hts, hr, extend_map,
      ← ih (hl.tail.of_suffix hrest) hk.of_map,
      ← dropNewline_append (h.rest_ne_nil hl.tail hne hr)]
    rfl
  | case4 t ts ht =>
    rw [lines_of_head]
    · rfl
    · rintro t ⟨⟩
      exact ht

theorem itemLines_local : itemLines.Local where
  mark_ne := by decide
  rest_ne_nil hl hne h := by
    obtain ⟨p, hp, h⟩ := map_eq_ok_iff.1 h
    obtain ⟨-, rfl⟩ := Prod.mk.inj h
    exact readRun_rest_ne_nil hl hne hp
  append hl hne hk us :=
    (congrArg _ (readRun_append hl hne hk.of_map us)).trans (extend_map us Run.trim _).symm

theorem readCells_rest_ne_nil {ts rest : List Token} {cells : List Run} (hl : EndsLine ts)
    (hne : ts ≠ []) (h : readCells ts = .ok (cells, rest)) : rest ≠ [] := by
  fun_induction readCells ts generalizing cells with
  | case1 => simp at h
  | case2 ts run v r hr =>
    obtain ⟨-, rfl⟩ := Prod.mk.inj (Except.ok.inj h)
    exact (hl.of_suffix (readRun_suffix hr)).ne_nil (by simp)
  | case3 ts run v r hr _ ih =>
    obtain ⟨⟨cells', r'⟩, hp, h⟩ := map_eq_ok_iff.1 h
    obtain ⟨-, rfl⟩ := Prod.mk.inj h
    have hl' := hl.of_suffix (readRun_suffix hr)
    exact ih hl'.tail (hl'.ne_nil (by simp)) hp
  | case4 ts run r _ hr =>
    obtain ⟨-, rfl⟩ := Prod.mk.inj (Except.ok.inj h)
    exact readRun_rest_ne_nil hl hne hr

theorem readCells_append {ts : List Token} (hl : EndsLine ts) (hne : ts ≠ [])
    (hk : Known (readCells ts)) (us : List Token) :
    readCells (ts ++ us) = extend us (readCells ts) := by
  fun_induction readCells ts with
  | case1 ts f hr =>
    have hts := readRun_append hl hne (by rw [hr]; exact known_error.2 (known_error.1 hk)) us
    rw [readCells_eq, hts, hr]
    rfl
  | case2 ts run v r hr hend =>
    have hts := readRun_append hl hne (by rw [hr]; exact known_ok) us
    have hr' : r ≠ [] := (hl.of_suffix (readRun_suffix hr)).ne_nil (by simp)
    have hhead : (r ++ us).head? = r.head? := List.head?_append_of_ne_nil r hr'
    rw [readCells_eq, hts, hr]
    simp only [extend, List.cons_append, bind, Except.bind, hhead, hend, if_true]
  | case3 ts run v r hr hend ih =>
    have hts := readRun_append hl hne (by rw [hr]; exact known_ok) us
    have hl' := hl.of_suffix (readRun_suffix hr)
    have hr' : r ≠ [] := hl'.ne_nil (by simp)
    have hhead : (r ++ us).head? = r.head? := List.head?_append_of_ne_nil r hr'
    rw [readCells_eq, hts, hr, extend_map, ← ih hl'.tail hr' hk.of_map]
    simp only [extend, List.cons_append, bind, Except.bind, hhead, hend]
    rfl
  | case4 ts run r hpipe hr =>
    have hts := readRun_append hl hne (by rw [hr]; exact known_ok) us
    have hr' := readRun_rest_ne_nil hl hne hr
    obtain ⟨⟨k, v⟩, r, rfl⟩ := List.exists_cons_of_ne_nil hr'
    rw [readCells_eq, hts, hr]
    cases k <;> first | rfl | exact (hpipe _ _ rfl).elim

theorem rowLines_local : rowLines.Local where
  mark_ne := by decide
  rest_ne_nil := readCells_rest_ne_nil
  append := readCells_append

theorem readLeaf_append {t : Token} {ts us : List Token} (hl : EndsLine (t :: ts))
    (hu : ∀ u ∈ us.head?, u.kind ≠ .dash ∧ u.kind ≠ .pipe) (hk : Known (readLeaf (t :: ts))) :
    readLeaf (t :: ts ++ us) = extend us (readLeaf (t :: ts)) := by
  by_cases hd : t.kind = .dash
  · obtain ⟨k, v⟩ := t
    subst hd
    have hi := itemLines_local.lines_append hl (fun u hu' ↦ (hu u hu').1) hk.of_map
    exact (congrArg (Except.map _) hi).trans (extend_map us (some ∘ Block.list) _).symm
  · by_cases hp : t.kind = .pipe
    · obtain ⟨k, v⟩ := t
      subst hp
      have hr := rowLines_local.lines_append hl (fun u hu' ↦ (hu u hu').2) hk.of_map.of_map
      have hrows := (congrArg (Except.map _) hr).trans
        (extend_map us (List.filter (!·.isEmpty)) _).symm
      exact (congrArg (Except.map _) hrows).trans
        (extend_map us (fun rows ↦ if rows.isEmpty then none else some (Block.table rows)) _).symm
    · rw [readLeaf_of_other hd hp] at hk ⊢
      rw [List.cons_append, readLeaf_of_other hd hp, ← List.cons_append]
      have hr := readRun_append hl (by simp) hk.of_map us
      unfold readParagraph
      rw [hr]
      cases h : readRun .line [] (t :: ts) with
      | error f => rfl
      | ok p =>
        obtain ⟨run, rest⟩ := p
        have hd := dropNewline_append (readRun_rest_ne_nil hl (by simp) h) us
        simp only [extend, Except.map, hd]

/-- A document of a single block, or of none where its only line shows nothing. -/
theorem readAll_of_readLeaf {t : Token} {ts : List Token} {b : Option Block}
    (ho : t.kind ≠ .braceOpen) (hc : t.kind ≠ .braceClose) (h : readLeaf (t :: ts) = .ok (b, [])) :
    readAll (t :: ts) = .ok b.toList := by
  rw [readAll_eq, Outline.run_cons, if_neg (by simp), step_of_leaf ho hc, h]
  have hend : Outline.run (fun _ ↦ false) ⟨[], b.toList ++ []⟩ [] =
      .ok (⟨[], b.toList ++ []⟩, []) := by
    rw [Outline.run]
    rfl
  have hmap : (Outline.run (fun _ ↦ false) ⟨[], b.toList ++ []⟩ []).map
      (fun p ↦ p.1.blocks.reverse) = .ok b.toList := by
    rw [hend]
    cases b <;> rfl
  exact hmap

def Outline.extend (us : List Token) (o : Outline) : Outline :=
  ⟨o.opened.map fun s ↦ ⟨s.opening ++ us, s.before⟩, o.blocks⟩

theorem step_append {o : Outline} {t : Token} {ts us : List Token} (hl : EndsLine (t :: ts))
    (hu : ∀ u ∈ us.head?, u.kind ≠ .dash ∧ u.kind ≠ .pipe) (hk : Known (o.step t ts)) :
    (o.extend us).step t (ts ++ us) =
      extend us ((o.step t ts).map fun p ↦ (p.1.extend us, p.2)) := by
  unfold Outline.step
  split
  · rfl
  · obtain ⟨opened, blocks⟩ := o
    cases opened <;> rfl
  · next hopen hclose =>
    rw [step_of_leaf hopen hclose] at hk
    rw [← List.cons_append, readLeaf_append hl hu hk.of_map]
    rcases readLeaf (t :: ts) with f | ⟨b, rest⟩ <;> rfl

theorem run_append {o : Outline} {ts us : List Token} (hl : EndsLine ts)
    (hu : ∀ u ∈ us.head?, u.kind ≠ .dash ∧ u.kind ≠ .pipe)
    (hk : Known (o.run (fun _ ↦ false) ts)) :
    (o.extend us).run (fun _ ↦ false) (ts ++ us) =
      extend us (o.run (fun _ ↦ false) ts) >>= fun p ↦ p.1.run (fun _ ↦ false) p.2 := by
  fun_induction Outline.run (fun _ ↦ false) o ts with
  | case1 o ts hs => simp at hs
  | case2 o hs ho =>
    have hext : o.extend us = o := by
      obtain ⟨opened, blocks⟩ := o
      obtain rfl : opened = [] := ho
      rfl
    rw [hext]
    rfl
  | case3 o hs s outer ho => exact absurd rfl (known_error.1 hk)
  | case4 o hs t ts f hf =>
    have hts := step_append hl hu (by rw [hf]; exact known_error.2 (known_error.1 hk))
    rw [List.cons_append, Outline.run_cons, if_neg (by simp), hts, hf]
    rfl
  | case5 o hs t ts o' r hn ih =>
    have hts := step_append hl hu (by rw [hn]; exact known_ok)
    rw [List.cons_append, Outline.run_cons, if_neg (by simp), hts, hn]
    exact ih (hl.tail.of_suffix (Outline.step_suffix hn)) hk

end Folio.Markup
