import Folio.Proofs.Markup.OpenFence
import Folio.Proofs.Markup.Seam
import Folio.Proofs.Markup.Spelling

namespace Folio.Markup

def Outline.inside (s : OpenSegment) (o : Outline) : Outline :=
  ⟨o.opened ++ [s], o.blocks⟩

/-- A step that does not close the segment around goes as it goes without it. -/
theorem step_inside (s : OpenSegment) {o : Outline} {t : Token}
    (h : t.kind = .braceClose → o.opened ≠ []) (ts : List Token) :
    (o.inside s).step t ts = (o.step t ts).map fun p ↦ (p.1.inside s, p.2) := by
  obtain ⟨opened, blocks⟩ := o
  unfold Outline.step
  split
  · rfl
  · next hk =>
    cases opened with
    | nil => exact absurd rfl (h hk)
    | cons s' outer => rfl
  · rcases readLeaf (t :: ts) with f | ⟨b, rest⟩ <;> rfl

theorem opened_ne_nil_of_step {o o' : Outline} {t : Token} {ts rest : List Token}
    (h : o.step t ts = .ok (o', rest)) (ht : t.kind = .braceClose) : o.opened ≠ [] := by
  intro hnil
  simp [Outline.step, ht, hnil] at h

def openingLine : List Token :=
  [⟨.braceOpen, "\x7b"⟩, ⟨.newline, "\n"⟩]

def closingLine : List Token :=
  [⟨.braceClose, "\x7d"⟩, ⟨.newline, "\n"⟩]

def Closing (us : List Token) : Prop :=
  us = closingLine ∨ us = lex "\n" ++ closingLine

theorem lex_wrapped (a : String) : ∃ us, Closing us ∧
    lex ("\x7b\n" ++ a ++ "\n\x7d\n") = openingLine ++ (lex a ++ us) := by
  have hopen : tokenize ("\x7b" ++ "\n") = openingLine := by decide +kernel
  have hclose : lex "\x7d\n" = closingLine := by decide +kernel
  have htext : "\x7b\n" ++ a ++ "\n\x7d\n" = "\x7b" ++ "\n" ++ a ++ "\n" ++ "\x7d\n" := by
    simp [String.append_assoc]
  have hassoc : "\x7b" ++ "\n" ++ a ++ "\n" = "\x7b" ++ "\n" ++ (a ++ "\n") :=
    String.append_assoc
  have hlines : lex ("\x7b\n" ++ a ++ "\n\x7d\n") =
      openingLine ++ (tokenize (a ++ "\n") ++ closingLine) := by
    rw [htext, lex_append_line, hassoc, tokenize_append_line, hopen, hclose, List.append_assoc]
  rcases tokenize_line a with h | h
  · exact ⟨closingLine, .inl rfl, by rw [hlines, h]⟩
  · exact ⟨lex "\n" ++ closingLine, .inr rfl, by rw [hlines, h, List.append_assoc]⟩

theorem Closing.head {us : List Token} (h : Closing us) :
    ∀ u ∈ us.head?, u.kind ≠ .dash ∧ u.kind ≠ .pipe := by
  rcases h with rfl | rfl
  · simp [closingLine]
  · simp [lex_newline]

theorem Closing.unfenced {us : List Token} (h : Closing us) : Unfenced us := by
  rcases h with rfl | rfl
  · simp [Unfenced, closingLine]
  · simp [Unfenced, lex_newline, closingLine]

theorem Closing.run_eq {us : List Token} (h : Closing us) {o : Outline} {s : OpenSegment}
    {outer : List OpenSegment} (ho : o.opened = s :: outer) :
    o.run (fun _ ↦ false) us = Outline.run (fun _ ↦ false)
      ⟨outer, .segment o.blocks.reverse :: s.before⟩ [] := by
  have hclose : o.run (fun _ ↦ false) closingLine = Outline.run (fun _ ↦ false)
      ⟨outer, .segment o.blocks.reverse :: s.before⟩ [] := by
    have hstep : ∀ v ts, o.step ⟨.braceClose, v⟩ ts =
        .ok (⟨outer, .segment o.blocks.reverse :: s.before⟩, ts) := by
      intro v ts
      simp [Outline.step, ho]
    rw [closingLine, Outline.run_cons, if_neg (by simp), hstep]
    simp only [bind, Except.bind]
    rw [Outline.run_cons, if_neg (by simp), step_newline]
    rfl
  rcases h with rfl | rfl
  · exact hclose
  · rw [lex_newline, List.singleton_append, Outline.run_cons, if_neg (by simp), step_newline]
    exact hclose

/-- Reading `ts` between the lines of a segment has come to the outline and the rest that reading
`ts` by itself comes to, inside the segment `s`. -/
structure Within (s : OpenSegment) (ts us : List Token) (o : Outline) (rest : List Token) :
    Prop where
  suffix : rest <:+ ts
  run_eq : Outline.start.run (fun _ ↦ false) (openingLine ++ (ts ++ us)) =
    ((o.inside s).extend us).run (fun _ ↦ false) (rest ++ us)

theorem Within.start (ts us : List Token) :
    Within ⟨openingLine ++ ts, []⟩ ts us .start ts := by
  refine ⟨List.suffix_refl ts, ?_⟩
  have hopen : Outline.start.step ⟨.braceOpen, "\x7b"⟩ (⟨.newline, "\n"⟩ :: (ts ++ us)) =
      .ok ((Outline.start.inside ⟨openingLine ++ ts, []⟩).extend us,
        ⟨.newline, "\n"⟩ :: (ts ++ us)) := rfl
  rw [openingLine, List.cons_append, List.singleton_append, Outline.run_cons, if_neg (by simp),
    hopen]
  simp only [bind, Except.bind]
  rw [Outline.run_cons, if_neg (by simp), step_newline]
  rfl

section

variable {s : OpenSegment} {ts us : List Token}

theorem step_inside_append {o : Outline} {t : Token} {rest : List Token}
    (hl : EndsLine (t :: rest)) (hus : Closing us) (ht : t.kind = .braceClose → o.opened ≠ [])
    (hk : Known (o.step t rest)) :
    ((o.inside s).extend us).step t (rest ++ us) =
      extend us ((o.step t rest).map fun p ↦ ((p.1.inside s).extend us, p.2)) := by
  have hinside := step_inside s ht rest
  have hk' : Known ((o.inside s).step t rest) := by
    rw [hinside]
    intro f hf
    exact hk f (map_eq_error_iff.1 hf)
  rw [step_append hl hus.head hk', hinside]
  rcases o.step t rest with f | p <;> rfl

theorem Within.step (hl : EndsLine ts) (hus : Closing us) {o o' : Outline} {t : Token}
    {rest rest' : List Token} (h : Within s ts us o (t :: rest))
    (hn : o.step t rest = .ok (o', rest')) : Within s ts us o' rest' := by
  have hs := (Outline.step_suffix hn).trans ((List.suffix_cons ..).trans h.suffix)
  refine ⟨hs, ?_⟩
  rw [h.run_eq, List.cons_append, Outline.run_cons, if_neg (by simp),
    step_inside_append (hl.of_suffix h.suffix) hus (opened_ne_nil_of_step hn)
      (by rw [hn]; exact known_ok), hn]
  rfl

end

theorem readAll_wrapped {ts us : List Token} {bs : List Block} (hl : EndsLine ts)
    (hus : Closing us) (h : readAll ts = .ok bs) :
    readAll (openingLine ++ (ts ++ us)) = .ok [.segment bs] := by
  obtain ⟨o, rest, hrun, rfl⟩ := readAll_eq_ok_iff.1 h
  obtain ⟨ho, rfl⟩ := Outline.run_to_end hrun
  have hwithin := Outline.run_ok_invariant (fun h hn ↦ h.step hl hus hn) (Within.start ts us) hrun
  have hopened : ((o.inside ⟨openingLine ++ ts, []⟩).extend us).opened =
      [⟨openingLine ++ ts ++ us, []⟩] := by
    simp [Outline.inside, Outline.extend, ho]
  rw [readAll_eq, hwithin.run_eq, List.nil_append, hus.run_eq hopened, Outline.run]
  rfl

/-- What becomes of a failure when its tokens stand between the lines of a segment. -/
inductive WrappedFault (ts us : List Token) : Failure → Except Failure (List Block) → Prop
  | line {k : Kind} {rest : List Token} :
      rest ≠ [] → WrappedFault ts us (.missing k rest) (.error (.missing k (rest ++ us)))
  | fence : WrappedFault ts us .openFence (.error .openFence)
  | unclosed {rest : List Token} {f : Failure} : WrappedFault ts us (.unclosed rest) (.error f)
  | unopened {b : Token} {rest : List Token} {bs : List Block} :
      b.kind = .braceClose → b :: rest <:+ ts →
      WrappedFault ts us (.unopened (b :: rest)) ((readAll (rest ++ us)).map (.segment bs :: ·))

theorem Fails.exists_missing {ts : List Token} {f : Failure} (h : Fails ts f) :
    ∃ k rest, f = .missing k rest := by
  obtain ⟨before, -, he⟩ := h
  cases he <;> exact ⟨_, _, rfl⟩

theorem step_fails {o : Outline} {t : Token} {ts : List Token} {f : Failure}
    (ht : t.kind = .braceClose → o.opened ≠ []) (h : o.step t ts = .error f) :
    Fails (t :: ts) f := by
  unfold Outline.step at h
  split at h
  · cases h
  · next hk =>
    split at h
    · next hnil => exact absurd hnil (ht hk)
    · cases h
  · exact readLeaf_error (map_eq_error_iff.1 h)

theorem readAll_wrapped_error {ts us : List Token} {f : Failure} (hl : EndsLine ts)
    (hus : Closing us) (h : readAll ts = .error f) :
    WrappedFault ts us f (readAll (openingLine ++ (ts ++ us))) := by
  rcases Outline.run_error_invariant (fun h hn ↦ h.step hl hus hn) (Within.start ts us)
    (readAll_eq_error_iff.1 h) with ⟨o, t, rest, hwithin, hf⟩ | ⟨o, s, outer, hwithin, ho, rfl⟩
  · have hl' := hl.of_suffix hwithin.suffix
    by_cases ht : t.kind = .braceClose → o.opened ≠ []
    · have hfails := step_fails ht hf
      by_cases hopen : f.unread = []
      · obtain rfl := hfails.eq_openFence hl' hopen
        have hinside : (o.inside ⟨openingLine ++ ts, []⟩).step t rest = .error .openFence := by
          rw [step_inside _ ht, hf]
          rfl
        rw [readAll_eq, hwithin.run_eq, List.cons_append, Outline.run_cons, if_neg (by simp),
          step_append_error hus.unfenced hl' hinside]
        exact .fence
      · obtain ⟨k, r, rfl⟩ := hfails.exists_missing
        rw [readAll_eq, hwithin.run_eq, List.cons_append, Outline.run_cons, if_neg (by simp),
          step_inside_append hl' hus ht (by rw [hf]; exact known_error.2 hopen), hf]
        exact .line hopen
    · obtain ⟨hk, ho⟩ : t.kind = .braceClose ∧ o.opened = [] := by simpa using ht
      obtain rfl : .unopened (t :: rest) = f := by simpa [Outline.step, hk, ho] using hf
      -- the brace closes the segment around, which then stands above what is left
      have hstep : ((o.inside ⟨openingLine ++ ts, []⟩).extend us).step t (rest ++ us) =
          .ok (Outline.start.below [.segment o.blocks.reverse], rest ++ us) := by
        simp [Outline.step, hk, Outline.inside, Outline.extend, ho, Outline.below, Outline.start,
          placeBelow]
      have hread := readAll_of_below (hwithin.run_eq.trans (by
        rw [List.cons_append, Outline.run_cons, if_neg (by simp), hstep]
        rfl))
      rw [hread]
      exact .unopened hk hwithin.suffix
  · have hopened : ((o.inside ⟨openingLine ++ ts, []⟩).extend us).opened =
        (s :: (outer ++ [⟨openingLine ++ ts, []⟩])).map fun s ↦ ⟨s.opening ++ us, s.before⟩ := by
      simp [Outline.inside, Outline.extend, ho]
    obtain ⟨s', outer', hs'⟩ : ∃ s' outer', outer ++ [⟨openingLine ++ ts, []⟩] = s' :: outer' :=
      List.exists_cons_of_ne_nil (by simp)
    rw [readAll_eq, hwithin.run_eq, List.nil_append, hus.run_eq hopened, hs', Outline.run]
    exact .unclosed

/-- Behind a brace that closes nothing there is ink, so there are blocks. -/
theorem readAll_closing_ne_nil {ts us : List Token} (hf : AllFaithful (ts ++ us))
    (hus : Closing us) : readAll (ts ++ us) ≠ .ok [] := by
  intro h
  have hink : ink (Token.spell (ts ++ us)) = [] := inkAccount.readAll hf h
  have hbrace : '\x7d' ∈ ink (Token.spell us) := by
    rcases hus with rfl | rfl
    · decide +kernel
    · decide +kernel
  rw [Token.spell_append, ink_append] at hink
  rw [(List.append_eq_nil_iff.1 hink).2] at hbrace
  cases hbrace

theorem WrappedFault.ne_segment {ts us : List Token} {f : Failure}
    {r : Except Failure (List Block)} (h : WrappedFault ts us f r) (hf : AllFaithful (ts ++ us))
    (hus : Closing us) (bs : List Block) : r ≠ .ok [.segment bs] := by
  cases h with
  | line => simp
  | fence => simp
  | unclosed => simp
  | @unopened b rest bs' _ hs =>
    intro h
    obtain ⟨cs, hcs, heq⟩ := map_eq_ok_iff.1 h
    obtain rfl : cs = [] := (List.cons.inj heq).2
    have hs' : rest ++ us ⊆ ts ++ us :=
      List.append_subset.2 ⟨List.subset_append_of_subset_left us
        ((List.suffix_cons ..).trans hs).subset, List.subset_append_right ..⟩
    exact readAll_closing_ne_nil (hf.of_subset hs') hus hcs

/-- Between the lines that open and close a segment a text is the document that it is by itself,
and what is wrong in it is wrong there two tokens and one line further on. -/
theorem parse_wrapped (a : String) :
    (∀ d, Document.parse a = .ok d ↔
      Document.parse ("\x7b\n" ++ a ++ "\n\x7d\n") = .ok ⟨[.segment d.blocks]⟩) ∧
    ∀ expected found p l, Document.parse a = .error (.unexpected expected (some found) p l) →
      Document.parse ("\x7b\n" ++ a ++ "\n\x7d\n") =
        .error (.unexpected expected (some found) (p + 2) (l + 1)) := by
  obtain ⟨us, hus, hlex⟩ := lex_wrapped a
  have hl := endsLine_lex a
  refine ⟨fun d ↦ ?_, fun expected found p l h ↦ ?_⟩
  · rw [Document.parse, Document.parse, Document.ofTokens_eq_ok_iff, Document.ofTokens_eq_ok_iff,
      hlex]
    refine ⟨readAll_wrapped hl hus, fun h ↦ ?_⟩
    cases hread : readAll (lex a) with
    | ok bs =>
      rw [readAll_wrapped hl hus hread] at h
      simpa using h
    | error f =>
      have hall : AllFaithful (openingLine ++ (lex a ++ us)) := hlex ▸ allFaithful_lexChars _
      have hf : AllFaithful (lex a ++ us) := hall.of_subset (List.subset_append_right ..)
      exact absurd h ((readAll_wrapped_error hl hus hread).ne_segment hf hus d.blocks)
  · obtain ⟨f, hf, he⟩ := Document.ofTokens_eq_error_iff.1 h
    have hw := readAll_wrapped_error hl hus hf
    generalize hr : readAll (openingLine ++ (lex a ++ us)) = r at hw
    cases hw with
    | @line k rest hne =>
      have hs : rest <:+ lex a := (readAll_error hf).rest_suffix
      have hs' : rest ++ us <:+ lex a ++ us := by
        obtain ⟨pre, hpre⟩ := hs
        exact ⟨pre, by rw [← List.append_assoc, hpre]⟩
      rw [Document.parse, hlex, Document.ofTokens_eq_error_iff]
      refine ⟨_, hr, ?_⟩
      have hinner : (Failure.missing k (rest ++ us)).locate (lex a ++ us) =
          .unexpected expected (some found) p l :=
        (locate_append_left (f := .missing k rest) hne us).trans he
      rw [locate_append_right (f := .missing k (rest ++ us)) hs' openingLine, hinner]
      rfl
    | fence => cases he
    | unclosed => cases he
    | unopened => cases he

theorem parse_wrapped_of_fence :
    Document.parse ("\x7b\n" ++ "- x\n\x60\x60\x60\n\x7d\n\x60\x60\x60" ++ "\n\x7d\n") =
        .ok ⟨[.segment [.list [[.text "x"]], .paragraph [.codeBlock none "\n\x7d\n"]]]⟩ ∧
      Document.parse ("\x7b\n" ++ "\x7b\n[x" ++ "\n\x7d\n") =
        .error (.unexpected .bracketClose (some .newline) 6 3) := by
  refine ⟨((parse_wrapped _).1
    ⟨[.list [[.text "x"]], .paragraph [.codeBlock none "\n\x7d\n"]]⟩).1 ?_,
    (parse_wrapped _).2 _ _ _ _ ?_⟩
  · decide +kernel
  · decide +kernel

end Folio.Markup
