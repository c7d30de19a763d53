import Folio.Proofs.Markup.Leaves
import Folio.Proofs.Markup.Pairs
import Folio.Proofs.Markup.Span

namespace Folio.Markup

/-- Followed by `mark`, the text holds it nowhere but at the end. -/
def UpToFirst (mark w : List Char) : Prop :=
  ∀ u v, w ++ mark = u ++ (mark ++ v) → v = []

theorem UpToFirst.of_append {mark u w : List Char} (h : UpToFirst mark (u ++ w)) :
    UpToFirst mark w := by
  intro u' v hw
  refine h (u ++ u') v ?_
  rw [List.append_assoc, hw, List.append_assoc]

theorem UpToFirst.not_isInfix {mark w : List Char} (h : UpToFirst mark w) (hm : mark ≠ []) :
    ¬ mark <:+: w := by
  rintro ⟨u, v, rfl⟩
  have hnil := h u (v ++ mark) (by simp)
  exact hm (List.append_eq_nil_iff.1 hnil).2

theorem UpToFirst.not_mem {c : Char} {w : List Char} (h : UpToFirst [c] w) : c ∉ w := by
  intro hc
  obtain ⟨u, v, rfl⟩ := List.append_of_mem hc
  exact h.not_isInfix (by simp) ⟨u, v, by simp⟩

/-- With its last character a body would have held a mark of equal characters earlier. -/
theorem UpToFirst.getLast?_ne {c : Char} {n : Nat} {w : List Char}
    (h : UpToFirst (List.replicate n c) w) : w.getLast? ≠ some c := by
  intro hc
  obtain ⟨u, rfl⟩ := List.getLast?_eq_some_iff.1 hc
  have hnil := h u [c] (by simp [← List.replicate_succ, ← List.replicate_succ'])
  simp at hnil

theorem map_kind_lexChars {ms : List Char} {mark : List Kind}
    (h : ms.map Kind.ofChar? = mark.map some) : (lexChars ms).map Token.kind = mark := by
  induction ms generalizing mark with
  | nil =>
    obtain rfl : mark = [] := by simpa using h
    rw [lexChars, List.map_nil]
  | cons c ms ih =>
    cases mark with
    | nil => simp at h
    | cons k mark =>
      obtain ⟨hc, hms⟩ := List.cons.inj h
      rw [lexChars_mark hc, List.map_cons, ih hms]

/-- A body that ends at its first closing mark among the tokens ends at it in the text too. -/
theorem ClosesFirst.upToFirst {mark : List Kind} {body m : List Token}
    (h : ClosesFirst mark body m) (hb : Canonical body) (ms : List Char) (hne : ms ≠ [])
    (hms : ms.map Kind.ofChar? = mark.map some) : UpToFirst ms (Token.spell body).toList := by
  have hkinds := map_kind_lexChars hms
  have hprose : ∀ c ∈ ms, isProse c = false := by
    intro c hc
    obtain ⟨k, -, hk⟩ := List.mem_map.1 (hms ▸ List.mem_map_of_mem hc)
    exact isProse_of_ofChar? hk.symm
  intro u v heq
  have hbody : lexChars ((Token.spell body).toList ++ ms) = body ++ lexChars ms := by
    have hcut := lexChars_append_marks hprose hne (Token.spell body).toList []
    simpa [hb.lexChars_spell, lexChars] using hcut
  rw [heq, lexChars_append_marks hprose hne] at hbody
  refine eq_nil_of_lexChars ?_
  rcases List.append_eq_append_iff.1 hbody with ⟨q, rfl, hq⟩ | ⟨q, -, hq⟩
  · by_cases hnil : q = []
    · simpa [hnil] using hq
    · -- the mark would have stood before the tokens `q` already
      have hfirst := h.first q (List.suffix_append _ q) hnil
      have hprefix : mark <+: (q ++ m).map Token.kind := by
        rw [List.map_append, h.kinds, ← hkinds, ← List.map_append, ← hq, List.map_append]
        exact List.prefix_append _ _
      rw [startsWith_iff.2 hprefix] at hfirst
      cases hfirst
  · have hlen := congrArg List.length hq
    simp only [List.length_append] at hlen
    exact List.length_eq_zero_iff.1 (by omega)

def Inline.strings : Inline → List String
  | text s | bold s | italic s | code s => [s]
  | heading _ title => [title]
  | codeBlock language body => body :: language.toList
  | link label address | view label address => [label, address]
  | image alt source => [alt, source]

def Inline.lineStrings : Inline → List String
  | codeBlock language _ => language.toList
  | n => n.strings

def Inline.cellStrings : Inline → List String
  | text s | bold s | italic s | code s => [s]
  | heading _ title => [title]
  | codeBlock .. | link .. | image .. | view .. => []

/-- The body of the node does not hold what would have closed it. A title is closed by any mark
but the heading marks it begins with, and one of level 1 has none of these. -/
def Inline.EndsFirst : Inline → Prop
  | heading level title =>
    (∀ c ∈ title.toList.dropWhile (· = '#'), Kind.ofChar? c = none) ∧
      (level = 1 → title.toList.head? ≠ some '#')
  | bold s => ¬ ['*', '*'] <:+: s.toList ∧ s.toList.getLast? ≠ some '*'
  | italic s => s ≠ "" ∧ '*' ∉ s.toList
  | code s => '\x60' ∉ s.toList
  | codeBlock language body =>
    (∀ tag ∈ language, tag ≠ "" ∧
      ∀ c ∈ tag.toList, c.isAlphanum ∨ c ∈ ['+', '-', '#', '_', '.']) ∧
      ¬ ['\x60', '\x60', '\x60'] <:+: body.toList ∧ body.toList.getLast? ≠ some '\x60'
  | text _ | link .. | image .. | view .. => True

def Inline.Paired : Inline → Prop
  | link label address | view label address | image label address =>
    Pairs '[' ']' 0 label.toList ∧ Pairs '(' ')' 0 address.toList
  | _ => True

structure Inline.Delimited (ctx : Context) (n : Inline) : Prop where
  no_return : ∀ s ∈ n.strings, '\r' ∉ s.toList
  one_line : ∀ s ∈ n.lineStrings, '\n' ∉ s.toList
  in_cell : ctx = .cell → ∀ s ∈ n.cellStrings, '|' ∉ s.toList
  ends_first : n.EndsFirst
  paired : n.Paired

theorem dropBlank_isInfix (cs : List Char) : Text.dropBlank cs <:+: cs := by
  obtain ⟨before, hcs, -⟩ := Text.exists_blanks_dropBlank cs
  exact ⟨before, [], by rw [List.append_nil, ← hcs]⟩

theorem dropBlankEnd_isInfix (cs : List Char) : Text.dropBlankEnd cs <:+: cs := by
  obtain ⟨after, hcs, -⟩ := Text.exists_blanks_dropBlankEnd cs
  exact ⟨[], after, hcs.symm⟩

theorem trim_isInfix (s : String) : (Text.trim s).toList <:+: s.toList := by
  rw [Text.toList_trim]
  exact (dropBlankEnd_isInfix _).trans (dropBlank_isInfix _)

/-- Which characters stand in it is all that delimits a text. -/
theorem delimited_text_iff {ctx : Context} {s : String} :
    (Inline.text s).Delimited ctx ↔
      '\r' ∉ s.toList ∧ '\n' ∉ s.toList ∧ (ctx = .cell → '|' ∉ s.toList) := by
  constructor
  · intro h
    exact ⟨h.no_return s (List.mem_singleton_self s), h.one_line s (List.mem_singleton_self s),
      fun hctx ↦ h.in_cell hctx s (List.mem_singleton_self s)⟩
  · rintro ⟨hr, hn, hp⟩
    refine ⟨?_, ?_, fun hctx ↦ ?_, trivial, trivial⟩
    all_goals
      intro s' hs'
      obtain rfl := List.mem_singleton.1 hs'
    · exact hr
    · exact hn
    · exact hp hctx

theorem inherits_delimited (ctx : Context) : Inherits (Inline.Delimited ctx) := by
  have hsubset : ∀ {s t : String}, t.toList ⊆ s.toList → (Inline.text s).Delimited ctx →
      (Inline.text t).Delimited ctx := by
    intro s t hst hs
    rw [delimited_text_iff] at hs ⊢
    exact ⟨fun h ↦ hs.1 (hst h), fun h ↦ hs.2.1 (hst h), fun hctx h ↦ hs.2.2 hctx (hst h)⟩
  refine ⟨fun s t hs ht ↦ ?_, fun s ↦ hsubset ?_, fun s ↦ hsubset ?_⟩
  · rw [delimited_text_iff] at hs ht ⊢
    simp only [String.toList_append, List.mem_append, not_or]
    exact ⟨⟨hs.1, ht.1⟩, ⟨hs.2.1, ht.2.1⟩, fun hctx ↦ ⟨hs.2.2 hctx, ht.2.2 hctx⟩⟩
  · rw [Text.toList_trimStart]
    exact (dropBlank_isInfix _).subset
  · rw [Text.toList_trimEnd]
    exact (dropBlankEnd_isInfix _).subset

theorem codeBlockOf_cases (raw : String) :
    codeBlockOf raw = .codeBlock none raw ∨ ∃ first rest tag, raw.toList = first ++ rest ∧
      codeBlockOf raw = .codeBlock (some tag) (String.ofList rest) ∧
      tag.toList <:+: first ∧ tag ≠ "" ∧ ∀ c ∈ tag.toList, isTagChar c := by
  unfold codeBlockOf
  split
  · exact .inl rfl
  · next first rest hsplit =>
    simp only
    split
    · next htag =>
      rw [Bool.and_eq_true, List.all_eq_true] at htag
      refine .inr ⟨first ++ ['\n'], rest, _, ?_, rfl, ?_, by simpa using htag.1, htag.2⟩
      · simpa using Text.append_of_splitFirst hsplit
      · have hinfix := trim_isInfix (String.ofList first)
        rw [String.toList_ofList] at hinfix
        exact hinfix.trans (List.prefix_append _ _).isInfix
    · exact .inl rfl

theorem LinkSpans.strings_subset {span : List Token} {label address : String}
    (h : LinkSpans span label address) :
    ∀ s ∈ [label, address], s.toList ⊆ (Token.spell span).toList := by
  cases h with
  | @mk label address b p c =>
    intro s hs x hx
    simp only [Token.spell_append, Token.spell_cons, String.toList_append, List.mem_append]
    rcases List.mem_pair.1 hs with rfl | rfl
    · exact .inl hx
    · exact .inr (.inr (.inr (.inl ((trim_isInfix _).subset hx))))

/-- Nothing stands in the strings of a node that does not stand in the text it is read from. -/
theorem Spans.strings_subset {ctx : Context} {span : List Token} {n : Inline}
    (h : Spans ctx span n) (hspan : AllFaithful span) :
    ∀ s ∈ n.strings, s.toList ⊆ (Token.spell span).toList := by
  have hlink : ∀ {o : List Token} {span : List Token} {label address : String},
      LinkSpans span label address →
      ∀ s ∈ [label, address], s.toList ⊆ (Token.spell (o ++ span)).toList := by
    intro o span label address hs s hmem
    rw [Token.spell_append, String.toList_append]
    exact List.subset_append_of_subset_right _ (hs.strings_subset s hmem)
  cases h with
  | heading =>
    simpa [Inline.strings] using List.subset_append_of_subset_right _ (trim_isInfix _).subset
  | @subheading h h' marks prose =>
    rw [Token.spell_cons, Token.spell_cons, String.toList_append, String.toList_append]
    simpa only [Inline.strings, List.forall_mem_singleton] using
      List.subset_append_of_subset_right _
        (List.subset_append_of_subset_right _ (trim_isInfix _).subset)
  | bold => simp [Inline.strings]
  | italic => simp [Inline.strings]
  | code => simp [Inline.strings]
  | @codeBlock o body m ho hm =>
    rcases codeBlockOf_cases (Token.spell body) with heq | ⟨first, rest, tag, hraw, heq, htag, -⟩
    · rw [heq]
      simp [Inline.strings]
    · rw [heq]
      intro s hs x hx
      have hx' : x ∈ (Token.spell body).toList := by
        rw [hraw, List.mem_append]
        rcases List.mem_pair.1 hs with rfl | rfl
        · exact .inr (by simpa using hx)
        · exact .inl (htag.subset hx)
      simp [hx']
  | link ho hs => exact hlink (o := [_]) hs
  | view hd ho hs => exact hlink (o := [_, _]) hs
  | image hb ho hs => exact hlink (o := [_, _]) hs
  | @stars s s' hs hs' =>
    have hstar := hspan s (by simp) '*' (by rw [hs]; rfl)
    simp [Inline.strings, hstar]
  | @mark t c s ht hc hs =>
    have hvalue := hspan t (by simp) c hc
    simp [Inline.strings, hs, hvalue]
  | @bang b t hb ht =>
    have hvalue := hspan b (by simp) '!' (by rw [hb]; rfl)
    simp [Inline.strings, hvalue]
  | token ht => simp [Inline.strings]

theorem Canonical.prose_of_mem_spell {ts : List Token} (h : Canonical ts)
    (hts : ∀ t ∈ ts, t.kind = .text) {c : Char} (hc : c ∈ (Token.spell ts).toList) :
    Kind.ofChar? c = none := by
  rw [toList_spell, List.mem_flatMap] at hc
  obtain ⟨t, ht, hc⟩ := hc
  exact (h.prose t ht (hts t ht)).prose c hc

theorem mem_dropWhile_of_isInfix {α : Type} {p : α → Bool} {v w : List α} (h : w <:+: v) {c : α}
    (hc : c ∈ w.dropWhile p) : c ∈ v.dropWhile p := by
  obtain ⟨before, after, rfl⟩ := h
  rw [List.append_assoc, List.dropWhile_append]
  split
  · rw [List.dropWhile_append, if_neg (by simpa using List.ne_nil_of_mem hc)]
    exact List.mem_append_left after hc
  · exact List.mem_append_right _ (List.mem_append_left after (List.dropWhile_subset p hc))

/-- Behind its heading marks a title is prose. -/
theorem title_endsFirst {marks prose : List Token} (h : Canonical (marks ++ prose))
    (hmarks : ∀ t ∈ marks, t.kind = .hashtag) (hprose : ∀ t ∈ prose, t.kind = .text)
    {w : List Char} (hw : w <:+: (Token.spell (marks ++ prose)).toList) :
    ∀ c ∈ w.dropWhile (· = '#'), Kind.ofChar? c = none := by
  intro c hc
  have hsigns : ∀ d ∈ (Token.spell marks).toList, decide (d = '#') = true := by
    intro d hd
    rw [toList_spell, List.mem_flatMap] at hd
    obtain ⟨t, ht, hd⟩ := hd
    have hv := h.marks t (List.mem_append_left prose ht) '#' (by rw [hmarks t ht]; rfl)
    simpa [hv] using hd
  have hc' := mem_dropWhile_of_isInfix hw hc
  rw [Token.spell_append, String.toList_append, List.dropWhile_append_of_pos hsigns] at hc'
  exact (h.of_isInfix (List.suffix_append marks prose).isInfix).prose_of_mem_spell hprose
    (List.dropWhile_subset _ hc')

theorem Spans.endsFirst {ctx : Context} {span : List Token} {n : Inline} (h : Spans ctx span n)
    (hspan : Canonical span) : n.EndsFirst := by
  cases h with
  | @heading h prose hh hp hl =>
    have hprose : Canonical prose := hspan.tail
    have hnone : Canonical ([] ++ prose) := hprose
    refine ⟨title_endsFirst hnone (by simp) hp (trim_isInfix _), fun _ htitle ↦ ?_⟩
    have hmem := (trim_isInfix _).subset (List.mem_of_head? htitle)
    cases hprose.prose_of_mem_spell hp hmem
  | @subheading h h' marks prose hh hh' hm hp hl =>
    exact ⟨title_endsFirst hspan.tail.tail hm hp (trim_isInfix _), by simp⟩
  | @bold o body m ho hm hb =>
    have hbody : Canonical body := hspan.of_isInfix ⟨o, m, rfl⟩
    have hfirst := hm.upToFirst hbody ['*', '*'] (by simp) rfl
    exact ⟨hfirst.not_isInfix (by simp), hfirst.getLast?_ne (n := 2)⟩
  | @italic o body m ho hm hb hne =>
    have hbody : Canonical body := hspan.of_isInfix ⟨o, m, rfl⟩
    have hfirst := hm.upToFirst hbody ['*'] (by simp) rfl
    refine ⟨fun hnil ↦ hne ?_, hfirst.not_mem⟩
    rw [← hbody.lexChars_spell, hnil, String.toList_empty, lexChars]
  | @code o body m ho hm hb =>
    have hbody : Canonical body := hspan.of_isInfix ⟨o, m, rfl⟩
    exact (hm.upToFirst hbody ['\x60'] (by simp) rfl).not_mem
  | @codeBlock o body m ho hm =>
    have hbody : Canonical body := hspan.of_isInfix ⟨o, m, rfl⟩
    have hfirst := hm.upToFirst hbody ['\x60', '\x60', '\x60'] (by simp) rfl
    rcases codeBlockOf_cases (Token.spell body) with
      heq | ⟨first, rest, tag, hraw, heq, -, hne, htag⟩
    · rw [heq]
      exact ⟨by simp, hfirst.not_isInfix (by simp), hfirst.getLast?_ne (n := 3)⟩
    · rw [hraw] at hfirst
      have hrest := hfirst.of_append
      rw [heq]
      refine ⟨fun tag' htag' ↦ ?_, ?_, ?_⟩
      · obtain rfl := Option.some.inj htag'
        exact ⟨hne, fun c hc ↦ by simpa [isTagChar, or_assoc] using htag c hc⟩
      · simpa using hrest.not_isInfix (by simp)
      · simpa using hrest.getLast?_ne (n := 3)
  | _ => trivial

theorem Canonical.spell_pairs {ts body rest : List Token} (hts : Canonical ts) {d : Delimiter}
    {o c : Char} (ho : d.opening.char? = some o) (hc : d.closing.char? = some c)
    (h : enclosed d 0 ts = .ok (body, rest)) : Pairs o c 0 (Token.spell body).toList := by
  have hoc : o ≠ c := by
    cases d <;> cases ho <;> cases hc <;> decide
  have hmark : ∀ t ∈ ts, ∀ {x : Char}, t.kind.char? = some x → t.value.toList = [x] := by
    intro t ht x hx
    simp [hts.marks t ht x hx]
  rw [toList_spell]
  refine enclosed_pairs hoc _ (fun t ht hk ↦ hmark t ht (hk ▸ ho))
    (fun t ht hk ↦ hmark t ht (hk ▸ hc))
    (fun t ht hko hkc ↦ ⟨fun hmem ↦ hko ?_, fun hmem ↦ hkc ?_⟩) h
  · exact hts.kind_of_mem_value ht (Kind.ofChar?_eq_some_iff.2 ho) hmem
  · exact hts.kind_of_mem_value ht (Kind.ofChar?_eq_some_iff.2 hc) hmem

theorem Pairs.trim {o c : Char} {s : String} (ho : Text.isBlank o = false)
    (hc : Text.isBlank c = false) (h : Pairs o c 0 s.toList) :
    Pairs o c 0 (Text.trim s).toList := by
  have hblanks : ∀ {cs : List Char}, (∀ x ∈ cs, Text.isBlank x) → o ∉ cs ∧ c ∉ cs := by
    intro cs hcs
    exact ⟨fun hmem ↦ by simp [hcs o hmem] at ho, fun hmem ↦ by simp [hcs c hmem] at hc⟩
  obtain ⟨before, hs, hbefore⟩ := Text.exists_blanks_dropBlank s.toList
  obtain ⟨after, hs', hafter⟩ := Text.exists_blanks_dropBlankEnd (Text.dropBlank s.toList)
  rw [hs] at h
  have hfront := h.of_append (hblanks hbefore).1 (hblanks hbefore).2
  rw [hs'] at hfront
  rw [Text.toList_trim]
  exact hfront.of_append_right (hblanks hafter).1 (hblanks hafter).2

theorem readLinkParts_paired {ts rest : List Token} {label address : String}
    (hts : Canonical ts) (h : readLinkParts ts = .ok ((label, address), rest)) :
    Pairs '[' ']' 0 label.toList ∧ Pairs '(' ')' 0 address.toList := by
  obtain ⟨⟨label', r⟩, hl, h⟩ := bind_eq_ok_iff.1 h
  have hsuffix := enclosed_suffix hl
  dsimp only at h hsuffix
  split at h
  · next v r =>
    obtain ⟨⟨address', r'⟩, ha, h⟩ := bind_eq_ok_iff.1 h
    obtain ⟨hparts, -⟩ := Prod.mk.inj (Except.ok.inj h)
    obtain ⟨rfl, rfl⟩ := Prod.mk.inj hparts
    have hr : Canonical r := (hts.of_isInfix hsuffix.isInfix).tail
    exact ⟨hts.spell_pairs rfl rfl hl, .trim (by decide) (by decide) (hr.spell_pairs rfl rfl ha)⟩
  · simp at h

theorem readHeading_paired (ts : List Token) : (readHeading ts).1.Paired := by
  have htitle : ∀ level us, (readTitle level us).1.Paired := by
    intro level us
    unfold readTitle
    split <;> trivial
  unfold readHeading
  split <;> exact htitle _ _

theorem readEmphasis_paired (ctx : Context) (ts : List Token) :
    (readEmphasis ctx ts).1.Paired := by
  unfold readEmphasis
  split <;> split <;> trivial

theorem readCode_paired {ctx : Context} {ts rest : List Token} {n : Inline}
    (h : readCode ctx ts = .ok (n, rest)) : n.Paired := by
  unfold readCode at h
  split at h
  · obtain ⟨⟨body, r⟩, -, h⟩ := map_eq_ok_iff.1 h
    obtain ⟨rfl, -⟩ := Prod.mk.inj h
    obtain ⟨language, code, heq⟩ := exists_codeBlockOf_eq (Token.spell body)
    rw [heq]
    trivial
  · split at h
    all_goals
      obtain ⟨rfl, -⟩ := Prod.mk.inj (Except.ok.inj h)
      trivial

theorem readImage_paired {ts : List Token} (hts : Canonical ts) (ctx : Context) :
    (readImage ctx ts).1.Paired := by
  have hbang : ∀ us, (readBangText ctx us).1.Paired := by
    intro us
    unfold readBangText
    split
    · trivial
    · split <;> trivial
  unfold readImage
  split
  · split
    · next h => exact readLinkParts_paired hts.tail h
    · exact hbang _
  · exact hbang _

theorem readInline_paired {ctx : Context} {t : Token} {ts rest : List Token} {n : Inline}
    (hts : Canonical ts) (h : readInline ctx t ts = .ok (n, rest)) : n.Paired := by
  unfold readInline at h
  split at h
  · obtain ⟨rfl, -⟩ := Prod.mk.inj (Except.ok.inj h)
    exact readHeading_paired ts
  · obtain ⟨rfl, -⟩ := Prod.mk.inj (Except.ok.inj h)
    exact readEmphasis_paired ctx ts
  · exact readCode_paired h
  · obtain ⟨⟨⟨label, address⟩, r⟩, hp, h⟩ := map_eq_ok_iff.1 h
    obtain ⟨rfl, -⟩ := Prod.mk.inj h
    exact readLinkParts_paired hts hp
  · split at h
    · obtain ⟨⟨⟨label, address⟩, r⟩, hp, h⟩ := map_eq_ok_iff.1 h
      obtain ⟨rfl, -⟩ := Prod.mk.inj h
      exact readLinkParts_paired hts.tail hp
    · obtain ⟨rfl, -⟩ := Prod.mk.inj (Except.ok.inj h)
      trivial
  · obtain ⟨rfl, -⟩ := Prod.mk.inj (Except.ok.inj h)
    exact readImage_paired hts ctx
  · obtain ⟨rfl, -⟩ := Prod.mk.inj (Except.ok.inj h)
    trivial

theorem cellStrings_subset_lineStrings (n : Inline) : n.cellStrings ⊆ n.lineStrings := by
  cases n <;> simp [Inline.cellStrings, Inline.lineStrings, Inline.strings]

theorem lineStrings_subset_strings (n : Inline) : n.lineStrings ⊆ n.strings := by
  cases n <;> simp [Inline.lineStrings, Inline.strings]

/-- The language of fenced code stands in one line, though the code does not. -/
theorem lineStrings_codeBlockOf (raw : String) :
    ∀ s ∈ (codeBlockOf raw).lineStrings, '\n' ∉ s.toList := by
  rcases codeBlockOf_cases raw with heq | ⟨first, rest, tag, -, heq, -, -, htag⟩
  · rw [heq]
    simp [Inline.lineStrings]
  · rw [heq]
    intro s hs hmem
    obtain rfl := List.mem_singleton.1 hs
    have hnewline := htag _ hmem
    revert hnewline
    decide

theorem Spans.one_line {ctx : Context} {span : List Token} {n : Inline} (h : Spans ctx span n)
    (hspan : Canonical span) : ∀ s ∈ n.lineStrings, '\n' ∉ s.toList := by
  have hunbroken : Unbroken span → ∀ s ∈ n.lineStrings, '\n' ∉ s.toList := by
    intro hu s hs hmem
    have hmem' := h.strings_subset hspan.marks s (lineStrings_subset_strings n hs) hmem
    obtain ⟨t, ht, hk⟩ := hspan.exists_kind_of_mem_spell (k := .newline) rfl hmem'
    exact hu t ht hk
  rcases h.within with hin | ⟨hu, -⟩ | ⟨o, body, m, -, -, -, rfl⟩
  · exact hunbroken (unbroken_of_endsAt hin)
  · exact hunbroken hu
  · exact lineStrings_codeBlockOf _

theorem Spans.in_cell {span : List Token} {n : Inline} (h : Spans .cell span n)
    (hspan : Canonical span) : ∀ s ∈ n.cellStrings, '|' ∉ s.toList := by
  rcases h.within with hin | ⟨-, s, s', rfl | rfl | rfl⟩ | ⟨o, body, m, -, -, -, rfl⟩
  · intro s hs hmem
    have hmem' := h.strings_subset hspan.marks s
      (lineStrings_subset_strings n (cellStrings_subset_lineStrings n hs)) hmem
    obtain ⟨t, ht, hk⟩ := hspan.exists_kind_of_mem_spell (k := .pipe) rfl hmem'
    have hpipe := hin t ht
    rw [hk] at hpipe
    cases hpipe
  · simp [Inline.cellStrings]
  · simp [Inline.cellStrings]
  · simp [Inline.cellStrings]
  · obtain ⟨language, code, heq⟩ := exists_codeBlockOf_eq (Token.spell body)
    rw [heq]
    simp [Inline.cellStrings]

theorem readInline_delimited {ctx : Context} {t : Token} {ts rest : List Token} {n : Inline}
    (hts : Canonical (t :: ts)) (ht : ctx.endsAt t.kind = false)
    (h : readInline ctx t ts = .ok (n, rest)) : n.Delimited ctx := by
  obtain ⟨span, hspan, hn⟩ := readInline_spans ht h
  have hcanonical : Canonical span := hts.of_isInfix ⟨[], rest, hspan.symm⟩
  refine ⟨fun s hs hmem ↦ ?_, hn.one_line hcanonical, ?_, hn.endsFirst hcanonical,
    readInline_paired hts.tail h⟩
  · exact hcanonical.no_return (hn.strings_subset hcanonical.marks s hs hmem)
  · rintro rfl
    exact hn.in_cell hcanonical

theorem parse_delimited {source : String} {d : Document} (h : Document.parse source = .ok d) :
    ∀ b ∈ d.leaves, ∀ r ∈ b.runs, ∀ n ∈ r, n.Delimited b.context := by
  have hts : Canonical (lex source) := canonical_lexChars (by simp [dropReturns])
  refine readAll_inlines inherits_delimited (fun ctx t us n r hus ht hn ↦ ?_)
    (Document.ofTokens_eq_ok_iff.1 h)
  exact readInline_delimited (hts.of_isInfix hus.isInfix) ht hn

/-- In a cell of a nested table the first two of three stars end the bold text, and a label keeps
its pipe. -/
theorem parse_delimited_of_cells :
    Document.parse "\x7b\n| a **b*** | [x|[y]]( (z) ) |\n\x7d" =
        .ok ⟨[.segment [.table [[[.text "a ", .bold "b", .text "*"], [.link "x|[y]" "(z)"]]]]]⟩ ∧
      (Inline.bold "b").Delimited .cell ∧ (Inline.link "x|[y]" "(z)").Delimited .cell := by
  have hparse : Document.parse "\x7b\n| a **b*** | [x|[y]]( (z) ) |\n\x7d" =
      .ok ⟨[.segment [.table [[[.text "a ", .bold "b", .text "*"], [.link "x|[y]" "(z)"]]]]]⟩ := by
    decide +kernel
  have hall := parse_delimited hparse
    (.table [[[.text "a ", .bold "b", .text "*"], [.link "x|[y]" "(z)"]]]) (by decide)
  exact ⟨hparse, hall [.text "a ", .bold "b", .text "*"] (by decide) _ (by decide),
    hall [.link "x|[y]" "(z)"] (by decide) _ (by decide)⟩

end Folio.Markup
