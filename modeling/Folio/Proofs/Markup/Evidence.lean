import Folio.Markup.Document.Reader
import Folio.Proofs.Markup.Span

namespace Folio.Markup

/-- A bracket was opened on the line that these tokens end in. -/
def LinkOpen (before : List Token) : Prop :=
  ∃ pre o line, before = pre ++ o :: line ∧ o.kind = .bracketOpen ∧ Unbroken line

/-- What the tokens before a failure and those from it on show, where no brace is to blame. -/
inductive Evidence : List Token → Failure → Prop
  | closing {before rest : List Token} (d : Delimiter) :
      LinkOpen before → (∀ t ∈ rest.head?, t.kind = .newline) →
      Evidence before (.missing d.closing rest)
  | address {before rest : List Token} {b : Token} :
      LinkOpen (before ++ [b]) → b.kind = .bracketClose →
      (∀ t ∈ rest.head?, t.kind ≠ .parenOpen) →
      Evidence (before ++ [b]) (.missing .parenOpen rest)
  | fence {before : List Token} :
      fence <:+: before.map Token.kind → Evidence before (.missing .backtick [])

/-- The failure `f` shows somewhere in `ts`, with its evidence before it. -/
def Fails (ts : List Token) (f : Failure) : Prop :=
  ∃ before, ts = before ++ f.rest ∧ Evidence before f

theorem LinkOpen.prepend {before : List Token} (h : LinkOpen before) (pre : List Token) :
    LinkOpen (pre ++ before) := by
  obtain ⟨pre', o, line, rfl, ho, hl⟩ := h
  exact ⟨pre ++ pre', o, line, by simp, ho, hl⟩

theorem Evidence.prepend {before : List Token} {f : Failure} (h : Evidence before f)
    (pre : List Token) : Evidence (pre ++ before) f := by
  cases h with
  | closing d ho hr => exact .closing d (ho.prepend pre) hr
  | @address before rest b ho hb hr =>
    rw [← List.append_assoc]
    refine .address ?_ hb hr
    rw [List.append_assoc]
    exact ho.prepend pre
  | fence hf =>
    refine .fence ?_
    rw [List.map_append]
    exact hf.trans (List.suffix_append _ _).isInfix

theorem Fails.of_suffix {ts us : List Token} {f : Failure} (h : Fails us f) (hs : us <:+ ts) :
    Fails ts f := by
  obtain ⟨pre, rfl⟩ := hs
  obtain ⟨before, rfl, he⟩ := h
  exact ⟨pre ++ before, by simp, he.prepend pre⟩

theorem enclosed_error {d : Delimiter} {depth : Nat} {ts : List Token} {f : Failure}
    (h : enclosed d depth ts = .error f) :
    ∃ body rest, ts = body ++ rest ∧ Unbroken body ∧ f = .missing d.closing rest ∧
      ∀ t ∈ rest.head?, t.kind = .newline := by
  induction ts generalizing depth with
  | nil =>
    simp only [enclosed, Except.error.injEq] at h
    exact ⟨[], [], rfl, .nil, h.symm, by simp⟩
  | cons t ts ih =>
    have hcons : t.kind ≠ .newline → ∀ depth', enclosed d depth' ts = .error f →
        ∃ body rest, t :: ts = body ++ rest ∧ Unbroken body ∧ f = .missing d.closing rest ∧
          ∀ t ∈ rest.head?, t.kind = .newline := by
      intro hn depth' h
      obtain ⟨body, rest, rfl, hb, hf, hr⟩ := ih h
      exact ⟨t :: body, rest, rfl, hb.cons hn, hf, hr⟩
    simp only [enclosed] at h
    split at h
    · next hn =>
      exact ⟨[], t :: ts, rfl, .nil, (Except.error.inj h).symm, by simpa using hn⟩
    · next hn =>
      split at h
      · split at h
        · simp at h
        · exact hcons hn _ (map_eq_error_iff.1 h)
      · exact hcons hn _ (map_eq_error_iff.1 h)

theorem upToFence_error {ts : List Token} {f : Failure} (h : upToFence ts = .error f) :
    f = .missing .backtick [] := by
  induction ts with
  | nil => exact (Except.error.inj h).symm
  | cons t ts ih =>
    simp only [upToFence] at h
    split at h
    · simp at h
    · exact ih (map_eq_error_iff.1 h)

theorem readLinkParts_error {o : Token} {ts : List Token} {f : Failure}
    (ho : o.kind = .bracketOpen) (h : readLinkParts ts = .error f) : Fails (o :: ts) f := by
  unfold readLinkParts at h
  cases hl : enclosed .bracket 0 ts with
  | error e =>
    simp only [hl, bind, Except.bind, Except.error.injEq] at h
    subst h
    obtain ⟨body, rest, rfl, hb, rfl, hr⟩ := enclosed_error hl
    exact ⟨o :: body, rfl, .closing .bracket ⟨[], o, body, rfl, ho, hb⟩ hr⟩
  | ok p =>
    obtain ⟨label, r⟩ := p
    obtain ⟨b, hb, hbody, rfl⟩ := enclosed_spans hl
    -- the closing bracket ends no line
    have hlabel : Unbroken (label ++ [b]) :=
      hbody.append (.cons (by rw [hb]; decide) .nil)
    simp only [hl, bind, Except.bind] at h
    split at h
    · next v r =>
      cases ha : enclosed .paren 0 r with
      | error e =>
        simp only [ha, Except.error.injEq] at h
        subst h
        obtain ⟨body, rest, rfl, hb', rfl, hr⟩ := enclosed_error ha
        refine ⟨o :: (label ++ [b] ++ ⟨.parenOpen, v⟩ :: body), by simp [Failure.rest], ?_⟩
        exact .closing .paren ⟨[], o, _, rfl, ho, hlabel.append (hb'.cons (by simp))⟩ hr
      | ok q => simp [ha] at h
    · next hne =>
      obtain rfl := Except.error.inj h
      refine ⟨o :: label ++ [b], by simp [Failure.rest], ?_⟩
      refine .address ⟨[], o, label ++ [b], rfl, ho, hlabel⟩ hb ?_
      intro t ht hk
      obtain ⟨us, rfl⟩ := List.head?_eq_some_iff.1 ht
      obtain ⟨k, v⟩ := t
      subst hk
      exact hne _ _ rfl

theorem readCode_error {ctx : Context} {ts : List Token} {f : Failure}
    (h : readCode ctx ts = .error f) : Fails ts f := by
  unfold readCode at h
  split at h
  · next hs =>
    obtain rfl := upToFence_error (map_eq_error_iff.1 h)
    exact ⟨ts, by simp [Failure.rest], .fence (startsWith_iff.1 hs).isInfix⟩
  · split at h <;> simp at h

theorem readInline_error {ctx : Context} {t : Token} {ts : List Token} {f : Failure}
    (h : readInline ctx t ts = .error f) : Fails (t :: ts) f := by
  unfold readInline at h
  split at h
  · simp at h
  · simp at h
  · exact readCode_error h
  · next hk => exact readLinkParts_error hk (map_eq_error_iff.1 h)
  · split at h
    · next v rest =>
      have ho : Token.kind ⟨.bracketOpen, v⟩ = .bracketOpen := rfl
      have hl := readLinkParts_error ho (map_eq_error_iff.1 h)
      exact hl.of_suffix (List.suffix_cons ..)
    · simp at h
  · simp at h
  · simp at h

theorem readRun_error {ctx : Context} {run : Run} {ts : List Token} {f : Failure}
    (h : readRun ctx run ts = .error f) : Fails ts f := by
  fun_induction readRun ctx run ts with
  | case1 => simp at h
  | case2 => simp at h
  | case3 run t ts ht f' hn =>
    obtain rfl := Except.error.inj h
    exact readInline_error hn
  | case4 run t ts ht n r hn ih =>
    exact (ih h).of_suffix ((readInline_suffix hn).trans (List.suffix_cons ..))

theorem LineReader.lines_error {α : Type} {r : LineReader α}
    (hr : ∀ {ts : List Token} {f : Failure}, r.read ts = .error f → Fails ts f) {ts : List Token}
    {f : Failure} (h : r.lines ts = .error f) : Fails ts f := by
  fun_induction lines r ts with
  | case1 | case4 => simp at h
  | case2 t ts ht f' hf =>
    obtain rfl := Except.error.inj h
    exact (hr hf).of_suffix (List.suffix_cons ..)
  | case3 t ts ht a rest hread ih =>
    have hrest := (dropNewline_suffix rest).trans (r.read_suffix hread)
    exact (ih (map_eq_error_iff.1 h)).of_suffix (hrest.trans (List.suffix_cons ..))

theorem readCells_error {ts : List Token} {f : Failure} (h : readCells ts = .error f) :
    Fails ts f := by
  fun_induction readCells ts with
  | case1 ts f' hr =>
    obtain rfl := Except.error.inj h
    exact readRun_error hr
  | case2 => simp at h
  | case3 ts run v r hr _ ih =>
    have hrest := (List.suffix_cons ..).trans (readRun_suffix hr)
    exact (ih (map_eq_error_iff.1 h)).of_suffix hrest
  | case4 => simp at h

theorem readLeaf_error {ts : List Token} {f : Failure} (h : readLeaf ts = .error f) :
    Fails ts f := by
  unfold readLeaf at h
  split at h
  · exact LineReader.lines_error (fun h ↦ readRun_error (map_eq_error_iff.1 h))
      (map_eq_error_iff.1 h)
  · exact LineReader.lines_error readCells_error (map_eq_error_iff.1 (map_eq_error_iff.1 h))
  · exact readRun_error (map_eq_error_iff.1 h)

def Outline.Placed (ts : List Token) (o : Outline) : Prop :=
  ∀ s ∈ o.opened, ∃ b us, s.opening = b :: us ∧ b.kind = .braceOpen ∧ s.opening <:+ ts

/-- A failure of a whole token list: inside a line, at a closing brace, or for an open segment. -/
inductive Fault (ts : List Token) : Failure → Prop
  | line {f : Failure} : Fails ts f → Fault ts f
  | unopened {b : Token} {us : List Token} :
      b.kind = .braceClose → b :: us <:+ ts → Fault ts (.unopened (b :: us))
  | unclosed {b : Token} {us : List Token} :
      b.kind = .braceOpen → b :: us <:+ ts → Fault ts (.unclosed (b :: us))

theorem step_placed {all ts rest : List Token} {o o' : Outline} {t : Token}
    (ho : o.Placed all) (hs : t :: ts <:+ all) (h : o.step t ts = .ok (o', rest)) :
    o'.Placed all := by
  unfold Outline.step at h
  split at h
  · next hk =>
    obtain ⟨rfl, rfl⟩ := Prod.mk.inj (Except.ok.inj h)
    intro s hs'
    rcases List.mem_cons.1 hs' with rfl | hs'
    · exact ⟨t, ts, rfl, hk, hs⟩
    · exact ho s hs'
  · split at h
    · simp at h
    · next s outer hopened =>
      obtain ⟨rfl, rfl⟩ := Prod.mk.inj (Except.ok.inj h)
      intro s' hs'
      exact ho s' (by rw [hopened]; exact List.mem_cons_of_mem _ hs')
  · obtain ⟨p, hp, h⟩ := map_eq_ok_iff.1 h
    obtain ⟨rfl, rfl⟩ := Prod.mk.inj h
    exact ho

theorem step_error {all ts : List Token} {o : Outline} {t : Token} {f : Failure}
    (hs : t :: ts <:+ all) (h : o.step t ts = .error f) : Fault all f := by
  unfold Outline.step at h
  split at h
  · simp at h
  · next hk =>
    split at h
    · obtain rfl := Except.error.inj h
      exact .unopened hk hs
    · simp at h
  · exact .line ((readLeaf_error (map_eq_error_iff.1 h)).of_suffix hs)

theorem readAll_error {ts : List Token} {f : Failure} (h : readAll ts = .error f) :
    Fault ts f := by
  have hstart : Outline.start.Placed ts ∧ ts <:+ ts := by simp [Outline.Placed, Outline.start]
  have hstep : ∀ {o o' : Outline} {t : Token} {us rest : List Token},
      o.Placed ts ∧ t :: us <:+ ts → o.step t us = .ok (o', rest) →
      o'.Placed ts ∧ rest <:+ ts := by
    intro o o' t us rest ho hn
    exact ⟨step_placed ho.1 ho.2 hn,
      (Outline.step_suffix hn).trans ((List.suffix_cons ..).trans ho.2)⟩
  rcases Outline.run_error_invariant (I := fun o us ↦ o.Placed ts ∧ us <:+ ts) hstep hstart
    (readAll_eq_error_iff.1 h) with ⟨o, t, us, ho, hf⟩ | ⟨o, s, outer, ho, hopened, rfl⟩
  · exact step_error ho.2 hf
  · obtain ⟨b, us, hb, hk, hs⟩ := ho.1 s (by rw [hopened]; exact List.mem_cons_self ..)
    rw [hb] at hs ⊢
    exact .unclosed hk hs

def kindAt (ts : List Token) (i : Nat) : Option Kind :=
  ts[i]?.map Token.kind

/-- Before the place `p` a bracket was opened on the line of `p`. -/
def LinkOpenAt (ts : List Token) (p : Nat) : Prop :=
  ∃ i < p, kindAt ts i = some .bracketOpen ∧ ∀ j < p, i < j → kindAt ts j ≠ some .newline

/-- What is wrong with a token list that cannot be read. -/
inductive Cause
  | link | address | fence | segment | brace

/-- The error `e` names a place of `ts` where this cause can be seen. -/
def Cause.Shows (ts : List Token) : Cause → ParseError → Prop
  | link, .unexpected k found p _ =>
    (k = .bracketClose ∨ k = .parenClose) ∧ found = kindAt ts p ∧
      (found = some .newline ∨ found = none ∧ p = ts.length) ∧ LinkOpenAt ts p
  | address, .unexpected .parenOpen found p _ =>
    0 < p ∧ kindAt ts (p - 1) = some .bracketClose ∧ found = kindAt ts p ∧
      found ≠ some .parenOpen ∧ (found = none → p = ts.length) ∧ LinkOpenAt ts p
  | fence, .unexpected .backtick none p _ =>
    p = ts.length ∧ Markup.fence <:+: ts.map Token.kind
  | segment, .unexpected .braceClose none p _ => kindAt ts p = some .braceOpen
  | brace, .unmatched .braceOpen .braceClose p _ => kindAt ts p = some .braceClose
  | _, _ => False

/-- The kinds that the error of a cause may ask for. They tell the causes apart. -/
def Cause.expects : Cause → List Kind
  | link => [.bracketClose, .parenClose]
  | address => [.parenOpen]
  | fence => [.backtick]
  | segment => [.braceClose]
  | brace => [.braceOpen]

theorem Cause.expected_mem_of_shows {ts : List Token} {c : Cause} {e : ParseError}
    (h : c.Shows ts e) : e.expected ∈ c.expects := by
  unfold Cause.Shows at h
  split at h
  · simpa [ParseError.expected, expects] using h.1
  · simp [ParseError.expected, expects]
  · simp [ParseError.expected, expects]
  · simp [ParseError.expected, expects]
  · simp [ParseError.expected, expects]
  · exact h.elim

theorem Cause.eq_of_mem_expects {c c' : Cause} {k : Kind} (h : k ∈ c.expects)
    (h' : k ∈ c'.expects) : c = c' := by
  cases c <;> cases c' <;> simp_all [expects]

theorem kindAt_append_length (before rest : List Token) :
    kindAt (before ++ rest) before.length = rest.head?.map Token.kind := by
  rw [kindAt, List.getElem?_append_right (Nat.le_refl _), Nat.sub_self, List.head?_eq_getElem?]

theorem locate_missing (k : Kind) (before rest : List Token) :
    (Failure.missing k rest).locate (before ++ rest) =
      .unexpected k (rest.head?.map Token.kind) before.length
        (lineAt (before ++ rest) before.length) := by
  simp [Failure.locate, Failure.rest]

theorem locate_unclosed (before rest : List Token) :
    (Failure.unclosed rest).locate (before ++ rest) =
      .unexpected .braceClose none before.length (lineAt (before ++ rest) before.length) := by
  simp [Failure.locate, Failure.rest]

theorem locate_unopened (before rest : List Token) :
    (Failure.unopened rest).locate (before ++ rest) =
      .unmatched .braceOpen .braceClose before.length
        (lineAt (before ++ rest) before.length) := by
  simp [Failure.locate, Failure.rest]

theorem LinkOpen.linkOpenAt {before : List Token} (h : LinkOpen before) (rest : List Token) :
    LinkOpenAt (before ++ rest) before.length := by
  obtain ⟨pre, o, line, rfl, ho, hl⟩ := h
  refine ⟨pre.length, by simp, ?_, ?_⟩
  · rw [List.append_assoc, kindAt_append_length]
    simp [ho]
  · intro j hj hi hn
    obtain ⟨t, ht, hk⟩ := Option.map_eq_some_iff.1 hn
    rw [List.getElem?_append_left hj, List.getElem?_append_right hi.le,
      List.getElem?_cons, if_neg (by omega)] at ht
    exact hl t (List.mem_of_getElem? ht) hk

theorem Fails.shows {ts : List Token} {f : Failure} (h : Fails ts f) :
    ∃ c : Cause, c.Shows ts (f.locate ts) := by
  obtain ⟨before, rfl, he⟩ := h
  cases he with
  | @closing _ rest d ho hr =>
    refine ⟨.link, ?_⟩
    rw [Failure.rest, locate_missing]
    refine ⟨by cases d <;> simp [Delimiter.closing], (kindAt_append_length ..).symm, ?_,
      ho.linkOpenAt rest⟩
    cases rest with
    | nil => simp
    | cons t rest => simpa using hr t rfl
  | @address before rest b ho hb hr =>
    refine ⟨.address, ?_⟩
    rw [Failure.rest, locate_missing]
    refine ⟨by simp, ?_, (kindAt_append_length ..).symm, ?_, ?_, ho.linkOpenAt rest⟩
    · rw [List.append_assoc, List.length_append, List.length_singleton, Nat.add_sub_cancel,
        kindAt_append_length]
      simp [hb]
    · cases rest with
      | nil => simp
      | cons t rest => simpa using hr t rfl
    · intro hnone
      cases rest with
      | nil => simp
      | cons t rest => simp at hnone
  | fence hf =>
    refine ⟨.fence, ?_⟩
    rw [Failure.rest, locate_missing]
    simpa [Cause.Shows] using hf

theorem Fault.shows {ts : List Token} {f : Failure} (h : Fault ts f) :
    ∃ c : Cause, c.Shows ts (f.locate ts) := by
  cases h with
  | line h => exact h.shows
  | @unopened b us hb hs =>
    obtain ⟨before, rfl⟩ := hs
    refine ⟨.brace, ?_⟩
    rw [locate_unopened]
    simp [Cause.Shows, kindAt_append_length, hb]
  | @unclosed b us hb hs =>
    obtain ⟨before, rfl⟩ := hs
    refine ⟨.segment, ?_⟩
    rw [locate_unclosed]
    simp [Cause.Shows, kindAt_append_length, hb]

/-- A failure needs a bracket, a fence or a brace. -/
theorem Cause.exists_kind_of_shows {ts : List Token} {c : Cause} {e : ParseError}
    (h : c.Shows ts e) :
    (∃ i, kindAt ts i ∈ [some .bracketOpen, some .braceOpen, some .braceClose]) ∨
      Markup.fence <:+: ts.map Token.kind := by
  unfold Cause.Shows at h
  split at h
  · obtain ⟨-, -, -, i, -, hi, -⟩ := h
    exact .inl ⟨i, by simp [hi]⟩
  · obtain ⟨-, -, -, -, -, i, -, hi, -⟩ := h
    exact .inl ⟨i, by simp [hi]⟩
  · exact .inr h.2
  · next p _ => exact .inl ⟨p, by simp [h]⟩
  · next p _ => exact .inl ⟨p, by simp [h]⟩
  · exact h.elim

/-- Every error of a token list names evidence of exactly one cause, and the line of it. Lists
without brackets, fences and braces have none. -/
theorem ofTokens_error_shows (ts : List Token) :
    (∀ e, Document.ofTokens ts = .error e →
      e.line = 1 + (ts.take e.position).countP (·.kind == .newline) ∧
        ∃! c : Cause, c.Shows ts e) ∧
    ((∀ t ∈ ts, t.kind ≠ .bracketOpen ∧ t.kind ≠ .braceOpen ∧ t.kind ≠ .braceClose) →
      ¬ fence <:+: ts.map Token.kind → ∃ d, Document.ofTokens ts = .ok d) := by
  have hshows : ∀ e, Document.ofTokens ts = .error e →
      e.line = lineAt ts e.position ∧ ∃ c : Cause, c.Shows ts e := by
    intro e h
    obtain ⟨f, hf, rfl⟩ := Document.ofTokens_eq_error_iff.1 h
    exact ⟨by cases f <;> rfl, (readAll_error hf).shows⟩
  refine ⟨fun e h ↦ ?_, fun hk hf ↦ ?_⟩
  · obtain ⟨hline, c, hc⟩ := hshows e h
    refine ⟨hline, c, hc, fun c' hc' ↦ ?_⟩
    exact Cause.eq_of_mem_expects (Cause.expected_mem_of_shows hc') (Cause.expected_mem_of_shows hc)
  · cases h : Document.ofTokens ts with
    | ok d => exact ⟨d, rfl⟩
    | error e =>
      obtain ⟨-, c, hc⟩ := hshows e h
      rcases Cause.exists_kind_of_shows hc with ⟨i, hi⟩ | hfence
      · cases ht : ts[i]? with
        | none => simp [kindAt, ht] at hi
        | some t =>
          have hmem := hk t (List.mem_of_getElem? ht)
          simp [kindAt, ht, hmem.1, hmem.2.1, hmem.2.2] at hi
      · exact absurd hfence hf

theorem ofTokens_error_shows_address :
    ∃! c : Cause, c.Shows (tokenize "\x7b\n![a][b] c\n")
      (.unexpected .parenOpen (some .text) 9 2) :=
  ((ofTokens_error_shows _).1 _ (by decide +kernel)).2

end Folio.Markup
