import Folio.Markup.Inline.Run
import Mathlib.Data.List.TakeWhile

namespace Folio.Markup

def Unbroken (ts : List Token) : Prop :=
  ∀ t ∈ ts, t.kind ≠ .newline

theorem Unbroken.nil : Unbroken [] := by
  simp [Unbroken]

theorem Unbroken.cons {t : Token} {ts : List Token} (ht : t.kind ≠ .newline)
    (h : Unbroken ts) : Unbroken (t :: ts) := by
  intro u hu
  rcases List.mem_cons.1 hu with rfl | hu
  · exact ht
  · exact h u hu

theorem Unbroken.append {ts us : List Token} (h : Unbroken ts) (h' : Unbroken us) :
    Unbroken (ts ++ us) := by
  intro t ht
  rcases List.mem_append.1 ht with ht | ht
  · exact h t ht
  · exact h' t ht

/-- The tokens `m` are the closing mark, and it does not stand earlier in `body`. -/
structure ClosesFirst (mark : List Kind) (body m : List Token) : Prop where
  kinds : m.map Token.kind = mark
  first : ∀ q, q <:+ body → q ≠ [] → startsWith mark (q ++ m) = false

theorem startsWith_iff {mark : List Kind} {ts : List Token} :
    startsWith mark ts ↔ mark <+: ts.map Token.kind := by
  induction mark generalizing ts with
  | nil => simp [startsWith]
  | cons k mark ih =>
    cases ts with
    | nil => simp [startsWith]
    | cons t ts =>
      rw [startsWith, Bool.and_eq_true, beq_iff_eq, ih, List.map_cons, List.cons_prefix_cons,
        eq_comm]

theorem startsWith_append {mark : List Kind} {ts : List Token} (h : startsWith mark ts)
    (us : List Token) : startsWith mark (ts ++ us) := by
  rw [startsWith_iff] at h ⊢
  rw [List.map_append]
  exact h.trans (List.prefix_append _ _)

/-- A mark that stands at the front can be taken off. -/
theorem exists_mark_of_startsWith {mark : List Kind} {ts : List Token} (h : startsWith mark ts) :
    ∃ m, m.map Token.kind = mark ∧ ts = m ++ ts.drop mark.length := by
  refine ⟨ts.take mark.length, ?_, (List.take_append_drop _ _).symm⟩
  rw [List.map_take]
  exact (List.prefix_iff_eq_take.1 (startsWith_iff.1 h)).symm

theorem ClosesFirst.nil {mark : List Kind} {m : List Token} (h : m.map Token.kind = mark) :
    ClosesFirst mark [] m := by
  refine ⟨h, fun q hq hne ↦ ?_⟩
  exact absurd (List.suffix_nil.1 hq) hne

theorem ClosesFirst.cons {mark : List Kind} {t : Token} {body m : List Token}
    (h : ClosesFirst mark body m) (rest : List Token)
    (ht : startsWith mark (t :: (body ++ m ++ rest)) = false) :
    ClosesFirst mark (t :: body) m := by
  refine ⟨h.kinds, fun q hq hne ↦ ?_⟩
  rcases List.suffix_cons_iff.1 hq with rfl | hq
  · rw [Bool.eq_false_iff]
    intro hs
    have h' := startsWith_append hs rest
    rw [List.cons_append, List.cons_append, ht] at h'
    cases h'
  · exact h.first q hq hne

theorem upTo_spans {ctx : Context} {mark : List Kind} {ts body rest : List Token}
    (h : upTo ctx mark ts = some (body, rest)) :
    ∃ m, ClosesFirst mark body m ∧ (∀ t ∈ body, ctx.endsAt t.kind = false) ∧
      ts = body ++ m ++ rest := by
  induction ts generalizing body with
  | nil => simp [upTo] at h
  | cons t ts ih =>
    simp only [upTo] at h
    split at h
    · next hs =>
      obtain ⟨rfl, rfl⟩ := Prod.mk.inj (Option.some.inj h)
      obtain ⟨m, hm, hts⟩ := exists_mark_of_startsWith hs
      exact ⟨m, .nil hm, by simp, by simpa using hts⟩
    · next hs =>
      split at h
      · simp at h
      · next he =>
        obtain ⟨⟨body, r⟩, hp, h⟩ := Option.map_eq_some_iff.1 h
        obtain ⟨rfl, rfl⟩ := Prod.mk.inj h
        obtain ⟨m, hm, hb, rfl⟩ := ih hp
        refine ⟨m, hm.cons _ (by simpa using hs), ?_, rfl⟩
        intro u hu
        rcases List.mem_cons.1 hu with rfl | hu
        · simpa using he
        · exact hb u hu

theorem upToFence_spans {ts body rest : List Token} (h : upToFence ts = .ok (body, rest)) :
    ∃ m, ClosesFirst fence body m ∧ ts = body ++ m ++ rest := by
  induction ts generalizing body with
  | nil => simp [upToFence] at h
  | cons t ts ih =>
    simp only [upToFence] at h
    split at h
    · next hs =>
      obtain ⟨rfl, rfl⟩ := Prod.mk.inj (Except.ok.inj h)
      obtain ⟨m, hm, hts⟩ := exists_mark_of_startsWith hs
      exact ⟨m, .nil hm, by simpa using hts⟩
    · next hs =>
      obtain ⟨⟨body, r⟩, hp, h⟩ := map_eq_ok_iff.1 h
      obtain ⟨rfl, rfl⟩ := Prod.mk.inj h
      obtain ⟨m, hm, rfl⟩ := ih hp
      exact ⟨m, hm.cons _ (by simpa using hs), rfl⟩

theorem enclosed_spans {d : Delimiter} {depth : Nat} {ts body rest : List Token}
    (h : enclosed d depth ts = .ok (body, rest)) :
    ∃ c, c.kind = d.closing ∧ Unbroken body ∧ ts = body ++ c :: rest := by
  induction ts generalizing depth body with
  | nil => simp [enclosed] at h
  | cons t ts ih =>
    -- every step but the last keeps `t` in the body, at some other depth
    have hcons : t.kind ≠ .newline → ∀ depth',
        (enclosed d depth' ts).map (fun p ↦ (t :: p.1, p.2)) = .ok (body, rest) →
        ∃ c, c.kind = d.closing ∧ Unbroken body ∧ t :: ts = body ++ c :: rest := by
      intro hn depth' h
      obtain ⟨⟨body, r⟩, hp, h⟩ := map_eq_ok_iff.1 h
      obtain ⟨rfl, rfl⟩ := Prod.mk.inj h
      obtain ⟨c, hc, hb, rfl⟩ := ih hp
      exact ⟨c, hc, hb.cons hn, rfl⟩
    simp only [enclosed] at h
    split at h
    · simp at h
    · next hn =>
      split at h
      · next hc =>
        split at h
        · obtain ⟨rfl, rfl⟩ := Prod.mk.inj (Except.ok.inj h)
          exact ⟨t, hc, .nil, rfl⟩
        · exact hcons hn _ h
      · exact hcons hn _ h

/-- What stands after an opening bracket: a label, its closing bracket, and an address in
parentheses. -/
inductive LinkSpans : List Token → String → String → Prop
  | mk {label address : List Token} {b p c : Token} :
      Unbroken label → b.kind = .bracketClose → p.kind = .parenOpen →
      Unbroken address → c.kind = .parenClose →
      LinkSpans (label ++ b :: p :: (address ++ [c])) (Token.spell label)
        (Text.trim (Token.spell address))

inductive Spans (ctx : Context) : List Token → Inline → Prop
  | heading {h : Token} {prose : List Token} :
      h.kind = .hashtag → (∀ t ∈ prose, t.kind = .text) → prose.length ≤ 1 →
      Spans ctx (h :: prose) (.heading 1 (Text.trim (Token.spell prose)))
  | subheading {h h' : Token} {marks prose : List Token} :
      h.kind = .hashtag → h'.kind = .hashtag → (∀ t ∈ marks, t.kind = .hashtag) →
      (∀ t ∈ prose, t.kind = .text) → prose.length ≤ 1 →
      Spans ctx (h :: h' :: (marks ++ prose))
        (.heading 2 (Text.trim (Token.spell (marks ++ prose))))
  | bold {o body m : List Token} :
      o.map Token.kind = [.star, .star] → ClosesFirst [.star, .star] body m →
      (∀ t ∈ body, ctx.endsAt t.kind = false) →
      Spans ctx (o ++ body ++ m) (.bold (Token.spell body))
  | italic {o body m : List Token} :
      o.map Token.kind = [.star] → ClosesFirst [.star] body m →
      (∀ t ∈ body, ctx.endsAt t.kind = false) → body ≠ [] →
      Spans ctx (o ++ body ++ m) (.italic (Token.spell body))
  | code {o body m : List Token} :
      o.map Token.kind = [.backtick] → ClosesFirst [.backtick] body m →
      (∀ t ∈ body, ctx.endsAt t.kind = false) →
      Spans ctx (o ++ body ++ m) (.code (Token.spell body))
  | codeBlock {o body m : List Token} :
      o.map Token.kind = fence → ClosesFirst fence body m →
      Spans ctx (o ++ body ++ m) (codeBlockOf (Token.spell body))
  | link {o : Token} {span : List Token} {label address : String} :
      o.kind = .bracketOpen → LinkSpans span label address →
      Spans ctx (o :: span) (.link label address)
  | view {d o : Token} {span : List Token} {label address : String} :
      d.kind = .dollar → o.kind = .bracketOpen → LinkSpans span label address →
      Spans ctx (d :: o :: span) (.view label address)
  | image {b o : Token} {span : List Token} {alt source : String} :
      b.kind = .bang → o.kind = .bracketOpen → LinkSpans span alt source →
      Spans ctx (b :: o :: span) (.image alt source)
  | stars {s s' : Token} :
      s.kind = .star → s'.kind = .star → Spans ctx [s, s'] (.text "**")
  | mark {t : Token} {c : Char} {s : String} :
      ctx.endsAt t.kind = false → t.kind.char? = some c → s.toList = [c] →
      Spans ctx [t] (.text s)
  | bang {b t : Token} :
      b.kind = .bang → ctx.endsAt t.kind = false → Spans ctx [b, t] (.text ("!" ++ t.value))
  | token {t : Token} :
      ctx.endsAt t.kind = false → Spans ctx [t] (.text t.value)

theorem kind_of_mem_mark {m : List Token} {k : Kind} {ks : List Kind}
    (h : m.map Token.kind = ks) (hk : ∀ k' ∈ ks, k' = k) {t : Token} (ht : t ∈ m) :
    t.kind = k :=
  hk t.kind (h ▸ List.mem_map_of_mem ht)

theorem Context.ne_newline_of_endsAt {ctx : Context} {k : Kind} (h : ctx.endsAt k = false) :
    k ≠ .newline := by
  rintro rfl
  simp [endsAt] at h

theorem unbroken_of_endsAt {ctx : Context} {ts : List Token}
    (h : ∀ t ∈ ts, ctx.endsAt t.kind = false) : Unbroken ts :=
  fun t ht ↦ Context.ne_newline_of_endsAt (h t ht)

theorem LinkSpans.unbroken {span : List Token} {label address : String}
    (h : LinkSpans span label address) : Unbroken span := by
  cases h with
  | @mk label address b p c hl hb hp ha hc =>
    have hmarks : Unbroken [b, p] := by simp [Unbroken, hb, hp]
    have hlast : Unbroken [c] := by simp [Unbroken, hc]
    have hall := (hl.append hmarks).append (ha.append hlast)
    simpa using hall

theorem Context.endsAt_eq_false {k : Kind} (ctx : Context) (hn : k ≠ .newline) (hp : k ≠ .pipe) :
    ctx.endsAt k = false := by
  simp [endsAt, hn, hp]

/-- Links, images and views stand within their line, fenced code between its fences, and all else
before what ends its run. -/
theorem Spans.within {ctx : Context} {span : List Token} {n : Inline} (h : Spans ctx span n) :
    (∀ t ∈ span, ctx.endsAt t.kind = false) ∨
      (Unbroken span ∧ ∃ s s', n = .link s s' ∨ n = .image s s' ∨ n = .view s s') ∨
      ∃ o body m, span = o ++ body ++ m ∧ o.map Token.kind = fence ∧ m.map Token.kind = fence ∧
        n = codeBlockOf (Token.spell body) := by
  have hmarks : ∀ {m : List Token} {k : Kind}, (∀ t ∈ m, t.kind = k) → k ≠ .newline → k ≠ .pipe →
      ∀ t ∈ m, ctx.endsAt t.kind = false := by
    intro m k hm hn hp t ht
    rw [hm t ht]
    exact ctx.endsAt_eq_false hn hp
  -- a body before the end, between marks that end nothing
  have hmarked : ∀ {o body m : List Token} {k : Kind} {ks ks' : List Kind},
      o.map Token.kind = ks → m.map Token.kind = ks' → (∀ k' ∈ ks, k' = k) →
      (∀ k' ∈ ks', k' = k) → k ≠ .newline → k ≠ .pipe →
      (∀ t ∈ body, ctx.endsAt t.kind = false) →
      ∀ t ∈ o ++ body ++ m, ctx.endsAt t.kind = false := by
    intro o body m k ks ks' ho hm hks hks' hn hp hb
    have ho' := hmarks (fun t ht ↦ kind_of_mem_mark ho hks ht) hn hp
    have hm' := hmarks (fun t ht ↦ kind_of_mem_mark hm hks' ht) hn hp
    exact List.forall_mem_append.2 ⟨List.forall_mem_append.2 ⟨ho', hb⟩, hm'⟩
  cases h with
  | @heading h prose hh hp hl =>
    have hh' := hmarks (m := [h]) (k := .hashtag) (by simp [hh]) (by decide) (by decide)
    have hp' := hmarks hp (by decide) (by decide)
    exact .inl (List.forall_mem_append.2 ⟨hh', hp'⟩)
  | @subheading h h' marks prose hh hh' hm hp hl =>
    have ho := hmarks (m := [h, h']) (k := .hashtag) (by simp [hh, hh']) (by decide) (by decide)
    have hm' := hmarks hm (by decide) (by decide)
    have hp' := hmarks hp (by decide) (by decide)
    exact .inl (List.forall_mem_append.2 ⟨ho, List.forall_mem_append.2 ⟨hm', hp'⟩⟩)
  | bold ho hm hb =>
    exact .inl (hmarked ho hm.kinds (k := .star) (by simp) (by simp) (by decide) (by decide) hb)
  | italic ho hm hb hne =>
    exact .inl (hmarked ho hm.kinds (k := .star) (by simp) (by simp) (by decide) (by decide) hb)
  | code ho hm hb =>
    exact .inl (hmarked ho hm.kinds (k := .backtick) (by simp) (by simp) (by decide) (by decide) hb)
  | codeBlock ho hm => exact .inr (.inr ⟨_, _, _, rfl, ho, hm.kinds, rfl⟩)
  | link ho hs => exact .inr (.inl ⟨hs.unbroken.cons (by simp [ho]), _, _, .inl rfl⟩)
  | view hd ho hs =>
    exact .inr (.inl ⟨(hs.unbroken.cons (by simp [ho])).cons (by simp [hd]), _, _,
      .inr (.inr rfl)⟩)
  | image hb ho hs =>
    exact .inr (.inl ⟨(hs.unbroken.cons (by simp [ho])).cons (by simp [hb]), _, _,
      .inr (.inl rfl)⟩)
  | @stars s s' hs hs' =>
    exact .inl (hmarks (m := [s, s']) (k := .star) (by simp [hs, hs']) (by decide) (by decide))
  | mark ht hc hs => exact .inl (by simpa using ht)
  | @bang b t hb ht =>
    have hb' := hmarks (m := [b]) (k := .bang) (by simp [hb]) (by decide) (by decide)
    exact .inl (List.forall_mem_append.2 ⟨hb', by simpa using ht⟩)
  | token ht => exact .inl (by simpa using ht)

/-- Only fenced code goes on after the end of a line. -/
theorem Spans.unbroken_or_fence {ctx : Context} {span : List Token} {n : Inline}
    (h : Spans ctx span n) :
    Unbroken span ∨ ∃ o body m, span = o ++ body ++ m ∧ o.map Token.kind = fence ∧
      m.map Token.kind = fence := by
  rcases h.within with hin | ⟨hu, -⟩ | ⟨o, body, m, hspan, ho, hm, -⟩
  · exact .inl (unbroken_of_endsAt hin)
  · exact .inl hu
  · exact .inr ⟨o, body, m, hspan, ho, hm⟩

theorem Spans.ne_nil {ctx : Context} {span : List Token} {n : Inline} (h : Spans ctx span n) :
    span ≠ [] := by
  have hmark : ∀ {m : List Token} {k : Kind} {ks : List Kind},
      m.map Token.kind = k :: ks → m ≠ [] := by
    rintro m k ks hm rfl
    simp at hm
  cases h with
  | bold ho _ _ => simp [hmark ho]
  | italic ho _ _ _ => simp [hmark ho]
  | code ho _ _ => simp [hmark ho]
  | codeBlock ho _ => simp [hmark ho]
  | _ => simp

theorem readTitle_spans (level : Nat) (ts : List Token) :
    ∃ marks prose, (∀ t ∈ marks, t.kind = .hashtag) ∧ (∀ t ∈ prose, t.kind = .text) ∧
      prose.length ≤ 1 ∧ ts = marks ++ prose ++ (readTitle level ts).2 ∧
      (readTitle level ts).1 = .heading level (Text.trim (Token.spell (marks ++ prose))) := by
  have hmarks : ∀ t ∈ ts.takeWhile (·.kind == .hashtag), t.kind = .hashtag := by
    intro t ht
    simpa using List.mem_takeWhile_imp ht
  have hts := List.takeWhile_append_dropWhile (p := (·.kind == .hashtag)) (l := ts)
  unfold readTitle
  split
  · next v rest h =>
    refine ⟨_, [⟨.text, v⟩], hmarks, by simp, by simp, ?_, by simp⟩
    rw [h] at hts
    simpa using hts.symm
  · exact ⟨_, [], hmarks, by simp, by simp, by simp, by simp⟩

theorem readHeading_spans {ctx : Context} {t : Token} (ht : t.kind = .hashtag) (ts : List Token) :
    ∃ span, t :: ts = span ++ (readHeading ts).2 ∧ Spans ctx span (readHeading ts).1 := by
  unfold readHeading
  split
  · next v rest =>
    obtain ⟨marks, prose, hm, hp, hl, hts, hn⟩ := readTitle_spans 2 rest
    have hspan : t :: ⟨.hashtag, v⟩ :: rest =
        t :: ⟨.hashtag, v⟩ :: (marks ++ prose) ++ (readTitle 2 rest).2 := by
      rw [List.cons_append, List.cons_append, ← hts]
    refine ⟨_, hspan, ?_⟩
    rw [hn]
    exact .subheading ht rfl hm hp hl
  · next hne =>
    obtain ⟨marks, prose, hm, hp, hl, hts, hn⟩ := readTitle_spans 1 ts
    have hnil : marks = [] := by
      cases marks with
      | nil => rfl
      | cons m marks =>
        obtain ⟨k, v⟩ := m
        obtain rfl : k = .hashtag := hm ⟨k, v⟩ (by simp)
        exact absurd hts (hne _ _)
    subst hnil
    refine ⟨t :: prose, by rw [List.cons_append, ← List.nil_append prose, ← hts], ?_⟩
    rw [hn]
    exact .heading ht hp hl

theorem readEmphasis_spans {ctx : Context} {t : Token} (ht : t.kind = .star) (ts : List Token) :
    ∃ span, t :: ts = span ++ (readEmphasis ctx ts).2 ∧ Spans ctx span (readEmphasis ctx ts).1 := by
  have hc : ctx.endsAt t.kind = false := ctx.endsAt_eq_false (by simp [ht]) (by simp [ht])
  unfold readEmphasis
  split
  · next v rest =>
    split
    · next body rest h =>
      obtain ⟨m, hm, hb, rfl⟩ := upTo_spans h
      refine ⟨[t, ⟨.star, v⟩] ++ body ++ m, by simp, .bold (by simp [ht]) hm hb⟩
    · exact ⟨[t, ⟨.star, v⟩], rfl, .stars ht rfl⟩
  · next hne =>
    split
    · next body rest h =>
      obtain ⟨m, hm, hb, rfl⟩ := upTo_spans h
      refine ⟨[t] ++ body ++ m, by simp, .italic (by simp [ht]) hm hb ?_⟩
      -- with nothing between the stars they would have been read as one mark
      rintro rfl
      obtain ⟨s, rfl, hs⟩ := List.map_eq_singleton_iff.1 hm.kinds
      obtain ⟨k, v⟩ := s
      obtain rfl : k = .star := hs
      exact hne _ _ rfl
    · exact ⟨[t], rfl, .mark hc (by rw [ht]; rfl) rfl⟩

theorem readCode_spans {ctx : Context} {t : Token} {ts rest : List Token} {n : Inline}
    (ht : t.kind = .backtick) (h : readCode ctx (t :: ts) = .ok (n, rest)) :
    ∃ span, t :: ts = span ++ rest ∧ Spans ctx span n := by
  have hc : ctx.endsAt t.kind = false := ctx.endsAt_eq_false (by simp [ht]) (by simp [ht])
  unfold readCode at h
  split at h
  · next hs =>
    obtain ⟨⟨body, r⟩, hp, h⟩ := map_eq_ok_iff.1 h
    obtain ⟨rfl, rfl⟩ := Prod.mk.inj h
    obtain ⟨o, ho, hts⟩ := exists_mark_of_startsWith hs
    obtain ⟨m, hm, hr⟩ := upToFence_spans hp
    refine ⟨o ++ body ++ m, ?_, .codeBlock ho hm⟩
    rw [hts, hr]
    simp
  · split at h
    · next body r hp =>
      obtain ⟨rfl, rfl⟩ := Prod.mk.inj (Except.ok.inj h)
      obtain ⟨m, hm, hb, hts⟩ := upTo_spans hp
      refine ⟨[t] ++ body ++ m, ?_, .code (by simp [ht]) hm hb⟩
      rw [List.tail_cons] at hts
      simp [hts]
    · obtain ⟨rfl, rfl⟩ := Prod.mk.inj (Except.ok.inj h)
      exact ⟨[t], rfl, .mark hc (by rw [ht]; rfl) rfl⟩

theorem readLinkParts_spans {ts rest : List Token} {label address : String}
    (h : readLinkParts ts = .ok ((label, address), rest)) :
    ∃ span, ts = span ++ rest ∧ LinkSpans span label address := by
  unfold readLinkParts at h
  cases hl : enclosed .bracket 0 ts with
  | error e => simp [hl, bind, Except.bind] at h
  | ok p =>
    obtain ⟨body, r⟩ := p
    obtain ⟨b, hb, hbody, rfl⟩ := enclosed_spans hl
    simp only [hl, bind, Except.bind] at h
    split at h
    · next v r =>
      cases ha : enclosed .paren 0 r with
      | error e => simp [ha] at h
      | ok q =>
        obtain ⟨body', r'⟩ := q
        obtain ⟨c, hc, hbody', rfl⟩ := enclosed_spans ha
        simp only [ha, Except.ok.injEq, Prod.mk.injEq] at h
        obtain ⟨⟨rfl, rfl⟩, rfl⟩ := h
        exact ⟨body ++ b :: ⟨.parenOpen, v⟩ :: (body' ++ [c]), by simp, .mk hbody hb rfl hbody' hc⟩
    · simp at h

theorem readBangText_spans {ctx : Context} {t : Token} (ht : t.kind = .bang) (ts : List Token) :
    ∃ span, t :: ts = span ++ (readBangText ctx ts).2 ∧
      Spans ctx span (readBangText ctx ts).1 := by
  have hc : ctx.endsAt t.kind = false := ctx.endsAt_eq_false (by simp [ht]) (by simp [ht])
  have hmark : Spans ctx [t] (.text "!") := .mark hc (by rw [ht]; rfl) rfl
  unfold readBangText
  split
  · exact ⟨[t], rfl, hmark⟩
  · next u us =>
    split
    · exact ⟨[t], rfl, hmark⟩
    · next he => exact ⟨[t, u], rfl, .bang ht (by simpa using he)⟩

theorem readImage_spans {ctx : Context} {t : Token} (ht : t.kind = .bang) (ts : List Token) :
    ∃ span, t :: ts = span ++ (readImage ctx ts).2 ∧ Spans ctx span (readImage ctx ts).1 := by
  unfold readImage
  split
  · next v rest =>
    split
    · next alt source rest h =>
      obtain ⟨span, rfl, hs⟩ := readLinkParts_spans h
      exact ⟨_, rfl, .image ht rfl hs⟩
    · exact readBangText_spans ht _
  · exact readBangText_spans ht _

theorem readInline_spans {ctx : Context} {t : Token} {ts rest : List Token} {n : Inline}
    (ht : ctx.endsAt t.kind = false) (h : readInline ctx t ts = .ok (n, rest)) :
    ∃ span, t :: ts = span ++ rest ∧ Spans ctx span n := by
  unfold readInline at h
  split at h
  · next hk =>
    obtain ⟨rfl, rfl⟩ := Prod.mk.inj (Except.ok.inj h)
    exact readHeading_spans hk ts
  · next hk =>
    obtain ⟨rfl, rfl⟩ := Prod.mk.inj (Except.ok.inj h)
    exact readEmphasis_spans hk ts
  · next hk => exact readCode_spans hk h
  · next hk =>
    obtain ⟨⟨⟨label, address⟩, r⟩, hp, h⟩ := map_eq_ok_iff.1 h
    obtain ⟨rfl, rfl⟩ := Prod.mk.inj h
    obtain ⟨span, rfl, hs⟩ := readLinkParts_spans hp
    exact ⟨_, rfl, .link hk hs⟩
  · next hk =>
    split at h
    · obtain ⟨⟨⟨label, address⟩, r⟩, hp, h⟩ := map_eq_ok_iff.1 h
      obtain ⟨rfl, rfl⟩ := Prod.mk.inj h
      obtain ⟨span, rfl, hs⟩ := readLinkParts_spans hp
      exact ⟨_, rfl, .view hk rfl hs⟩
    · obtain ⟨rfl, rfl⟩ := Prod.mk.inj (Except.ok.inj h)
      exact ⟨[t], rfl, .mark ht (by rw [hk]; rfl) rfl⟩
  · next hk =>
    obtain ⟨rfl, rfl⟩ := Prod.mk.inj (Except.ok.inj h)
    exact readImage_spans hk ts
  · obtain ⟨rfl, rfl⟩ := Prod.mk.inj (Except.ok.inj h)
    exact ⟨[t], rfl, .token ht⟩

/-- The nodes of a run, each with the tokens it is read from, one after another. -/
inductive RunSpans (ctx : Context) : List Token → List Inline → Prop
  | nil : RunSpans ctx [] []
  | cons {span spans : List Token} {n : Inline} {ns : List Inline} :
      Spans ctx span n → RunSpans ctx spans ns → RunSpans ctx (span ++ spans) (n :: ns)

theorem readRun_spans {ctx : Context} {run run' : Run} {ts rest : List Token}
    (h : readRun ctx run ts = .ok (run', rest)) :
    ∃ spans ns, ts = spans ++ rest ∧ RunSpans ctx spans ns ∧ run' = ns.foldl Run.push run ∧
      ∀ t ∈ rest.head?, ctx.endsAt t.kind := by
  fun_induction readRun ctx run ts with
  | case1 run =>
    obtain ⟨rfl, rfl⟩ := Prod.mk.inj (Except.ok.inj h)
    exact ⟨[], [], rfl, .nil, rfl, by simp⟩
  | case2 run t ts ht =>
    obtain ⟨rfl, rfl⟩ := Prod.mk.inj (Except.ok.inj h)
    exact ⟨[], [], rfl, .nil, rfl, by simpa using ht⟩
  | case3 => simp at h
  | case4 run t ts ht n r hn ih =>
    obtain ⟨spans, ns, rfl, hs, hrun, hrest⟩ := ih h
    obtain ⟨span, hspan, hn⟩ := readInline_spans (by simpa using ht) hn
    exact ⟨span ++ spans, n :: ns, by rw [hspan, List.append_assoc], .cons hn hs, hrun, hrest⟩

end Folio.Markup
