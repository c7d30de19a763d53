import Folio.Proofs.Markup.Walk

namespace Folio.Markup

def Cursor.before (all ts : List Token) : Cursor :=
  ⟨all, all.length - ts.length⟩

namespace Cursor

variable {all ts : List Token}

theorem before_inBounds (all ts : List Token) : (before all ts).InBounds :=
  Nat.sub_le ..

theorem rest_before (h : ts <:+ all) : (before all ts).rest = ts := by
  obtain ⟨pre, rfl⟩ := h
  rw [rest, before, List.length_append, Nat.add_sub_cancel, List.drop_left]

theorem before_rest {c : Cursor} (h : c.InBounds) : before c.tokens c.rest = c :=
  leave_rest h

theorem kind?_before (h : ts <:+ all) : (before all ts).kind? = ts.head?.map Token.kind := by
  rw [kind?_eq_head?, rest_before h]

theorem current_before (h : ts <:+ all) : (before all ts).current = ts.head? := by
  rw [current_eq_head?, rest_before h]

end Cursor

namespace Walk

open Cursor

variable {α β : Type} {all ts us rest : List Token} {t : Token} {k : Kind}

/-- Before `ts` the walk comes to what a reader of lists gives on them. -/
def Leads (all : List Token) (m : Walk α) (ts : List Token)
    (r : Except Failure (α × List Token)) : Prop :=
  m (before all ts) = some ((before all ts).settle r)

namespace Leads

theorem pure (a : α) : Leads all (pure a) ts (.ok (a, ts)) :=
  rfl

theorem bind {m : Walk α} {n : α → Walk β} {r : Except Failure (α × List Token)}
    {s : α × List Token → Except Failure (β × List Token)} (hm : Leads all m ts r)
    (hn : ∀ a us, r = .ok (a, us) → Leads all (n a) us (s (a, us))) :
    Leads all (m >>= n) ts (r >>= s) := by
  have hbind : (m >>= n) (before all ts) =
      (m (before all ts)).bind fun p ↦ ExceptT.bindCont n p.1 p.2 := rfl
  unfold Leads at hm ⊢
  rw [hbind, hm]
  rcases r with f | ⟨a, us⟩
  · rfl
  · exact hn a us rfl

/-- A walk whose first part is known goes on from there. -/
theorem step {m : Walk α} {n : α → Walk β} {a : α} {r : Except Failure (β × List Token)}
    (hm : Leads all m ts (.ok (a, us))) (hn : Leads all (n a) us r) : Leads all (m >>= n) ts r := by
  refine bind (s := fun _ ↦ r) hm ?_
  rintro _ _ ⟨⟩
  exact hn

theorem error {m : Walk α} {n : α → Walk β} {f : Failure} (hm : Leads all m ts (.error f)) :
    Leads all (m >>= n) ts (.error f) :=
  bind (s := fun _ ↦ .error f) hm nofun

theorem map {m : Walk α} {r : Except Failure (α × List Token)} (f : α → β)
    (hm : Leads all m ts r) :
    Leads all (m >>= fun a ↦ Pure.pure (f a)) ts (r.map fun p ↦ (f p.1, p.2)) := by
  have hbind := bind (s := fun p ↦ .ok (f p.1, p.2)) hm fun a us _ ↦ pure (f a)
  rcases r with e | p <;> exact hbind

theorem fmap {m : Walk α} {r : Except Failure (α × List Token)} (f : α → β)
    (hm : Leads all m ts r) : Leads all (f <$> m) ts (r.map fun p ↦ (f p.1, p.2)) := by
  rw [map_eq_pure_bind]
  exact map f hm

end Leads

/-- Either a token of the kind stands first or none does. -/
theorem head_cases (k : Kind) (ts : List Token) :
    (∃ v rest, ts = ⟨k, v⟩ :: rest) ∨ ∀ t ∈ ts.head?, t.kind ≠ k := by
  rcases ts with _ | ⟨⟨k', v⟩, ts⟩
  · exact .inr nofun
  · by_cases hk : k' = k
    · exact .inl ⟨v, ts, by rw [hk]⟩
    · right
      rintro _ ⟨⟩
      exact hk

theorem kind_head_ne (h : ∀ t ∈ ts.head?, t.kind ≠ k) : ts.head?.map Token.kind ≠ some k := by
  intro heq
  obtain ⟨t, ht, hkind⟩ := Option.map_eq_some_iff.1 heq
  exact h t ht hkind

theorem look_leads (f : Cursor → α) : Leads all (look f) ts (.ok (f (before all ts), ts)) :=
  rfl

theorem move_leads {f : Cursor → Cursor} (h : f (before all ts) = before all us) :
    Leads all (move f) ts (.ok ((), us)) := by
  rw [Leads, move, h]
  rfl

theorem kind_leads (h : ts <:+ all) :
    Leads all (look (·.kind?)) ts (.ok (ts.head?.map Token.kind, ts)) := by
  rw [← kind?_before h]
  exact look_leads _

section Places

variable (h : t :: ts <:+ all)
include h

theorem leave_before : (before all (t :: ts)).leave ts = (before all (t :: ts)).next :=
  leave_tail (rest_before h)

theorem advance_leads : Leads all advance (t :: ts) (.ok (some t, ts)) := by
  rw [Leads, advance, settle, current_of_cons (rest_before h), advance_of_cons (rest_before h),
    leave_before h]

theorem eat_leads (ht : t.kind = k) : Leads all (eat k) (t :: ts) (.ok (true, ts)) := by
  rw [Leads, eat, settle, isAt_of_cons (rest_before h), eat_of_kind (rest_before h) ht,
    leave_before h, ht, beq_self_eq_true]

theorem expect_leads (ht : t.kind = k) : Leads all (expect k) (t :: ts) (.ok (t, ts)) := by
  rw [Leads, expect, Cursor.expect, current_of_cons (rest_before h), settle, leave_before h]
  simp only [if_pos ht]

end Places

section Places

variable (h : ts <:+ all)
include h

theorem eat_leads_of_head (hk : ∀ t ∈ ts.head?, t.kind ≠ k) :
    Leads all (eat k) ts (.ok (false, ts)) := by
  have hhead : ∀ t ∈ (before all ts).rest.head?, t.kind ≠ k := by rwa [rest_before h]
  have hat : (before all ts).isAt k = false := by
    rw [isAt, kind?_before h, beq_eq_false_iff_ne]
    exact kind_head_ne hk
  rw [Leads, eat, settle, hat, eat_of_head hhead]
  rfl

theorem expect_leads_of_head (hk : ∀ t ∈ ts.head?, t.kind ≠ k) :
    Leads all (expect k) ts (.error (.missing k ts)) := by
  have hmissing := settle_missing (α := Token) (before_inBounds all ts) k
  rw [rest_before h] at hmissing
  rw [Leads, expect, Cursor.expect, current_before h, hmissing]
  cases ts with
  | nil => rfl
  | cons t ts => simp only [List.head?_cons, if_neg (hk t rfl)]

theorem enclosed_leads (d : Delimiter) :
    Leads all (enclosed d) ts ((Markup.enclosed d 0 ts).map fun p ↦ (Token.spell p.1, p.2)) := by
  have heq := enclosed?_eq d 0 (Nat.le_refl _) (before_inBounds all ts)
  rw [Leads, enclosed, heq, slice_self, rest_before h]
  rcases Markup.enclosed d 0 ts with f | p <;> rfl

theorem upTo_leads_none {ctx : Context} {mark : List Kind} (hm : mark ≠ [])
    (hnone : Markup.upTo ctx mark ts = none) : Leads all (upTo ctx mark) ts (.ok (none, ts)) := by
  have heq := upTo?_eq ctx hm (Nat.le_refl _) (before_inBounds all ts)
  rw [Leads, upTo, heq, rest_before h, hnone, Option.elim_none, seek,
    Nat.min_eq_left (before_inBounds all ts)]
  rfl

/-- The walk stops where the mark stands, which is still ahead. -/
theorem upTo_leads_some {ctx : Context} {mark : List Kind} {body : List Token} (hm : mark ≠ [])
    (hsome : Markup.upTo ctx mark ts = some (body, rest)) :
    ∃ m, m.map Token.kind = mark ∧ m ++ rest <:+ all ∧
      Leads all (upTo ctx mark) ts (.ok (some (Token.spell body), m ++ rest)) := by
  obtain ⟨m, hfirst, -, hts⟩ := upTo_spans hsome
  have heq := upTo?_eq ctx hm (Nat.le_refl _) (before_inBounds all ts)
  have hleave := leave_of_append (before_inBounds all ts)
    ((rest_before h).trans (hts.trans (List.append_assoc ..)))
  refine ⟨m, hfirst.kinds, ?_, ?_⟩
  · exact (List.suffix_append body _).trans (List.append_assoc body m rest ▸ hts ▸ h)
  · rw [Leads, upTo, heq, rest_before h, hsome, Option.elim_some, slice_self, settle, hleave]
    rfl

theorem upToFence_leads_error {f : Failure} (herror : Markup.upToFence ts = .error f) :
    Leads all upToFence ts (.error f) := by
  have heq := upToFence?_eq (Nat.le_refl _) (before_inBounds all ts)
  rw [Leads, upToFence, heq, rest_before h, herror]
  rfl

theorem upToFence_leads_ok {body : List Token} (hok : Markup.upToFence ts = .ok (body, rest)) :
    ∃ m, m.map Token.kind = fence ∧ m ++ rest <:+ all ∧
      Leads all upToFence ts (.ok (Token.spell body, m ++ rest)) := by
  obtain ⟨m, hfirst, hts⟩ := upToFence_spans hok
  have heq := upToFence?_eq (Nat.le_refl _) (before_inBounds all ts)
  have hleave := leave_of_append (before_inBounds all ts)
    ((rest_before h).trans (hts.trans (List.append_assoc ..)))
  refine ⟨m, hfirst.kinds, ?_, ?_⟩
  · exact (List.suffix_append body _).trans (List.append_assoc body m rest ▸ hts ▸ h)
  · rw [Leads, upToFence, heq, rest_before h, hok, slice_self, settle, hleave]
    rfl

theorem title_leads : ∃ title rest, Leads all Walk.title ts (.ok (Token.spell title, rest)) ∧
    ∀ level, readTitle level ts = (.heading level (Text.trim (Token.spell title)), rest) := by
  obtain ⟨title, rest, heq, hread⟩ := title?_eq (before_inBounds all ts)
  rw [rest_before h] at hread
  refine ⟨title, rest, ?_, hread⟩
  rw [Leads, Walk.title, heq]
  rfl

end Places

section Inlines

theorem heading_leads (h : t :: ts <:+ all) (ht : t.kind = .hashtag) :
    Leads all heading (t :: ts) (.ok (readHeading ts)) := by
  have hs := (List.suffix_cons t ts).trans h
  refine (eat_leads h ht).step ?_
  unfold readHeading
  split
  · next v us =>
    obtain ⟨title, rest, htitle, hread⟩ := title_leads ((List.suffix_cons _ us).trans hs)
    refine (eat_leads hs rfl).step ?_
    rw [hread]
    exact htitle.step (.pure _)
  · next hne =>
    obtain ⟨title, rest, htitle, hread⟩ := title_leads hs
    refine (eat_leads_of_head hs ?_).step ?_
    · rintro ⟨k, v⟩ hu rfl
      obtain ⟨us, rfl⟩ := List.head?_eq_some_iff.1 hu
      exact hne v us rfl
    · rw [hread]
      exact htitle.step (.pure _)

theorem emphasis_leads (h : t :: ts <:+ all) (ht : t.kind = .star) (ctx : Context) :
    Leads all (emphasis ctx) (t :: ts) (.ok (readEmphasis ctx ts)) := by
  have hs := (List.suffix_cons t ts).trans h
  refine (eat_leads h ht).step ?_
  unfold readEmphasis
  split
  · next v us =>
    have hu := (List.suffix_cons _ us).trans hs
    refine (eat_leads hs rfl).step ?_
    rw [if_pos rfl]
    split
    · next body rest hupTo =>
      obtain ⟨m, hm, hsuffix, hleads⟩ := upTo_leads_some hu (by simp) hupTo
      obtain ⟨a, m, rfl, ha, hm⟩ := List.map_eq_cons_iff.1 hm
      obtain ⟨b, rfl, hb⟩ := List.map_eq_singleton_iff.1 hm
      refine hleads.step ?_
      refine (eat_leads hsuffix ha).step ?_
      exact (eat_leads ((List.suffix_cons ..).trans hsuffix) hb).step (.pure _)
    · next hupTo => exact (upTo_leads_none hu (by simp) hupTo).step (.pure _)
  · next hne =>
    refine (eat_leads_of_head hs ?_).step ?_
    · rintro ⟨k, v⟩ hu rfl
      obtain ⟨us, rfl⟩ := List.head?_eq_some_iff.1 hu
      exact hne v us rfl
    · rw [if_neg Bool.false_ne_true]
      split
      · next body rest hupTo =>
        obtain ⟨m, hm, hsuffix, hleads⟩ := upTo_leads_some hs (by simp) hupTo
        obtain ⟨a, rfl, ha⟩ := List.map_eq_singleton_iff.1 hm
        refine hleads.step ?_
        exact (eat_leads hsuffix ha).step (.pure _)
      · next hupTo => exact (upTo_leads_none hs (by simp) hupTo).step (.pure _)

theorem eatFence_leads {m : List Token} (hm : m.map Token.kind = fence) (h : m ++ rest <:+ all) :
    Leads all eatFence (m ++ rest) (.ok ((), rest)) := by
  obtain ⟨a, m, rfl, ha, hm⟩ := List.map_eq_cons_iff.1 hm
  obtain ⟨b, m, rfl, hb, hm⟩ := List.map_eq_cons_iff.1 hm
  obtain ⟨c, rfl, hc⟩ := List.map_eq_singleton_iff.1 hm
  have hb' := (List.suffix_cons _ _).trans h
  have hc' := (List.suffix_cons _ _).trans hb'
  exact (eat_leads h ha).step ((eat_leads hb' hb).step ((eat_leads hc' hc).step (.pure _)))

theorem code_leads (h : t :: ts <:+ all) (ht : t.kind = .backtick) (ctx : Context) :
    Leads all (code ctx) (t :: ts) (readCode ctx (t :: ts)) := by
  have hs := (List.suffix_cons t ts).trans h
  have hat : (before all (t :: ts)).isAtSequence fence = startsWith fence (t :: ts) :=
    isAtSequence_eq (rest_before h) fence
  refine (look_leads _).step ?_
  unfold readCode
  rw [hat]
  split
  · next hfence =>
    obtain ⟨m, hm, hts⟩ := exists_mark_of_startsWith hfence
    rw [hts] at h ⊢
    have hbehind := (List.suffix_append m _).trans h
    have hdrop : (m ++ (t :: ts).drop fence.length).drop fence.length =
        (t :: ts).drop fence.length := by
      rw [← hts]
    rw [hdrop]
    refine (eatFence_leads hm h).step ?_
    cases hread : Markup.upToFence ((t :: ts).drop fence.length) with
    | error f => exact (upToFence_leads_error hbehind hread).error
    | ok p =>
      obtain ⟨m', hm', hsuffix, hleads⟩ := upToFence_leads_ok hbehind hread
      exact hleads.step ((eatFence_leads hm' hsuffix).step (.pure _))
  · refine (eat_leads h ht).step ?_
    rw [List.tail_cons]
    split
    · next body rest hupTo =>
      obtain ⟨m, hm, hsuffix, hleads⟩ := upTo_leads_some hs (by simp) hupTo
      obtain ⟨a, rfl, ha⟩ := List.map_eq_singleton_iff.1 hm
      refine hleads.step ?_
      exact (eat_leads hsuffix ha).step (.pure _)
    · next hupTo => exact (upTo_leads_none hs (by simp) hupTo).step (.pure _)

theorem linkParts_leads (h : t :: ts <:+ all) (ht : t.kind = .bracketOpen) :
    Leads all linkParts (t :: ts) (readLinkParts ts) := by
  have hs := (List.suffix_cons t ts).trans h
  refine (expect_leads h ht).step ?_
  unfold readLinkParts
  have hlabel := enclosed_leads hs .bracket
  cases hread : Markup.enclosed .bracket 0 ts with
  | error f =>
    rw [hread] at hlabel
    exact hlabel.error
  | ok p =>
    obtain ⟨label, us⟩ := p
    rw [hread] at hlabel
    have hu := (enclosed_suffix hread).trans hs
    refine hlabel.step ?_
    dsimp only [bind, Except.bind]
    split
    · next v rest =>
      refine (expect_leads hu rfl).step ?_
      have haddress := enclosed_leads ((List.suffix_cons _ rest).trans hu) .paren
      cases hread' : Markup.enclosed .paren 0 rest with
      | error f =>
        rw [hread'] at haddress
        exact haddress.error
      | ok q =>
        rw [hread'] at haddress
        exact haddress.step (.pure _)
    · next hne =>
      refine (expect_leads_of_head hu ?_).error
      rintro ⟨k, v⟩ hv rfl
      obtain ⟨rest, rfl⟩ := List.head?_eq_some_iff.1 hv
      exact hne v rest rfl

theorem link_leads (h : t :: ts <:+ all) (ht : t.kind = .bracketOpen) :
    Leads all link (t :: ts) ((readLinkParts ts).map fun p ↦ (.link p.1.1 p.1.2, p.2)) :=
  (linkParts_leads h ht).map fun p : String × String ↦ Inline.link p.1 p.2

theorem peek_before (h : t :: ts <:+ all) :
    (before all (t :: ts)).peek 1 = ts.head?.map Token.kind := by
  have hrest := congrArg (·[1]?) (rest_before h)
  simp only [rest, List.getElem?_drop, List.getElem?_cons_succ] at hrest
  rw [peek, hrest, List.head?_eq_getElem?]

theorem view_leads (h : t :: ts <:+ all) (ht : t.kind = .dollar) {ctx : Context} :
    Leads all view (t :: ts) (readInline ctx t ts) := by
  have hs := (List.suffix_cons t ts).trans h
  simp only [readInline, ht]
  refine (look_leads _).step ?_
  rw [peek_before h]
  rcases head_cases .bracketOpen ts with ⟨v, rest, rfl⟩ | hne
  · exact (eat_leads h ht).step
      ((linkParts_leads hs rfl).map fun p : String × String ↦ Inline.view p.1 p.2)
  · rw [if_neg (kind_head_ne hne)]
    split
    · exact absurd rfl (hne _ rfl)
    · exact (advance_leads h).step (.pure _)

theorem attempt_leads_ok {m : Walk α} {a : α} (hm : Leads all m ts (.ok (a, us))) :
    Leads all (attempt m) ts (.ok (some a, us)) := by
  unfold Leads at hm
  rw [Leads, attempt, hm]
  rfl

theorem attempt_leads_error {m : Walk α} {f : Failure} (hm : Leads all m ts (.error f)) :
    Leads all (attempt m) ts (.ok (none, f.unread)) := by
  unfold Leads at hm
  rw [Leads, attempt, hm]
  rfl

theorem seek_before (all ts us : List Token) :
    (before all us).seek (before all ts).index = before all ts := by
  have hmin := Nat.min_eq_left (before_inBounds all ts)
  exact congrArg (Cursor.mk all) hmin

theorem endsRun_leads (h : ts <:+ all) (ctx : Context) :
    Leads all (endsRun ctx) ts (.ok (ts.head?.all (ctx.endsAt ·.kind), ts)) := by
  have hends : (before all ts).kind?.all ctx.endsAt = ts.head?.all (ctx.endsAt ·.kind) := by
    rw [kind?_before h]
    cases ts <;> rfl
  rw [← hends]
  exact look_leads _

theorem bangText_leads (h : ts <:+ all) (ctx : Context) :
    Leads all (bangText ctx) ts (.ok (readBangText ctx ts)) := by
  refine (endsRun_leads h ctx).step ?_
  cases ts with
  | nil => exact .pure _
  | cons t ts =>
    rw [readBangText, List.head?_cons, Option.all_some]
    by_cases hends : ctx.endsAt t.kind
    · rw [if_pos hends, if_pos hends]
      exact .pure _
    · rw [if_neg hends, if_neg hends]
      exact (advance_leads h).step (.pure _)

theorem image_leads (h : t :: ts <:+ all) (ht : t.kind = .bang) (ctx : Context) :
    Leads all (image ctx) (t :: ts) (.ok (readImage ctx ts)) := by
  have hs := (List.suffix_cons t ts).trans h
  refine (eat_leads h ht).step ?_
  refine (look_leads _).step ?_
  refine (look_leads _).step ?_
  rw [isAt, kind?_before hs]
  rcases head_cases .bracketOpen ts with ⟨v, rest, rfl⟩ | hne
  · have hparts := linkParts_leads hs rfl
    rw [if_pos (by simp), readImage]
    cases hread : readLinkParts rest with
    | ok p =>
      rw [hread] at hparts
      exact (attempt_leads_ok hparts).step (.pure _)
    | error f =>
      rw [hread] at hparts
      refine (attempt_leads_error hparts).step ?_
      exact (move_leads (seek_before ..)).step (bangText_leads hs ctx)
  · rw [if_neg (by simpa using kind_head_ne hne)]
    unfold readImage
    split
    · exact absurd rfl (hne _ rfl)
    · exact bangText_leads hs ctx

theorem inline_leads (h : t :: ts <:+ all) (ctx : Context) :
    Leads all (inline ctx) (t :: ts) ((readInline ctx t ts).map fun p ↦ (some p.1, p.2)) := by
  refine (kind_leads h).step ?_
  rw [List.head?_cons, Option.map_some]
  cases ht : t.kind with
  | hashtag => simpa only [readInline, ht] using (heading_leads h ht).fmap some
  | star => simpa only [readInline, ht] using (emphasis_leads h ht ctx).fmap some
  | backtick => simpa only [readInline, ht] using (code_leads h ht ctx).fmap some
  | bracketOpen => simpa only [readInline, ht] using (link_leads h ht).fmap some
  | dollar => exact (view_leads h ht).fmap some
  | bang => simpa only [readInline, ht] using (image_leads h ht ctx).fmap some
  | _ =>
    simp only [readInline, ht]
    exact (advance_leads h).step (.pure _)

end Inlines

end Walk

end Folio.Markup
