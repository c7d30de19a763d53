import Folio.Proofs.Markup.Braces
import Folio.Proofs.Markup.Conservation
import Folio.Proofs.Markup.Locality

namespace Folio.Markup

structure Plain (ts : List Token) : Prop where
  link : ∀ t ∈ ts, t.kind ≠ .bracketOpen
  fence : ¬ fence <:+: ts.map Token.kind
  endsLine : EndsLine ts

theorem Plain.of_suffix {ts us : List Token} (h : Plain ts) (hs : us <:+ ts) : Plain us where
  link t ht := h.link t (hs.subset ht)
  fence hf := h.fence (hf.trans (hs.map _).isInfix)
  endsLine := h.endsLine.of_suffix hs

theorem LinkOpen.exists_bracketOpen {before : List Token} (h : LinkOpen before) :
    ∃ o ∈ before, o.kind = .bracketOpen := by
  obtain ⟨pre, o, line, rfl, ho, -⟩ := h
  exact ⟨o, by simp, ho⟩

/-- Only links and fences are refused. -/
theorem not_fails {ts : List Token} (hl : ∀ t ∈ ts, t.kind ≠ .bracketOpen)
    (hf : ¬ fence <:+: ts.map Token.kind) (f : Failure) : ¬ Fails ts f := by
  rintro ⟨before, rfl, he⟩
  cases he with
  | closing d ho _ =>
    obtain ⟨o, ho, hk⟩ := ho.exists_bracketOpen
    exact hl o (by simp [ho]) hk
  | address ho _ _ =>
    obtain ⟨o, ho, hk⟩ := ho.exists_bracketOpen
    exact hl o (List.mem_append_left _ ho) hk
  | fence h =>
    refine hf (h.trans ?_)
    rw [List.map_append]
    exact (List.prefix_append _ _).isInfix

/-- No line of plain tokens is refused. -/
theorem Plain.not_fails {ts : List Token} (h : Plain ts) (f : Failure) : ¬ Fails ts f :=
  Markup.not_fails h.link h.fence f

theorem RunSpans.unbroken {ctx : Context} {spans : List Token} {ns : List Inline}
    (h : RunSpans ctx spans ns) (hf : ¬ fence <:+: spans.map Token.kind) : Unbroken spans := by
  induction h with
  | nil => simp [Unbroken]
  | @cons span spans n ns hs hrun ih =>
    rw [List.map_append] at hf
    have hspans := ih fun hf' ↦ hf (hf'.trans (List.suffix_append _ _).isInfix)
    rcases hs.unbroken_or_fence with hspan | ⟨o, body, m, rfl, ho, -⟩
    · exact hspan.append hspans
    · refine absurd ?_ hf
      rw [List.map_append, List.map_append, ho, List.append_assoc, List.append_assoc]
      exact (List.prefix_append _ _).isInfix

theorem readRun_line {ctx : Context} {run run' : Run} {ts rest : List Token} (hp : Plain ts)
    (h : readRun ctx run ts = .ok (run', rest)) :
    ∃ line, ts = line ++ rest ∧ Unbroken line ∧ ∀ t ∈ rest.head?, ctx.endsAt t.kind := by
  obtain ⟨spans, ns, rfl, hs, -, hrest⟩ := readRun_spans h
  refine ⟨spans, rfl, hs.unbroken fun hf ↦ hp.fence ?_, hrest⟩
  rw [List.map_append]
  exact hf.trans (List.prefix_append _ _).isInfix

/-- Tokens from one beginning of a line to another that hold no braces of segments. -/
structure WholeLines (ts : List Token) : Prop where
  braces : startBraces true ts = []
  start : atStart true ts = true

theorem WholeLines.nil : WholeLines [] :=
  ⟨rfl, rfl⟩

theorem WholeLines.append {ts us : List Token} (h : WholeLines ts) (h' : WholeLines us) :
    WholeLines (ts ++ us) := by
  refine ⟨?_, ?_⟩
  · rw [startBraces_append, h.start, h.braces, h'.braces, List.append_nil]
  · rw [atStart_append, h.start, h'.start]

theorem Unbroken.startBraces_line {line : List Token} (h : Unbroken line) (v : String) :
    startBraces false (line ++ [⟨.newline, v⟩]) = [] ∧
      atStart false (line ++ [⟨.newline, v⟩]) = true := by
  induction line with
  | nil => exact ⟨rfl, rfl⟩
  | cons t line ih =>
    have ht : startsAfter false t.kind = false := by
      simpa [startsAfter] using h t (by simp)
    have hrest := ih fun u hu ↦ h u (by simp [hu])
    simpa [startBraces, atStart, ht] using hrest

/-- A line that begins with no brace, up to its end. -/
theorem Unbroken.wholeLines {line rest : List Token} (h : Unbroken line)
    (hh : ∀ t ∈ line.head?, t.kind.brace? = none) (hne : rest ≠ [])
    (hr : ∀ t ∈ rest.head?, t.kind = .newline) :
    ∃ done, line ++ rest = done ++ dropNewline rest ∧ WholeLines done := by
  obtain ⟨⟨k, v⟩, rest, rfl⟩ := List.exists_cons_of_ne_nil hne
  obtain rfl : k = .newline := hr _ rfl
  refine ⟨line ++ [⟨.newline, v⟩], by simp [dropNewline], ?_⟩
  cases line with
  | nil => exact ⟨rfl, rfl⟩
  | cons t line =>
    have hb : t.kind.brace? = none := hh t rfl
    have ht : startsAfter true t.kind = false := by
      simpa [startsAfter, hb] using h t (by simp)
    have hline : Unbroken line := fun u hu ↦ h u (by simp [hu])
    obtain ⟨hbraces, hstart⟩ := hline.startBraces_line v
    exact ⟨by simpa [startBraces, hb, ht] using hbraces, by simpa [atStart, ht] using hstart⟩

theorem LineReader.Local.wholeLines {α : Type} {r : LineReader α} (h : r.Local)
    (hmark : r.mark.brace? = none)
    (hline : ∀ {ts rest a}, Plain ts → r.read ts = .ok (a, rest) →
      ∃ line, ts = line ++ rest ∧ Unbroken line ∧ ∀ t ∈ rest.head?, t.kind = .newline)
    {ts rest : List Token} {as : List α} (hp : Plain ts) (hts : r.lines ts = .ok (as, rest)) :
    ∃ done, ts = done ++ rest ∧ WholeLines done := by
  fun_induction lines r ts generalizing as with
  | case1 | case4 =>
    obtain ⟨-, rfl⟩ := Prod.mk.inj (Except.ok.inj hts)
    exact ⟨[], rfl, .nil⟩
  | case2 => simp at hts
  | case3 t ts ht a left hr ih =>
    obtain ⟨p, hq, hts⟩ := map_eq_ok_iff.1 hts
    obtain ⟨-, rfl⟩ := Prod.mk.inj hts
    have hp' := hp.of_suffix (List.suffix_cons ..)
    have hne := h.rest_ne_nil hp'.endsLine (hp.endsLine.ne_nil (ht ▸ h.mark_ne)) hr
    obtain ⟨line, rfl, hunbroken, hhead⟩ := hline hp' hr
    have hwhole : Unbroken (t :: line) := hunbroken.cons (ht ▸ h.mark_ne)
    have hbrace : ∀ u ∈ (t :: line).head?, u.kind.brace? = none := by
      rintro u ⟨⟩
      exact ht ▸ hmark
    obtain ⟨done, hdone, hlines⟩ := hwhole.wholeLines hbrace hne hhead
    obtain ⟨done', hdone', hlines'⟩ := ih (hp'.of_suffix ((dropNewline_suffix left).trans
      (List.suffix_append ..))) hq
    refine ⟨done ++ done', ?_, hlines.append hlines'⟩
    rw [← List.cons_append, hdone, hdone', List.append_assoc]

theorem itemLines_line {ts rest : List Token} {item : Run} (hp : Plain ts)
    (h : itemLines.read ts = .ok (item, rest)) :
    ∃ line, ts = line ++ rest ∧ Unbroken line ∧ ∀ t ∈ rest.head?, t.kind = .newline := by
  obtain ⟨p, hr, h⟩ := map_eq_ok_iff.1 h
  obtain ⟨-, rfl⟩ := Prod.mk.inj h
  obtain ⟨line, hts, hline, hhead⟩ := readRun_line hp hr
  exact ⟨line, hts, hline, by simpa [Context.endsAt] using hhead⟩

theorem readCells_line {ts rest : List Token} {cells : List Run} (hp : Plain ts)
    (h : readCells ts = .ok (cells, rest)) :
    ∃ line, ts = line ++ rest ∧ Unbroken line ∧ ∀ t ∈ rest.head?, t.kind = .newline := by
  fun_induction readCells ts generalizing cells with
  | case1 => simp at h
  | case2 ts run v r hr hend =>
    obtain ⟨-, rfl⟩ := Prod.mk.inj (Except.ok.inj h)
    obtain ⟨line, rfl, hline, -⟩ := readRun_line hp hr
    have hpipe : Unbroken [⟨.pipe, v⟩] := by simp [Unbroken]
    refine ⟨line ++ [⟨.pipe, v⟩], by simp, hline.append hpipe, ?_⟩
    rintro t ht
    rw [ht] at hend
    simpa using (Bool.and_eq_true_iff.1 hend).2
  | case3 ts run v r hr _ ih =>
    obtain ⟨p, hq, h⟩ := map_eq_ok_iff.1 h
    obtain ⟨-, rfl⟩ := Prod.mk.inj h
    obtain ⟨line, rfl, hline, -⟩ := readRun_line hp hr
    have hr' : r <:+ line ++ ⟨.pipe, v⟩ :: r :=
      (List.suffix_cons ..).trans (List.suffix_append ..)
    obtain ⟨line', rfl, hline', hhead⟩ := ih (hp.of_suffix hr') hq
    exact ⟨line ++ ⟨.pipe, v⟩ :: line', by simp, hline.append (hline'.cons (by simp)), hhead⟩
  | case4 ts run r hpipe hr =>
    obtain ⟨-, rfl⟩ := Prod.mk.inj (Except.ok.inj h)
    obtain ⟨line, rfl, hline, hhead⟩ := readRun_line hp hr
    refine ⟨line, rfl, hline, ?_⟩
    intro t ht
    obtain ⟨us, rfl⟩ := List.head?_eq_some_iff.1 ht
    obtain ⟨k, v⟩ := t
    rcases Bool.or_eq_true_iff.1 (hhead _ ht) with hk | hk
    · simpa using hk
    · obtain rfl : k = .pipe := by simpa using (Bool.and_eq_true_iff.1 hk).1
      exact (hpipe _ _ rfl).elim

/-- Whatever is no segment takes whole lines and is worth no braces. -/
theorem readLeaf_wholeLines {t : Token} {ts rest : List Token} {b : Option Block}
    (hp : Plain (t :: ts)) (ht : t.kind.brace? = none)
    (h : readLeaf (t :: ts) = .ok (b, rest)) :
    ∃ done, t :: ts = done ++ rest ∧ WholeLines done := by
  unfold readLeaf at h
  split at h
  · obtain ⟨p, hq, h⟩ := map_eq_ok_iff.1 h
    obtain ⟨-, rfl⟩ := Prod.mk.inj h
    exact itemLines_local.wholeLines rfl itemLines_line hp hq
  · obtain ⟨p, hq, h⟩ := map_eq_ok_iff.1 h
    obtain ⟨q, hlines, rfl⟩ := map_eq_ok_iff.1 hq
    obtain ⟨-, rfl⟩ := Prod.mk.inj h
    exact rowLines_local.wholeLines rfl readCells_line hp hlines
  · obtain ⟨⟨run, r⟩, hr, h⟩ := map_eq_ok_iff.1 h
    obtain ⟨-, rfl⟩ := Prod.mk.inj h
    have hne := readRun_rest_ne_nil hp.endsLine (by simp) hr
    obtain ⟨line, hts, hline, hhead⟩ := readRun_line hp hr
    rw [hts]
    refine hline.wholeLines ?_ hne (by simpa [Context.endsAt] using hhead)
    intro u hu
    have hu' : u ∈ (t :: ts).head? := by
      rw [hts]
      exact List.mem_head?_append_of_mem_head? hu
    obtain rfl := Option.some.inj hu'
    exact ht

theorem readLeaf_braces {ts rest : List Token} {b : Option Block}
    (h : readLeaf ts = .ok (b, rest)) : Block.bracesAll b.toList = [] := by
  unfold readLeaf at h
  split at h
  · obtain ⟨p, -, h⟩ := map_eq_ok_iff.1 h
    obtain ⟨rfl, -⟩ := Prod.mk.inj h
    rfl
  · obtain ⟨p, -, h⟩ := map_eq_ok_iff.1 h
    obtain ⟨rfl, -⟩ := Prod.mk.inj h
    split <;> rfl
  · obtain ⟨p, -, h⟩ := map_eq_ok_iff.1 h
    obtain ⟨rfl, -⟩ := Prod.mk.inj h
    split <;> rfl

theorem Kind.brace?_eq_none {k : Kind} (ho : k ≠ .braceOpen) (hc : k ≠ .braceClose) :
    k.brace? = none := by
  unfold brace?
  split
  · exact absurd rfl ho
  · exact absurd rfl hc
  · rfl

def braceAccount : Account Plain where
  blocks := Block.bracesAll
  tokens := startBraces true
  blocks_append := bracesAll_append
  blocks_segment bs := by simp [Block.bracesAll, Block.braces]
  tokens_nil := rfl
  suffix := Plain.of_suffix
  tokens_open _ hk := by simp [startBraces, startsAfter, Kind.brace?, hk]
  tokens_close _ hk := by simp [startBraces, startsAfter, Kind.brace?, hk]
  leaf hp ho hc h := by
    obtain ⟨done, hts, hlines⟩ := readLeaf_wholeLines hp (Kind.brace?_eq_none ho hc) h
    rw [hts, startBraces_append, hlines.braces, hlines.start, readLeaf_braces h]

/-- What was read of `all` up to `ts` ends where a block may begin, and its braces are those of
the outline. -/
def Reached (all : List Token) (o : Outline) (ts : List Token) : Prop :=
  ∃ done, all = done ++ ts ∧ atStart true done = true ∧
    startBraces true done = braceAccount.outline o

/-- Reading `all` has come to `ts`, and every open segment was reached at its brace. -/
structure Reading (all : List Token) (o : Outline) (ts : List Token) : Prop where
  here : Reached all o ts
  placed : o.Placed all
  opened : ∀ s outer, s :: outer <:+ o.opened → Reached all ⟨outer, s.before⟩ s.opening

theorem Reading.start (all : List Token) : Reading all .start all := by
  refine ⟨⟨[], rfl, rfl, rfl⟩, ?_, ?_⟩
  · simp [Outline.Placed, Outline.start]
  · intro s outer hs
    simp [Outline.start] at hs

theorem Reached.suffix {all ts : List Token} {o : Outline} (h : Reached all o ts) :
    ts <:+ all := by
  obtain ⟨done, hts, -⟩ := h
  exact ⟨done, hts.symm⟩

theorem step_atStart {o o' : Outline} {t : Token} {ts rest : List Token} (hp : Plain (t :: ts))
    (h : o.step t ts = .ok (o', rest)) :
    ∃ done, t :: ts = done ++ rest ∧ atStart true done = true := by
  unfold Outline.step at h
  split at h
  · next hk =>
    obtain ⟨-, rfl⟩ := Prod.mk.inj (Except.ok.inj h)
    exact ⟨[t], rfl, by simp [atStart, startsAfter, Kind.brace?, hk]⟩
  · next hk =>
    split at h
    · simp at h
    · obtain ⟨-, rfl⟩ := Prod.mk.inj (Except.ok.inj h)
      exact ⟨[t], rfl, by simp [atStart, startsAfter, Kind.brace?, hk]⟩
  · next hopen hclose =>
    obtain ⟨⟨b, r⟩, hb, h⟩ := map_eq_ok_iff.1 h
    obtain ⟨-, rfl⟩ := Prod.mk.inj h
    obtain ⟨done, hts, hlines⟩ := readLeaf_wholeLines hp (Kind.brace?_eq_none hopen hclose) hb
    exact ⟨done, hts, hlines.start⟩

theorem Reached.step {all ts rest : List Token} {o o' : Outline} {t : Token}
    (ho : Reached all o (t :: ts)) (hp : Plain (t :: ts)) (h : o.step t ts = .ok (o', rest)) :
    Reached all o' rest := by
  obtain ⟨done, rfl, hstart, hbraces⟩ := ho
  obtain ⟨done', hts, hstart'⟩ := step_atStart hp h
  refine ⟨done ++ done', by rw [hts, List.append_assoc], by rw [atStart_append, hstart, hstart'],
    ?_⟩
  have hstep : braceAccount.outline o ++ startBraces true (t :: ts) =
      braceAccount.outline o' ++ startBraces true rest := braceAccount.step hp h
  rw [hts, startBraces_append, hstart', ← List.append_assoc] at hstep
  rw [startBraces_append, hstart, hbraces]
  exact List.append_cancel_right hstep

theorem Reading.step {all ts rest : List Token} {o o' : Outline} {t : Token}
    (ho : Reading all o (t :: ts)) (hp : Plain (t :: ts)) (h : o.step t ts = .ok (o', rest)) :
    Reading all o' rest := by
  refine ⟨ho.here.step hp h, step_placed ho.placed ho.here.suffix h, ?_⟩
  unfold Outline.step at h
  split at h
  · obtain ⟨rfl, rfl⟩ := Prod.mk.inj (Except.ok.inj h)
    intro s outer hs
    rcases List.suffix_cons_iff.1 hs with hs | hs
    · obtain ⟨rfl, rfl⟩ := List.cons.inj hs
      exact ho.here
    · exact ho.opened s outer hs
  · split at h
    · simp at h
    · next s' outer' hopened =>
      obtain ⟨rfl, rfl⟩ := Prod.mk.inj (Except.ok.inj h)
      intro s outer hs
      apply ho.opened s outer
      rw [hopened]
      exact hs.trans (List.suffix_cons ..)
  · obtain ⟨p, hb, h⟩ := map_eq_ok_iff.1 h
    obtain ⟨rfl, rfl⟩ := Prod.mk.inj h
    exact ho.opened

theorem neverExceeds_outline (o : Outline) : NeverExceeds (braceAccount.outline o) := by
  have hblocks : ∀ bs : List Block, NeverExceeds (braceAccount.blocks bs) :=
    fun bs ↦ (Block.balanced_bracesAll bs).never
  have hopened : ∀ opened, NeverExceeds (braceAccount.opened opened) := by
    intro opened
    induction opened with
    | nil => exact Balanced.nil.never
    | cons s outer ih => exact ih.append (hblocks _).append_open
  exact (hopened o.opened).append (hblocks _)

/-- Where plain tokens cannot be read, a brace closes too much or is never closed. -/
inductive BraceFault (ts : List Token) : Failure → Prop
  | unopened {done us : List Token} {t : Token} :
      ts = done ++ t :: us → t.kind = .braceClose → atStart true done = true →
      Balanced (startBraces true done) → BraceFault ts (.unopened (t :: us))
  | unclosed {done us : List Token} {t : Token} :
      ts = done ++ t :: us → t.kind = .braceOpen → atStart true done = true →
      NeverExceeds (startBraces true done) → Balanced (startBraces true us) →
      BraceFault ts (.unclosed (t :: us))

theorem readAll_braceFault {ts : List Token} {f : Failure} (hp : Plain ts)
    (h : readAll ts = .error f) : BraceFault ts f := by
  have hstep : ∀ {o o' : Outline} {t : Token} {us rest : List Token},
      Reading ts o (t :: us) ∧ Plain (t :: us) → o.step t us = .ok (o', rest) →
      Reading ts o' rest ∧ Plain rest := by
    intro o o' t us rest ho hn
    have hr := (Outline.step_suffix hn).trans (List.suffix_cons t us)
    exact ⟨ho.1.step ho.2 hn, ho.2.of_suffix hr⟩
  rcases Outline.run_error_invariant (I := fun o us ↦ Reading ts o us ∧ Plain us) hstep
    ⟨.start ts, hp⟩ (readAll_eq_error_iff.1 h) with
    ⟨o, t, us, ho, hf⟩ | ⟨o, s, outer, ho, hopened, rfl⟩
  · obtain ⟨done, hts, hstart, hbraces⟩ := ho.1.here
    unfold Outline.step at hf
    split at hf
    · simp at hf
    · next hk =>
      split at hf
      · next hnil =>
        obtain rfl := Except.error.inj hf
        refine .unopened hts hk hstart ?_
        rw [hbraces, Account.outline, hnil]
        exact Block.balanced_bracesAll _
      · simp at hf
    · exact absurd (readLeaf_error (map_eq_error_iff.1 hf)) (ho.2.not_fails f)
  · obtain ⟨done, hts, hstart, hbraces⟩ := ho.1.here
    obtain ⟨b, us, hb, hk, -⟩ := ho.1.placed s (by simp [hopened])
    obtain ⟨done', hts', hstart', hbraces'⟩ :=
      ho.1.opened s outer (hopened ▸ List.suffix_refl o.opened)
    rw [hb] at hts' ⊢
    refine .unclosed hts' hk hstart' (hbraces' ▸ neverExceeds_outline _) ?_
    -- behind the brace stand the blocks of the innermost level and nothing else
    have hinner : startBraces true done =
        startBraces true done' ++ '\x7b' :: Block.bracesAll o.blocks.reverse := by
      rw [hbraces, hbraces', Account.outline, hopened]
      simp [Account.opened, Account.outline, braceAccount]
    have hbehind : startBraces true done =
        startBraces true done' ++ '\x7b' :: startBraces true us := by
      rw [List.append_nil] at hts
      rw [← hts, hts', startBraces_append, hstart']
      simp [startBraces, startsAfter, Kind.brace?, hk]
    rw [hinner] at hbehind
    have hus := (List.cons.inj (List.append_cancel_left hbehind)).2
    exact hus ▸ Block.balanced_bracesAll _

/-- `c` stands between `before` and `after` and is one of the braces that lines begin with. -/
structure LineBrace (text before : List Char) (c : Char) (after : List Char) : Prop where
  text_eq : text = before ++ c :: after
  braces_eq : lineBraces text = lineBraces before ++ c :: lineBraces after

/-- The newline that ends the last line of a text is worth no braces. -/
theorem startBraces_of_ended {text cs : List Char} (h : cs = text ∨ cs = text ++ ['\n']) :
    startBraces true (lexChars cs) = lineBraces text := by
  rcases h with rfl | rfl
  · exact startBraces_lexChars true cs
  · rw [lexChars_append_newline, startBraces_append, startBraces_lexChars]
    cases atStart true (lexChars text) <;>
      simp [lexChars, startBraces, Kind.brace?, lineBracesFrom]

/-- A cut of a text whose last line was ended is one of the text itself. -/
theorem exists_cut {text cs before after : List Char} {c : Char}
    (h : cs = text ∨ cs = text ++ ['\n']) (hc : c ≠ '\n') (hcs : cs = before ++ c :: after) :
    ∃ after', text = before ++ c :: after' ∧ (after = after' ∨ after = after' ++ ['\n']) := by
  rcases h with rfl | rfl
  · exact ⟨after, hcs, .inl rfl⟩
  · rcases List.eq_nil_or_concat after with rfl | ⟨after', d, rfl⟩
    · obtain ⟨-, h⟩ := List.append_inj' hcs rfl
      exact absurd (List.cons.inj h).1.symm hc
    · rw [List.concat_eq_append, ← List.cons_append, ← List.append_assoc] at hcs
      obtain ⟨h, hd⟩ := List.append_inj' hcs rfl
      obtain rfl := (List.cons.inj hd).1
      exact ⟨after', h, .inr (List.concat_eq_append ..)⟩

theorem exists_fence_of_lexChars {cs : List Char}
    (h : fence <:+: (lexChars cs).map Token.kind) :
    ∃ before after, cs = before ++ ['\x60', '\x60'] ++ '\x60' :: after := by
  have hbacktick : ∀ {t : Token} {c : Char}, t.kind = .backtick → Kind.ofChar? c = some t.kind →
      c = '\x60' := by
    intro t c hk hc
    rw [hk, Kind.ofChar?_eq_some_iff] at hc
    exact (Option.some.inj hc).symm
  obtain ⟨ks, ks', h⟩ := h
  rw [List.append_assoc] at h
  obtain ⟨done, marks, hts, -, hmarks⟩ := List.map_eq_append_iff.1 h.symm
  obtain ⟨m, ms, rfl, hm, hms⟩ := List.map_eq_cons_iff.1 hmarks
  obtain ⟨m', ms', rfl, hm', hms'⟩ := List.map_eq_cons_iff.1 hms
  obtain ⟨m'', us, rfl, hm'', -⟩ := List.map_eq_cons_iff.1 hms'
  obtain ⟨before, c, a, rfl, hc, -, ha⟩ := exists_append_of_lexChars_eq hts (by simp [hm])
  obtain ⟨c', a', rfl, hc', ha'⟩ := exists_cons_of_lexChars_eq ha (by simp [hm'])
  obtain ⟨c'', after, rfl, hc'', -⟩ := exists_cons_of_lexChars_eq ha' (by simp [hm''])
  obtain rfl := hbacktick hm hc
  obtain rfl := hbacktick hm' hc'
  obtain rfl := hbacktick hm'' hc''
  exact ⟨before, after, by simp⟩

theorem not_fence_of_ended {text cs : List Char} (h : cs = text ∨ cs = text ++ ['\n'])
    (hf : ¬ ['\x60', '\x60', '\x60'] <:+: text) : ¬ fence <:+: (lexChars cs).map Token.kind := by
  intro hfence
  obtain ⟨before, after, hcs⟩ := exists_fence_of_lexChars hfence
  obtain ⟨after', htext, -⟩ := exists_cut h (by decide) hcs
  exact hf ⟨before, after', by simp [htext]⟩

theorem plain_lex {source : String} (hlink : '[' ∉ dropReturns source)
    (hfence : ¬ ['\x60', '\x60', '\x60'] <:+: dropReturns source) : Plain (lex source) where
  link t ht hk := by
    have hmem : '[' ∈ dropReturns (endLine source) := mem_of_mem_lexChars ht (by rw [hk]; rfl)
    rcases dropReturns_endLine source with heq | heq
    · exact hlink (heq ▸ hmem)
    · rw [heq, List.mem_append] at hmem
      exact hlink (hmem.resolve_right (by decide))
  fence := not_fence_of_ended (dropReturns_endLine source) hfence
  endsLine := endsLine_lex source

theorem Kind.brace?_eq_some {k : Kind} {c : Char} (h : k.brace? = some c) :
    k.char? = some c ∧ k ≠ .text ∧ startsAfter true k = true ∧ c ≠ '\n' := by
  unfold brace? at h
  split at h <;> cases h <;> decide

/-- A brace of the tokens where a block may begin is one that a line of the text begins with. -/
theorem lineBrace_of_lex {source : String} {done us : List Token} {t : Token} {c : Char}
    (h : lex source = done ++ t :: us) (hk : t.kind.brace? = some c)
    (hs : atStart true done = true) :
    ∃ before after, LineBrace (dropReturns source) before c after ∧ lexChars before = done ∧
      lineBraces after = startBraces true us := by
  obtain ⟨hchar, htext, hstart, hne⟩ := Kind.brace?_eq_some hk
  obtain ⟨before, c', after, hcs, hc, rfl, rfl⟩ := exists_append_of_lexChars_eq h htext
  rw [Kind.ofChar?_eq_some_iff, hchar] at hc
  obtain rfl := Option.some.inj hc
  have hended := dropReturns_endLine source
  obtain ⟨after', hcut, hafter⟩ := exists_cut hended hne hcs
  refine ⟨before, after', ⟨hcut, ?_⟩, rfl, (startBraces_of_ended hafter).symm⟩
  have hlex : startBraces true (lex source) = lineBraces (dropReturns source) :=
    startBraces_of_ended hended
  rw [← hlex, h, startBraces_append, hs, startBraces, hk, hstart, startBraces_of_ended hafter,
    startBraces_lexChars]
  rfl

/-- The error at the first closing brace that exceeds the open ones or, without one, at the last
opening brace that is never closed. -/
inductive BraceError (text : List Char) : ParseError → Prop
  | exceeding {before after : List Char} :
      LineBrace text before '\x7d' after → NeverExceeds (lineBraces before) →
      ¬ NeverExceeds (lineBraces before ++ ['\x7d']) →
      BraceError text (.unmatched .braceOpen .braceClose (lexChars before).length
        (1 + before.count '\n'))
  | unclosed {before after : List Char} :
      NeverExceeds (lineBraces text) → LineBrace text before '\x7b' after →
      NeverExceeds (lineBraces after) →
      (∀ u v, lineBraces after = u ++ '\x7b' :: v → ¬ NeverExceeds v) →
      BraceError text (.unexpected .braceClose none (lexChars before).length
        (1 + before.count '\n'))

theorem BraceError.not_balanced {text : List Char} {e : ParseError} (h : BraceError text e) :
    ¬ Balanced (lineBraces text) := by
  intro hb
  cases h with
  | @exceeding before after hplace _ hexceeds =>
    refine hexceeds fun p hp ↦ hb.never p (hp.trans ?_)
    rw [hplace.braces_eq]
    exact ⟨lineBraces after, by simp⟩
  | unclosed _ hplace hnever _ => exact hb.not_neverExceeds_of_open hplace.braces_eq hnever

theorem lineAt_lexChars (before : List Char) (rest : List Token) :
    lineAt (lexChars before ++ rest) (lexChars before).length = 1 + before.count '\n' := by
  rw [lineAt, List.take_left, countP_newline_lexChars]

theorem BraceFault.braceError {source : String} {f : Failure} (h : BraceFault (lex source) f) :
    BraceError (dropReturns source) (f.locate (lex source)) := by
  have hread : ∀ before, startBraces true (lexChars before) = lineBraces before :=
    fun before ↦ startBraces_lexChars true before
  cases h with
  | @unopened done us t hts hk hs hb =>
    obtain ⟨before, after, hplace, rfl, -⟩ :=
      lineBrace_of_lex hts (c := '\x7d') (by rw [hk]; rfl) hs
    rw [hread] at hb
    rw [hts, locate_unopened, lineAt_lexChars]
    exact .exceeding hplace hb.never hb.not_neverExceeds_append
  | @unclosed done us t hts hk hs hnever hb =>
    obtain ⟨before, after, hplace, rfl, hafter⟩ :=
      lineBrace_of_lex hts (c := '\x7b') (by rw [hk]; rfl) hs
    rw [hread] at hnever
    rw [← hafter] at hb
    rw [hts, locate_unclosed, lineAt_lexChars]
    refine .unclosed ?_ hplace hb.never fun u v huv ↦ hb.not_neverExceeds_of_open huv
    rw [hplace.braces_eq, ← List.singleton_append, ← List.append_assoc]
    exact hnever.append_open.append hb.never

/-- Without links and fences a text is a document exactly where the braces that its lines begin
with are balanced. They are then those of its segments. -/
theorem parse_lineBraces {source : String} (hlink : '[' ∉ dropReturns source)
    (hfence : ¬ ['\x60', '\x60', '\x60'] <:+: dropReturns source) :
    ((∃ d, Document.parse source = .ok d) ↔ Balanced (lineBraces (dropReturns source))) ∧
    (∀ d, Document.parse source = .ok d → d.braces = lineBraces (dropReturns source)) ∧
    (∀ e, Document.parse source = .error e → BraceError (dropReturns source) e) := by
  have hp := plain_lex hlink hfence
  have hok : ∀ d, Document.parse source = .ok d → d.braces = lineBraces (dropReturns source) := by
    intro d h
    have hbraces : startBraces true (lex source) = Block.bracesAll d.blocks :=
      braceAccount.readAll hp (Document.ofTokens_eq_ok_iff.1 h)
    exact hbraces.symm.trans (startBraces_of_ended (dropReturns_endLine source))
  have herror : ∀ e, Document.parse source = .error e → BraceError (dropReturns source) e := by
    intro e h
    obtain ⟨f, hf, rfl⟩ := Document.ofTokens_eq_error_iff.1 h
    exact (readAll_braceFault hp hf).braceError
  refine ⟨⟨?_, fun hb ↦ ?_⟩, hok, herror⟩
  · rintro ⟨d, h⟩
    rw [← hok d h]
    exact Block.balanced_bracesAll d.blocks
  · cases h : Document.parse source with
    | ok d => exact ⟨d, rfl⟩
    | error e => exact absurd hb (herror e h).not_balanced

theorem parse_lineBraces_of_nested :
    Document.braces ⟨[.segment [.paragraph [.text "a\x7b"], .segment []]]⟩ =
        lineBraces (dropReturns "\x7ba\x7b\n\x7b\x7d\x7d") ∧
      BraceError (dropReturns "\x7b\x7b\n\x7d") (.unexpected .braceClose none 0 1) := by
  refine ⟨(parse_lineBraces ?_ ?_).2.1 _ ?_, (parse_lineBraces ?_ ?_).2.2 _ ?_⟩ <;>
    decide +kernel

end Folio.Markup
