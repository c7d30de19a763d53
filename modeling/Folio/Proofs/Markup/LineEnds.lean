import Folio.Proofs.Markup.Returns
import Folio.Proofs.Markup.Stops
import Folio.Proofs.Markup.Subdocument

namespace Folio.Markup

def lineEnd : Token :=
  ⟨.newline, "\n"⟩

theorem endsAt_lineEnd (ctx : Context) : ctx.endsAt lineEnd.kind :=
  rfl

/-- The failure where one more line is ended behind the tokens. A fence then finds no end as
before. -/
def Failure.ended (f : Failure) : Failure :=
  if f = .openFence then .openFence else f.append [lineEnd]

theorem Failure.ended_missing {k : Kind} (hk : k ≠ .backtick) (rest : List Token) :
    (Failure.missing k rest).ended = .missing k (rest ++ [lineEnd]) := by
  refine if_neg fun h ↦ hk ?_
  rw [openFence] at h
  exact (Failure.missing.inj h).1

def ended {α : Type} :
    Except Failure (α × List Token) → Except Failure (α × List Token)
  | .ok (a, rest) => .ok (a, rest ++ [lineEnd])
  | .error f => .error f.ended

theorem ended_map {α β : Type} (g : α → β) (r : Except Failure (α × List Token)) :
    ended (r.map fun p ↦ (g p.1, p.2)) = (ended r).map fun p ↦ (g p.1, p.2) := by
  rcases r with f | ⟨a, rest⟩ <;> rfl

theorem upToFence_lineEnd (ts : List Token) :
    upToFence (ts ++ [lineEnd]) = ended (upToFence ts) := by
  induction ts with
  | nil => rfl
  | cons t ts ih =>
    have hs : startsWith fence (t :: ts ++ [lineEnd]) = startsWith fence (t :: ts) :=
      startsWith_stop (by decide) (t :: ts) []
    rw [List.cons_append] at hs ⊢
    rw [upToFence, upToFence, hs]
    split
    · next h =>
      rw [drop_cons_append_of_startsWith h]
      rfl
    · rw [ended_map, ih]

theorem enclosed_lineEnd (d : Delimiter) (depth : Nat) (ts : List Token) :
    enclosed d depth (ts ++ [lineEnd]) = ended (enclosed d depth ts) := by
  have hmissing : ∀ rest, (Failure.missing d.closing rest).ended =
      .missing d.closing (rest ++ [lineEnd]) :=
    Failure.ended_missing (by cases d <;> decide)
  induction ts generalizing depth with
  | nil => exact congrArg Except.error (hmissing []).symm
  | cons t ts ih =>
    rw [List.cons_append, enclosed.eq_def, enclosed.eq_def d depth (t :: ts)]
    dsimp only
    split
    · exact congrArg Except.error (hmissing (t :: ts)).symm
    · split
      · split
        · rfl
        · rw [ended_map, ih]
      · rw [ended_map, ih]

theorem readCode_lineEnd (ctx : Context) (t : Token) (ts : List Token) :
    readCode ctx (t :: ts ++ [lineEnd]) = ended (readCode ctx (t :: ts)) := by
  unfold readCode
  rw [startsWith_stop (by decide)]
  split
  · next hs =>
    rw [drop_append_of_startsWith hs, upToFence_lineEnd]
    rcases upToFence ((t :: ts).drop fence.length) with f | ⟨body, rest⟩ <;> rfl
  · rw [List.cons_append, List.tail_cons, List.tail_cons,
      upTo_stop (endsAt_lineEnd ctx) (by decide) (by decide)]
    rcases upTo ctx [.backtick] ts with _ | ⟨body, rest⟩ <;> rfl

theorem readLinkParts_lineEnd (ts : List Token) :
    readLinkParts (ts ++ [lineEnd]) = ended (readLinkParts ts) := by
  have hmissing : ∀ rest, (Failure.missing .parenOpen rest).ended =
      .missing .parenOpen (rest ++ [lineEnd]) :=
    Failure.ended_missing (by decide)
  unfold readLinkParts
  rw [enclosed_lineEnd]
  rcases enclosed .bracket 0 ts with f | ⟨label, rest⟩
  · rfl
  · simp only [ended, bind, Except.bind]
    rcases rest with _ | ⟨⟨k, v⟩, rest⟩
    · exact congrArg Except.error (hmissing []).symm
    · cases k with
      | parenOpen =>
        simp only [List.cons_append, enclosed_lineEnd]
        rcases enclosed .paren 0 rest with f | ⟨address, rest⟩ <;> rfl
      | _ => exact congrArg Except.error (hmissing _).symm

theorem readImage_lineEnd (ctx : Context) (ts : List Token) :
    readImage ctx (ts ++ [lineEnd]) =
      ((readImage ctx ts).1, (readImage ctx ts).2 ++ [lineEnd]) := by
  rcases head_cases .bracketOpen ts with ⟨v, ts, rfl⟩ | h
  · have hbang := readBangText_stop (endsAt_lineEnd ctx) (⟨.bracketOpen, v⟩ :: ts) []
    rw [List.cons_append] at hbang
    rw [List.cons_append, readImage_bracket, readImage_bracket, readLinkParts_lineEnd, hbang]
    rcases readLinkParts ts with f | ⟨parts, rest⟩ <;> rfl
  · rw [readImage_of_head ctx h, readImage_of_head ctx (head_stop (by decide) h [])]
    exact readBangText_stop (endsAt_lineEnd ctx) ts []

theorem readInline_lineEnd (ctx : Context) (t : Token) (ts : List Token) :
    readInline ctx t (ts ++ [lineEnd]) = ended (readInline ctx t ts) := by
  unfold readInline
  split
  · rw [readHeading_stop (endsAt_lineEnd ctx)]
    rfl
  · rw [readEmphasis_stop (endsAt_lineEnd ctx)]
    rfl
  · exact readCode_lineEnd ctx t ts
  · rw [readLinkParts_lineEnd]
    rcases readLinkParts ts with f | ⟨parts, rest⟩ <;> rfl
  · rcases head_cases .bracketOpen ts with ⟨v, ts, rfl⟩ | h
    · simp only [List.cons_append, readLinkParts_lineEnd]
      rcases readLinkParts ts with f | ⟨parts, rest⟩ <;> rfl
    · have h' := head_stop (u := lineEnd) (by decide) h []
      split
      · next heq => exact absurd rfl (h' _ (by rw [heq]; rfl))
      · split
        · exact absurd rfl (h _ rfl)
        · rfl
  · rw [readImage_lineEnd]
    rfl
  · rfl

theorem readRun_lineEnd (ctx : Context) (run : Run) (ts : List Token) :
    readRun ctx run (ts ++ [lineEnd]) = ended (readRun ctx run ts) := by
  fun_induction readRun ctx run ts with
  | case1 run =>
    rw [List.nil_append, readRun_cons, if_pos (endsAt_lineEnd ctx)]
    rfl
  | case2 run t ts ht =>
    rw [List.cons_append, readRun_cons, if_pos ht]
    rfl
  | case3 run t ts ht f hn =>
    rw [List.cons_append, readRun_cons, if_neg ht, readInline_lineEnd, hn]
    rfl
  | case4 run t ts ht n r hn ih =>
    rw [List.cons_append, readRun_cons, if_neg ht, readInline_lineEnd, hn]
    exact ih

/-- The second result is the first where one more line is ended. Where nothing was left, the end of
the line may have been read too. -/
inductive Agree {α : Type} :
    Except Failure (α × List Token) → Except Failure (α × List Token) → Prop
  | ended (r : Except Failure (α × List Token)) : Agree r (ended r)
  | done (a : α) : Agree (.ok (a, [])) (.ok (a, []))

theorem Agree.map {α β : Type} {r r' : Except Failure (α × List Token)} (h : Agree r r')
    (g : α → β) : Agree (r.map fun p ↦ (g p.1, p.2)) (r'.map fun p ↦ (g p.1, p.2)) := by
  cases h with
  | ended => exact ended_map g r ▸ .ended _
  | done a => exact .done (g a)

theorem Agree.of_error {α : Type} {f : Failure} {r : Except Failure (α × List Token)}
    (h : Agree (.error f) r) : r = .error f.ended := by
  cases h
  rfl

theorem Agree.of_ok {α : Type} {a : α} {rest : List Token}
    {r : Except Failure (α × List Token)} (h : Agree (.ok (a, rest)) r) :
    r = .ok (a, rest ++ [lineEnd]) ∨ rest = [] ∧ r = .ok (a, []) := by
  cases h with
  | ended => exact .inl rfl
  | done => exact .inr ⟨rfl, rfl⟩

/-- Reading on behind a line, whether or not its end was there. -/
theorem Agree.dropNewline {α : Type} (next : List Token → Except Failure (α × List Token)) {a : α}
    (hnil : next [] = .ok (a, [])) {rest : List Token}
    (h : Agree (next (dropNewline rest)) (next (dropNewline rest ++ [lineEnd]))) :
    Agree (next (dropNewline rest)) (next (dropNewline (rest ++ [lineEnd]))) := by
  cases rest with
  | nil =>
    -- the end of the line is read, and nothing is left either way
    change Agree (next []) (next [])
    rw [hnil]
    exact .done a
  | cons t rest => rwa [dropNewline_append (List.cons_ne_nil t rest)]

theorem LineReader.lines_lineEnd {α : Type} {r : LineReader α} (hmark : r.mark ≠ .newline)
    (hr : ∀ ts, r.read (ts ++ [lineEnd]) = ended (r.read ts)) (ts : List Token) :
    Agree (r.lines ts) (r.lines (ts ++ [lineEnd])) := by
  have hnil : r.lines [] = .ok ([], []) := lines_of_head (by simp)
  fun_induction lines r ts with
  | case1 =>
    rw [lines_of_head (head_stop hmark.symm (by simp) [])]
    exact .ended (.ok ([], []))
  | case2 t ts ht f hf =>
    rw [List.cons_append, lines_mark ht, hr, hf]
    exact .ended (.error f)
  | case3 t ts ht a rest hread ih =>
    rw [List.cons_append, lines_mark ht, hr, hread]
    exact (Agree.dropNewline r.lines hnil ih).map _
  | case4 t ts ht =>
    rw [lines_of_head (by simpa using ht)]
    exact .ended (.ok ([], t :: ts))

theorem readCells_lineEnd (ts : List Token) :
    readCells (ts ++ [lineEnd]) = ended (readCells ts) := by
  have hlast : ∀ rest : List Token, (rest ++ [lineEnd]).head?.all (·.kind == .newline) =
      rest.head?.all (·.kind == .newline) := by
    intro rest
    cases rest <;> rfl
  fun_induction readCells ts with
  | case1 ts f hr =>
    rw [readCells_eq, readRun_lineEnd, hr]
    rfl
  | case2 ts run v r hr hend =>
    rw [readCells_eq, readRun_lineEnd, hr]
    simp only [ended, List.cons_append, bind, Except.bind, hlast, hend, if_true]
  | case3 ts run v r hr hend ih =>
    rw [readCells_eq, readRun_lineEnd, hr, ended_map, ← ih]
    simp only [ended, List.cons_append, bind, Except.bind, hlast, hend]
    rfl
  | case4 ts run r hpipe hr =>
    rw [readCells_eq, readRun_lineEnd, hr]
    rcases r with _ | ⟨⟨k, v⟩, r⟩
    · rfl
    · cases k with
      | pipe => exact (hpipe v r rfl).elim
      | _ => rfl

theorem readParagraph_lineEnd (ts : List Token) :
    Agree (readParagraph ts) (readParagraph (ts ++ [lineEnd])) := by
  unfold readParagraph
  rw [readRun_lineEnd]
  rcases readRun .line [] ts with f | ⟨run, rest⟩
  · exact .ended (.error f)
  · exact Agree.dropNewline (fun rest ↦ .ok (_, rest)) rfl (.ended (.ok (_, _)))

theorem readLeaf_lineEnd (t : Token) (ts : List Token) :
    Agree (readLeaf (t :: ts)) (readLeaf (t :: ts ++ [lineEnd])) := by
  by_cases hd : t.kind = .dash
  · obtain ⟨k, v⟩ := t
    subst hd
    have hread : ∀ ts, itemLines.read (ts ++ [lineEnd]) = ended (itemLines.read ts) := fun ts ↦
      (congrArg _ (readRun_lineEnd ..)).trans (ended_map Run.trim _).symm
    exact (LineReader.lines_lineEnd (by decide) hread _).map (some ∘ Block.list)
  · by_cases hp : t.kind = .pipe
    · obtain ⟨k, v⟩ := t
      subst hp
      have hlines := LineReader.lines_lineEnd (r := rowLines) (by decide) readCells_lineEnd
        (⟨.pipe, v⟩ :: ts)
      have hrows := hlines.map (List.filter (!·.isEmpty))
      exact hrows.map fun rows ↦ if rows.isEmpty then none else some (Block.table rows)
    · rw [List.cons_append, readLeaf_of_other hd hp, readLeaf_of_other hd hp]
      exact readParagraph_lineEnd _

theorem step_lineEnd (o : Outline) (t : Token) (ts : List Token) :
    Agree ((o.step t ts).map fun p ↦ (p.1.extend [lineEnd], p.2))
      ((o.extend [lineEnd]).step t (ts ++ [lineEnd])) := by
  unfold Outline.step
  split
  · exact .ended (.ok (_, ts))
  · obtain ⟨opened, blocks⟩ := o
    cases opened with
    | nil => exact .ended (.error (.unopened (t :: ts)))
    | cons s outer => exact .ended (.ok (_, ts))
  · have h := readLeaf_lineEnd t ts
    rw [List.cons_append] at h
    generalize readLeaf (t :: ts) = r at h ⊢
    generalize readLeaf (t :: (ts ++ [lineEnd])) = r' at h ⊢
    cases h with
    | ended =>
      rcases r with f | ⟨b, rest⟩
      · exact .ended (.error f)
      · exact .ended (.ok (_, rest))
    | done b => exact .done _

theorem run_lineEnd (o : Outline) (ts : List Token) :
    (o.extend [lineEnd]).run (fun _ ↦ false) (ts ++ [lineEnd]) =
      ((o.run (fun _ ↦ false) ts).map fun p ↦ (p.1.extend [lineEnd], p.2)).mapError
        Failure.ended := by
  -- a line that is ended by itself is passed over
  have hblank : ∀ o : Outline, o.run (fun _ ↦ false) [lineEnd] = o.run (fun _ ↦ false) [] := by
    intro o
    rw [lineEnd, Outline.run_cons, if_neg (by simp), step_newline]
    rfl
  fun_induction Outline.run (fun _ ↦ false) o ts with
  | case1 o ts hs => simp at hs
  | case2 o hs ho =>
    rw [List.nil_append, hblank]
    simp [Outline.run, Outline.extend, ho, Except.map, Except.mapError]
  | case3 o hs s outer ho =>
    rw [List.nil_append, hblank]
    simp only [Outline.run, Outline.extend, ho, Except.map, Except.mapError]
    rfl
  | case4 o hs t ts f hf =>
    have hstep := step_lineEnd o t ts
    rw [hf] at hstep
    rw [List.cons_append, Outline.run_cons, if_neg (by simp), hstep.of_error]
    rfl
  | case5 o hs t ts o' r hn ih =>
    have hstep := step_lineEnd o t ts
    rw [hn] at hstep
    rw [List.cons_append, Outline.run_cons, if_neg (by simp)]
    rcases hstep.of_ok with h | ⟨rfl, h⟩
    · rw [h]
      exact ih
    · rw [h, ← ih, List.nil_append, hblank]
      rfl

theorem readAll_lineEnd (ts : List Token) :
    readAll (ts ++ [lineEnd]) = (readAll ts).mapError Failure.ended := by
  have hstart : Outline.start.extend [lineEnd] = .start := rfl
  have hrun := run_lineEnd .start ts
  rw [hstart] at hrun
  rw [readAll_eq, hrun, readAll_eq]
  rcases Outline.start.run (fun _ ↦ false) ts with f | p <;> rfl

/-- Errors of one kind that name the same place. Only where a fence finds no end, the place is
the end of the tokens, wherever that is. -/
inductive ParseError.Alike : ParseError → ParseError → Prop
  | unexpected (k : Kind) (found found' : Option Kind) (p l : Nat) :
    Alike (.unexpected k found p l) (.unexpected k found' p l)
  | fence (found found' : Option Kind) (p l p' l' : Nat) :
    Alike (.unexpected .backtick found p l) (.unexpected .backtick found' p' l')
  | unmatched (k found : Kind) (p l : Nat) : Alike (.unmatched k found p l) (.unmatched k found p l)

theorem ParseError.Alike.refl (e : ParseError) : e.Alike e := by
  cases e with
  | unexpected k found p l => exact .unexpected k found found p l
  | unmatched k found p l => exact .unmatched k found p l

theorem ParseError.Alike.symm {e e' : ParseError} (h : e.Alike e') : e'.Alike e := by
  cases h with
  | unexpected k found found' p l => exact .unexpected k found' found p l
  | fence found found' p l p' l' => exact .fence found' found p' l' p l
  | unmatched k found p l => exact .unmatched k found p l

theorem locate_ended (ts : List Token) (f : Failure) :
    (f.locate ts).Alike (f.ended.locate (ts ++ [lineEnd])) := by
  by_cases hf : f = .openFence
  · subst hf
    exact .fence ..
  · have hlen (rest : List Token) :
        (ts ++ [lineEnd]).length - (rest ++ [lineEnd]).length = ts.length - rest.length := by
      simp
    have hline (rest : List Token) :
        lineAt (ts ++ [lineEnd]) (ts.length - rest.length) = lineAt ts (ts.length - rest.length) :=
      lineAt_append_left (Nat.sub_le ..) [lineEnd]
    rw [Failure.ended, if_neg hf]
    cases f with
    | missing k rest =>
      simp only [Failure.append, Failure.locate, Failure.rest, hlen, hline]
      exact .unexpected ..
    | unclosed rest =>
      simp only [Failure.append, Failure.locate, Failure.rest, hlen, hline]
      exact .unexpected ..
    | unopened rest =>
      simp only [Failure.append, Failure.locate, Failure.rest, hlen, hline]
      exact .unmatched ..

theorem ofTokens_lineEnd (ts : List Token) :
    (∀ d, Document.ofTokens ts = .ok d → Document.ofTokens (ts ++ [lineEnd]) = .ok d) ∧
      ∀ e, Document.ofTokens ts = .error e →
        ∃ e', Document.ofTokens (ts ++ [lineEnd]) = .error e' ∧ e.Alike e' := by
  have hblocks := readAll_lineEnd ts
  refine ⟨fun d h ↦ ?_, fun e h ↦ ?_⟩
  · rw [Document.ofTokens_eq_ok_iff] at h ⊢
    rw [hblocks, h]
    rfl
  · obtain ⟨f, hf, rfl⟩ := Document.ofTokens_eq_error_iff.1 h
    refine ⟨f.ended.locate (ts ++ [lineEnd]), ?_, locate_ended ts f⟩
    rw [Document.ofTokens_eq_error_iff, hblocks, hf]
    exact ⟨f.ended, rfl, rfl⟩

/-- What a text reads as whatever the convention for the ends of lines: by its tokens, also where
these are cut with the carriage returns in place, with the last line ended where it is not, without
carriage returns, and with one more line end. -/
def readings (s : String) : List (Except ParseError Document) :=
  [Document.ofTokens (tokenize s), Document.ofTokens (scan s), Document.parse s,
    Document.parse (String.ofList (dropReturns s)), Document.parse (s ++ "\n")]

theorem lex_cases {s : String} {cs : List Char} (h : dropReturns s = cs) :
    lex s = lexChars cs ∨ lex s = lexChars cs ++ [lineEnd] := by
  subst h
  rw [lex, tokenize]
  rcases dropReturns_endLine s with h | h
  · exact .inl (by rw [h])
  · refine .inr ?_
    rw [h, lexChars_append_newline]
    simp [lexChars, lineEnd]

theorem mem_readings {s : String} {r : Except ParseError Document} (hr : r ∈ readings s) :
    r = Document.ofTokens (tokenize s) ∨ r = Document.ofTokens (tokenize s ++ [lineEnd]) := by
  have hlex : ∀ s', dropReturns s' = dropReturns s →
      Document.parse s' = Document.ofTokens (tokenize s) ∨
        Document.parse s' = Document.ofTokens (tokenize s ++ [lineEnd]) := by
    intro s' h
    rcases lex_cases h with h | h
    · exact .inl (by rw [Document.parse, h, tokenize])
    · exact .inr (by rw [Document.parse, h, tokenize])
  simp only [readings, List.mem_cons, List.not_mem_nil, or_false] at hr
  rcases hr with rfl | rfl | rfl | rfl | rfl
  · exact .inl rfl
  · exact .inl (by rw [scan_eq])
  · exact hlex s rfl
  · exact hlex _ (by simp [dropReturns])
  · refine .inr ?_
    have hend : endLine (s ++ "\n") = s ++ "\n" := if_pos (by simp)
    rw [Document.parse, lex, hend, tokenize_append_newline]
    rfl

/-- Conventions for the ends of lines do not matter. -/
theorem readings_alike (s : String) :
    (∃ d, ∀ r ∈ readings s, r = .ok d) ∨
      (∀ r ∈ readings s, ∃ e, r = .error e) ∧
        ∀ e e', .error e ∈ readings s → .error e' ∈ readings s → e.Alike e' := by
  obtain ⟨hok, herror⟩ := ofTokens_lineEnd (tokenize s)
  cases hread : Document.ofTokens (tokenize s) with
  | ok d =>
    refine .inl ⟨d, fun r hr ↦ ?_⟩
    rcases mem_readings hr with rfl | rfl
    · exact hread
    · exact hok d hread
  | error e =>
    obtain ⟨e', hread', halike⟩ := herror e hread
    have hmem : ∀ r ∈ readings s, r = .error e ∨ r = .error e' := by
      intro r hr
      rw [← hread, ← hread']
      exact mem_readings hr
    refine .inr ⟨fun r hr ↦ ?_, fun e₁ e₂ h₁ h₂ ↦ ?_⟩
    · rcases hmem r hr with rfl | rfl
      · exact ⟨e, rfl⟩
      · exact ⟨e', rfl⟩
    · have hcase : ∀ e₀, .error e₀ ∈ readings s → e₀ = e ∨ e₀ = e' :=
        fun e₀ h ↦ (hmem _ h).imp Except.error.inj Except.error.inj
      rcases hcase e₁ h₁ with rfl | rfl <;> rcases hcase e₂ h₂ with rfl | rfl
      · exact .refl _
      · exact halike
      · exact halike.symm
      · exact .refl _

end Folio.Markup
