import Folio.Proofs.Markup.OpenFence
import Folio.Proofs.Markup.Segments
import Folio.Proofs.Markup.Spelling
import Folio.Proofs.Markup.Stops
import Mathlib.Data.List.Forall2

namespace Folio.Markup

theorem Context.endsAt_of_ne_pipe {k : Kind} (h : k ≠ .pipe) (ctx ctx' : Context) :
    ctx.endsAt k = ctx'.endsAt k := by
  rw [endsAt, endsAt, beq_false_of_ne h, Bool.false_and, Bool.false_and]

section

variable {ts : List Token} (hp : ∀ t ∈ ts, t.kind ≠ .pipe) (ctx ctx' : Context)

include hp

theorem upTo_context (mark : List Kind) : upTo ctx mark ts = upTo ctx' mark ts := by
  induction ts with
  | nil => rfl
  | cons t ts ih =>
    have ht := Context.endsAt_of_ne_pipe (hp t (List.mem_cons_self ..)) ctx ctx'
    rw [upTo, upTo, ht, ih fun u hu ↦ hp u (List.mem_cons_of_mem t hu)]

theorem readEmphasis_context : readEmphasis ctx ts = readEmphasis ctx' ts := by
  rcases head_cases .star ts with ⟨v, ts, rfl⟩ | h
  · rw [readEmphasis_star, readEmphasis_star,
      upTo_context (fun u hu ↦ hp u (List.mem_cons_of_mem _ hu)) ctx ctx']
  · rw [readEmphasis_of_head ctx h, readEmphasis_of_head ctx' h, upTo_context hp ctx ctx']

theorem readCode_context : readCode ctx ts = readCode ctx' ts := by
  unfold readCode
  rw [upTo_context (fun u hu ↦ hp u (List.mem_of_mem_tail hu)) ctx ctx']

theorem readBangText_context : readBangText ctx ts = readBangText ctx' ts := by
  cases ts with
  | nil => rfl
  | cons t ts =>
    rw [readBangText, readBangText,
      Context.endsAt_of_ne_pipe (hp t (List.mem_cons_self ..)) ctx ctx']

theorem readImage_context : readImage ctx ts = readImage ctx' ts := by
  unfold readImage
  rw [readBangText_context hp ctx ctx']

end

theorem readInline_context {t : Token} {ts : List Token} (hp : ∀ u ∈ t :: ts, u.kind ≠ .pipe)
    (ctx ctx' : Context) : readInline ctx t ts = readInline ctx' t ts := by
  have hts : ∀ u ∈ ts, u.kind ≠ .pipe := fun u hu ↦ hp u (List.mem_cons_of_mem t hu)
  unfold readInline
  rw [readEmphasis_context hts ctx ctx', readCode_context hp ctx ctx',
    readImage_context hts ctx ctx']

/-- Without pipes a cell is read as a line is. -/
theorem readRun_context {run : Run} {ts : List Token} (hp : ∀ t ∈ ts, t.kind ≠ .pipe)
    (ctx ctx' : Context) : readRun ctx run ts = readRun ctx' run ts := by
  fun_induction readRun ctx run ts with
  | case1 => rw [readRun]
  | case2 run t ts ht =>
    rw [Context.endsAt_of_ne_pipe (hp t (List.mem_cons_self ..)) ctx ctx'] at ht
    rw [readRun_cons, if_pos ht]
  | case3 run t ts ht f hn =>
    rw [Context.endsAt_of_ne_pipe (hp t (List.mem_cons_self ..)) ctx ctx'] at ht
    rw [readRun_cons, if_neg ht, ← readInline_context hp ctx ctx', hn]
    rfl
  | case4 run t ts ht n r hn ih =>
    have hr : r ⊆ t :: ts := ((readInline_suffix hn).trans (List.suffix_cons ..)).subset
    rw [Context.endsAt_of_ne_pipe (hp t (List.mem_cons_self ..)) ctx ctx'] at ht
    rw [readRun_cons, if_neg ht, ← readInline_context hp ctx ctx', hn]
    exact ih fun u hu ↦ hp u (hr hu)

structure InCell (ts : List Token) : Prop where
  line : Unbroken ts
  pipe : ∀ t ∈ ts, t.kind ≠ .pipe
  link : ∀ t ∈ ts, t.kind ≠ .bracketOpen
  code : Unfenced ts

theorem InCell.of_subset {ts us : List Token} (h : InCell ts) (hs : us ⊆ ts) : InCell us where
  line t ht := h.line t (hs ht)
  pipe t ht := h.pipe t (hs ht)
  link t ht := h.link t (hs ht)
  code t ht := h.code t (hs ht)

theorem InCell.not_fails {ts : List Token} (h : InCell ts) (f : Failure) : ¬ Fails ts f := by
  refine Markup.not_fails h.link (fun hf ↦ ?_) f
  obtain ⟨t, ht, hk⟩ := List.mem_map.1 (hf.subset (List.mem_cons_self ..))
  exact h.code t ht hk

/-- All of a cell that stands by itself is read. -/
theorem InCell.exists_run {ts : List Token} (h : InCell ts) :
    ∃ run, readRun .line [] ts = .ok (run, []) := by
  cases hr : readRun .line [] ts with
  | error f => exact absurd (readRun_error hr) (h.not_fails f)
  | ok p =>
    obtain ⟨run, rest⟩ := p
    obtain ⟨spans, -, rfl, -, -, hend⟩ := readRun_spans hr
    cases rest with
    | nil => exact ⟨run, rfl⟩
    | cons t rest =>
      have hk : t.kind = .newline := by simpa [Context.endsAt] using hend
      exact absurd hk (h.line t (by simp))

section

variable {ctx : Context} {u : Token} (hu : ctx.endsAt u.kind)

include hu

theorem readInline_stop {t : Token} {ts : List Token} (h : InCell (t :: ts)) (us : List Token) :
    readInline ctx t (ts ++ u :: us) = extend (u :: us) (readInline ctx t ts) := by
  have hlink : ∀ v ∈ ts.head?, v.kind ≠ .bracketOpen :=
    fun v hv ↦ h.link v (List.mem_cons_of_mem t (List.mem_of_mem_head? hv))
  have hlink' : ∀ v ∈ (ts ++ u :: us).head?, v.kind ≠ .bracketOpen :=
    head_stop (ne_of_endsAt hu (by decide) (by decide)) hlink us
  have ht := h.link t (List.mem_cons_self ..)
  have ht' := h.code t (List.mem_cons_self ..)
  unfold readInline
  split
  · rw [readHeading_stop hu]
    rfl
  · rw [readEmphasis_stop hu]
    rfl
  · next hk => exact absurd hk ht'
  · next hk => exact absurd hk ht
  · split
    · next heq => exact absurd rfl (hlink' _ (by rw [heq]; rfl))
    · split
      · exact absurd rfl (hlink _ rfl)
      · rfl
  · rw [readImage_of_head ctx hlink, readImage_of_head ctx hlink', readBangText_stop hu]
    rfl
  · rfl

theorem readRun_stop {run : Run} {ts : List Token} (h : InCell ts) (us : List Token) :
    readRun ctx run (ts ++ u :: us) = extend (u :: us) (readRun ctx run ts) := by
  fun_induction readRun ctx run ts with
  | case1 run =>
    rw [List.nil_append, readRun_cons, if_pos hu]
    rfl
  | case2 run t ts ht =>
    rw [List.cons_append, readRun_cons, if_pos ht]
    rfl
  | case3 run t ts ht f hn =>
    rw [List.cons_append, readRun_cons, if_neg ht, readInline_stop hu h, hn]
    rfl
  | case4 run t ts ht n r hn ih =>
    rw [List.cons_append, readRun_cons, if_neg ht, readInline_stop hu h, hn]
    exact ih (h.of_subset ((readInline_suffix hn).trans (List.suffix_cons ..)).subset)

end

theorem readRun_cell {ts : List Token} {run : Run} {u : Token} (hu : Context.cell.endsAt u.kind)
    (h : InCell ts) (hr : readRun .line [] ts = .ok (run, [])) (us : List Token) :
    readRun .cell [] (ts ++ u :: us) = .ok (run, u :: us) := by
  rw [readRun_stop hu h, readRun_context h.pipe .cell .line, hr]
  rfl

/-- A text that can stand in a cell, without links and code. -/
def CellText (c : String) : Prop :=
  ∀ m ∈ ['\n', '|', '[', '\x60'], m ∉ c.toList

instance (c : String) : Decidable (CellText c) :=
  List.decidableBAll (· ∉ c.toList) ['\n', '|', '[', '\x60']

/-- The texts of a row, the first of which is not blank. -/
structure RowTexts (cells : List String) : Prop where
  ne_nil : cells ≠ []
  first : ∀ c ∈ cells.head?, Text.isBlankText c = false
  text : ∀ c ∈ cells, CellText c

def rowText (cells : List String) : String :=
  "|" ++ String.join (cells.map (· ++ "|"))

def tableText (rows : List (List String)) : String :=
  String.join (rows.map fun cells ↦ rowText cells ++ "\n")

/-- The texts of a row that are cells: where the last one is blank, all but that. -/
def keptCells (cells : List String) : List String :=
  if cells.getLast?.any Text.isBlankText then cells.dropLast else cells

/-- The cell is what the text is by itself on a line, trimmed. -/
def ReadsCell (c : String) (cell : Run) : Prop :=
  ∃ run, readRun .line [] (tokenize c) = .ok (run, []) ∧ cell = Run.trim run

theorem inCell_tokenize {c : String} (h : CellText c) : InCell (tokenize c) := by
  have hmark : ∀ m ∈ ['\n', '|', '[', '\x60'], ∀ t ∈ tokenize c, t.kind.char? ≠ some m := by
    intro m hm t ht hk
    exact h m hm (List.mem_of_mem_filter (mem_of_mem_lexChars ht hk))
  have hkind : ∀ k : Kind, ∀ m ∈ ['\n', '|', '[', '\x60'], k.char? = some m →
      ∀ t ∈ tokenize c, t.kind ≠ k := by
    rintro k m hm hk t ht rfl
    exact hmark m hm t ht hk
  exact ⟨hkind .newline '\n' (by simp) rfl, hkind .pipe '|' (by simp) rfl,
    hkind .bracketOpen '[' (by simp) rfl, hkind .backtick '\x60' (by simp) rfl⟩

theorem isProse_of_isBlank {c : Char} (h : Text.isBlank c) (hn : c ≠ '\n') : isProse c := by
  rw [isProse, Option.isNone_iff_eq_none, Option.eq_none_iff_forall_not_mem]
  intro k hk
  have hc := Kind.ofChar?_eq_some_iff.1 hk
  cases k <;> cases hc <;> first | exact hn rfl | revert h; decide

theorem trim_of_blank {c : String} {run : Run} (hc : CellText c) (hb : Text.isBlankText c)
    (hr : readRun .line [] (tokenize c) = .ok (run, [])) : Run.trim run = [] := by
  have hblank : ∀ d ∈ dropReturns c, Text.isBlank d :=
    fun d hd ↦ List.all_eq_true.1 hb d (List.mem_of_mem_filter hd)
  have hprose : ∀ d ∈ dropReturns c, isProse d := by
    intro d hd
    refine isProse_of_isBlank (hblank d hd) ?_
    rintro rfl
    exact hc '\n' (by simp) (List.mem_of_mem_filter hd)
  rw [tokenize] at hr
  by_cases hnil : dropReturns c = []
  · rw [hnil, lexChars, readRun] at hr
    obtain ⟨rfl, -⟩ := Prod.mk.inj (Except.ok.inj hr)
    rfl
  · have hend : ∀ d ∈ ([] : List Char).head?, isProse d = false := by simp
    have htokens := lexChars_prose hprose hnil hend
    rw [List.append_nil, lexChars] at htokens
    rw [htokens, readRun_cons, if_neg (by simp [Context.endsAt])] at hr
    replace hr : readRun .line (Run.push [] (.text (String.ofList (dropReturns c)))) [] =
      .ok (run, []) := hr
    rw [readRun] at hr
    obtain ⟨rfl, -⟩ := Prod.mk.inj (Except.ok.inj hr)
    have htrim : Text.trim (String.ofList (dropReturns c)) = "" := by
      have hstart : Text.dropBlank (dropReturns c) = [] := List.dropWhile_eq_nil_iff.2 hblank
      rw [← String.toList_inj, Text.toList_trim, String.toList_ofList, hstart]
      rfl
    rw [Run.push]
    split
    · rfl
    · have hrun : Run.trim [.text (String.ofList (dropReturns c))] =
          [.text (Text.trim (String.ofList (dropReturns c)))].filter (!·.isEmptyText) := rfl
      rw [hrun, htrim]
      rfl

theorem trim_ne_nil {c : String} {run : Run} (hc : CellText c) (hb : Text.isBlankText c = false)
    (hr : readRun .line [] (tokenize c) = .ok (run, [])) : Run.trim run ≠ [] := by
  intro hnil
  have hink := ink_readRun (allFaithful_lexChars _) hr
  rw [hnil, ink, toList_spell_lexChars, filter_isInk_dropReturns] at hink
  obtain ⟨d, hd, hblank⟩ := List.all_eq_false.1 hb
  have hpipe : d ≠ '|' := by
    rintro rfl
    exact hc '|' (by simp) hd
  have hmem : d ∈ ink c := by
    rw [ink, List.mem_filter]
    exact ⟨hd, by simp [isInk, hblank, hpipe]⟩
  rw [hink] at hmem
  cases hmem

def cellTokens (c : String) : List Token :=
  tokenize c ++ [⟨.pipe, "|"⟩]

def rowTokens (cells : List String) : List Token :=
  ⟨.pipe, "|"⟩ :: (cells.flatMap cellTokens ++ [⟨.newline, "\n"⟩])

theorem tokenize_append_pipe (a b : String) :
    tokenize (a ++ "|" ++ b) = cellTokens a ++ tokenize b := by
  have hpipe : dropReturns "|" = ['|'] := by decide
  rw [tokenize, dropReturns_append, dropReturns_append, hpipe, List.append_assoc,
    List.singleton_append, lexChars_append_mark (k := .pipe) rfl, lexChars_mark (k := .pipe) rfl,
    cellTokens, List.append_assoc]
  rfl

theorem tokenize_rowText (cells : List String) :
    tokenize (rowText cells ++ "\n") = rowTokens cells := by
  have hcells : tokenize (String.join (cells.map (· ++ "|")) ++ "\n") =
      cells.flatMap cellTokens ++ [⟨.newline, "\n"⟩] := by
    induction cells with
    | nil => decide +kernel
    | cons c cells ih =>
      rw [List.map_cons, String.join_cons, String.append_assoc, tokenize_append_pipe, ih,
        List.flatMap_cons, List.append_assoc]
  have hpipe : cellTokens "" = [⟨.pipe, "|"⟩] := by decide +kernel
  have hrow : rowText cells ++ "\n" =
      "" ++ "|" ++ (String.join (cells.map (· ++ "|")) ++ "\n") := by
    rw [rowText, String.empty_append, String.append_assoc]
  rw [hrow, tokenize_append_pipe, hcells, hpipe]
  rfl

theorem lex_tableText (rows : List (List String)) :
    lex (tableText rows) = rows.flatMap rowTokens := by
  have hlines := lex_lines (rows.map rowText)
  simp only [List.map_map, List.flatMap_map, tokenize_rowText] at hlines
  exact hlines

theorem keptCells_singleton (c : String) :
    keptCells [c] = if Text.isBlankText c then [] else [c] := rfl

theorem keptCells_cons_cons (c c' : String) (cells : List String) :
    keptCells (c :: c' :: cells) = c :: keptCells (c' :: cells) := by
  rw [keptCells, keptCells, List.getLast?_cons_cons, List.dropLast_cons_cons]
  split <;> rfl

theorem readCells_pipe {ts rest : List Token} {run : Run} {v : String}
    (h : readRun .cell [] ts = .ok (run, ⟨.pipe, v⟩ :: rest)) :
    readCells ts =
      if (Run.trim run).isEmpty && rest.head?.all (·.kind == .newline) then .ok ([], rest)
      else (readCells rest).map fun q ↦ (Run.trim run :: q.1, q.2) := by
  rw [readCells_eq, h]
  rfl

theorem head_cellTokens {c : String} (h : CellText c) (us : List Token) :
    (cellTokens c ++ us).head?.all (·.kind == .newline) = false := by
  have hline := (inCell_tokenize h).line
  rw [cellTokens, List.append_assoc]
  cases hts : tokenize c with
  | nil => rfl
  | cons t ts =>
    have ht : t.kind ≠ .newline := hline t (by simp [hts])
    simpa using ht

/-- A row is read cell by cell up to the end of its line. -/
theorem readCells_cells {cells : List String} (h : ∀ c ∈ cells, CellText c) (v : String)
    (rest : List Token) :
    ∃ row, readCells (cells.flatMap cellTokens ++ ⟨.newline, v⟩ :: rest) =
        .ok (row, ⟨.newline, v⟩ :: rest) ∧ List.Forall₂ ReadsCell (keptCells cells) row := by
  induction cells with
  | nil =>
    refine ⟨[], ?_, .nil⟩
    have hend : Context.cell.endsAt (Token.kind ⟨.newline, v⟩) := rfl
    rw [List.flatMap_nil, List.nil_append, readCells_eq, readRun_cons, if_pos hend]
    rfl
  | cons c cells ih =>
    obtain ⟨row, hrow, hall⟩ := ih fun d hd ↦ h d (List.mem_cons_of_mem c hd)
    have hc := h c (List.mem_cons_self ..)
    obtain ⟨run, hr⟩ := (inCell_tokenize hc).exists_run
    have hcell := readRun_cell (u := ⟨.pipe, "|"⟩) rfl (inCell_tokenize hc) hr
      (cells.flatMap cellTokens ++ ⟨.newline, v⟩ :: rest)
    have htokens : (c :: cells).flatMap cellTokens ++ ⟨.newline, v⟩ :: rest =
        tokenize c ++ ⟨.pipe, "|"⟩ :: (cells.flatMap cellTokens ++ ⟨.newline, v⟩ :: rest) := by
      simp [cellTokens]
    rw [htokens, readCells_pipe hcell, hrow]
    cases cells with
    | nil =>
      rw [keptCells_singleton]
      by_cases hb : Text.isBlankText c
      · rw [if_pos hb, trim_of_blank hc hb hr]
        exact ⟨[], rfl, .nil⟩
      · have hne := trim_ne_nil hc (by simpa using hb) hr
        cases hall
        rw [if_neg hb, if_neg (by simp [hne])]
        exact ⟨[Run.trim run], rfl, .cons ⟨run, hr, rfl⟩ .nil⟩
    | cons c' cells =>
      -- another text follows, so this cell is kept even when it is blank
      have hhead : ((c' :: cells).flatMap cellTokens ++ ⟨.newline, v⟩ :: rest).head?.all
          (·.kind == .newline) = false := by
        rw [List.flatMap_cons, List.append_assoc]
        exact head_cellTokens (h c' (by simp)) _
      rw [keptCells_cons_cons, hhead, Bool.and_false, if_neg (by simp)]
      exact ⟨Run.trim run :: row, rfl, .cons ⟨run, hr, rfl⟩ hall⟩

theorem RowTexts.keptCells_ne_nil {cells : List String} (h : RowTexts cells) :
    keptCells cells ≠ [] := by
  obtain ⟨c, cells, rfl⟩ := List.exists_cons_of_ne_nil h.ne_nil
  cases cells with
  | nil => simp [keptCells_singleton, h.first c rfl]
  | cons c' cells => simp [keptCells_cons_cons]

theorem readRows_rows {rows : List (List String)} (h : ∀ cells ∈ rows, RowTexts cells) :
    ∃ table, readRows (rows.flatMap rowTokens) = .ok (table, []) ∧
      List.Forall₂ (fun cells row ↦ List.Forall₂ ReadsCell (keptCells cells) row) rows table := by
  induction rows with
  | nil =>
    have hnil : rowLines.lines [] = .ok ([], []) := LineReader.lines_of_head (by simp)
    exact ⟨[], congrArg (Except.map _) hnil, .nil⟩
  | cons cells rows ih =>
    obtain ⟨table, htable, hall⟩ := ih fun d hd ↦ h d (List.mem_cons_of_mem cells hd)
    have hcells := h cells (List.mem_cons_self ..)
    obtain ⟨row, hrow, hkept⟩ := readCells_cells hcells.text "\n" (rows.flatMap rowTokens)
    have hne : row ≠ [] := by
      rintro rfl
      exact hcells.keptCells_ne_nil (List.forall₂_nil_right_iff.1 hkept)
    refine ⟨row :: table, ?_, .cons hkept hall⟩
    rw [List.flatMap_cons, rowTokens, List.cons_append, List.append_assoc, List.singleton_append,
      readRows_pipe, hrow]
    have hrest : (readRows (rows.flatMap rowTokens)).map
        (fun q ↦ (if row.isEmpty then q.1 else row :: q.1, q.2)) = .ok (row :: table, []) := by
      rw [htable]
      simp [Except.map, hne]
    exact hrest

/-- Rows of texts between pipes are a table with a row for each of them, in which each text is the
cell that it is by itself. A blank text at the end of a row is left out. -/
theorem parse_rows {rows : List (List String)} (hne : rows ≠ [])
    (h : ∀ cells ∈ rows, RowTexts cells) :
    ∃ table, Document.parse (tableText rows) = .ok ⟨[.table table]⟩ ∧
      List.Forall₂ (fun cells row ↦ List.Forall₂ ReadsCell (keptCells cells) row) rows table := by
  obtain ⟨table, htable, hall⟩ := readRows_rows h
  have htable_ne : table ≠ [] := by
    rintro rfl
    exact hne (List.forall₂_nil_right_iff.1 hall)
  refine ⟨table, ?_, hall⟩
  rw [Document.parse, Document.ofTokens_eq_ok_iff, lex_tableText]
  obtain ⟨cells, rows, rfl⟩ := List.exists_cons_of_ne_nil hne
  refine readAll_of_readLeaf (b := some (.table table)) (by simp) (by simp) ?_
  have hleaf : (readRows ((cells :: rows).flatMap rowTokens)).map
      (fun p ↦ (if p.1.isEmpty then none else some (Block.table p.1), p.2)) =
        .ok (some (.table table), []) := by
    rw [htable]
    simp [Except.map, htable_ne]
  exact hleaf

theorem parse_rows_of_blanks :
    ∃ table, Document.parse (tableText [["a", " ", "*b"], ["!\x7b", "# c", ""]]) =
        .ok ⟨[.table table]⟩ ∧
      List.Forall₂ (fun cells row ↦ List.Forall₂ ReadsCell (keptCells cells) row)
        [["a", " ", "*b"], ["!\x7b", "# c", ""]] table := by
  apply parse_rows
  · simp
  · intro cells hcells
    simp only [List.mem_cons, List.not_mem_nil, or_false] at hcells
    rcases hcells with rfl | rfl
    · exact ⟨by simp, by decide +kernel, by decide +kernel⟩
    · exact ⟨by simp, by decide +kernel, by decide +kernel⟩

/-- A blank text before the last pipe is left out, though it stands between two pipes. -/
theorem parse_rows_blank_last :
    RowTexts ["a", ""] ∧
      Document.parse (tableText [["a", ""]]) = .ok ⟨[.table [[[.text "a"]]]]⟩ ∧
      ¬ ∃ table, Document.parse (tableText [["a", ""]]) = .ok ⟨[.table table]⟩ ∧
        List.Forall₂ (fun cells row ↦ List.Forall₂ ReadsCell cells row) [["a", ""]] table := by
  have hparse : Document.parse (tableText [["a", ""]]) = .ok ⟨[.table [[[.text "a"]]]]⟩ := by
    decide +kernel
  refine ⟨⟨by simp, by decide +kernel, by decide +kernel⟩, hparse, ?_⟩
  rintro ⟨table, htable, hall⟩
  rw [hparse] at htable
  obtain rfl : [[[.text "a"]]] = table := by simpa using htable
  obtain ⟨hrow, -⟩ := List.forall₂_cons.1 hall
  exact absurd hrow.length_eq (by decide)

end Folio.Markup
