import Folio.Markup.Document.Reader

namespace Folio.Markup

mutual

def Block.leaves : Block → List Block
  | .paragraph content => [.paragraph content]
  | .list items => [.list items]
  | .table rows => [.table rows]
  | .segment bs => Block.leavesAll bs

def Block.leavesAll : List Block → List Block
  | [] => []
  | b :: bs => b.leaves ++ Block.leavesAll bs

end

def Document.leaves (d : Document) : List Block :=
  Block.leavesAll d.blocks

def Block.context : Block → Context
  | .table _ => .cell
  | .paragraph _ | .list _ | .segment _ => .line

theorem mem_leavesAll {bs : List Block} {b : Block} :
    b ∈ Block.leavesAll bs ↔ ∃ c ∈ bs, b ∈ c.leaves := by
  induction bs with
  | nil => simp [Block.leavesAll]
  | cons c bs ih => simp [Block.leavesAll, ih]

/-- The readers that give leaves; none of them gives one that holds nothing. -/
inductive ReadsLeaf (ts : List Token) : Block → List Token → Prop
  | list {items : List Run} {rest : List Token} :
      readItems ts = .ok (items, rest) → items ≠ [] → ReadsLeaf ts (.list items) rest
  | table {rows : List (List Run)} {rest : List Token} :
      readRows ts = .ok (rows, rest) → rows ≠ [] → ReadsLeaf ts (.table rows) rest
  | paragraph {run : Run} {rest : List Token} :
      readRun .line [] ts = .ok (run, rest) → Run.trim run ≠ [] →
      ReadsLeaf ts (.paragraph (Run.trim run)) (dropNewline rest)

theorem readLeaf_readsLeaf {ts rest : List Token} {b : Block}
    (h : readLeaf ts = .ok (some b, rest)) : ReadsLeaf ts b rest := by
  unfold readLeaf at h
  split at h
  · next v ts =>
    obtain ⟨⟨items, r⟩, hi, h⟩ := map_eq_ok_iff.1 h
    simp only [Prod.mk.injEq, Option.some.injEq] at h
    obtain ⟨rfl, rfl⟩ := h
    refine .list hi ?_
    -- the dash in front makes an item
    rintro rfl
    rw [readItems_dash] at hi
    obtain ⟨p, -, hi⟩ := bind_eq_ok_iff.1 hi
    obtain ⟨q, -, hq⟩ := map_eq_ok_iff.1 hi
    simp at hq
  · obtain ⟨⟨rows, r⟩, hr, h⟩ := map_eq_ok_iff.1 h
    simp only [Prod.mk.injEq, Option.ite_none_left_eq_some, Option.some.injEq] at h
    obtain ⟨⟨hne, rfl⟩, rfl⟩ := h
    exact .table hr (by simpa using hne)
  · obtain ⟨⟨run, r⟩, hr, h⟩ := map_eq_ok_iff.1 h
    simp only [Prod.mk.injEq, Option.ite_none_left_eq_some, Option.some.injEq] at h
    obtain ⟨⟨hne, rfl⟩, rfl⟩ := h
    exact .paragraph hr (by simpa using hne)

theorem ReadsLeaf.leaves {ts rest : List Token} {b : Block} (h : ReadsLeaf ts b rest) :
    b.leaves = [b] := by
  cases h <;> rfl

structure Outline.Throughout (P : Block → Prop) (o : Outline) : Prop where
  blocks : ∀ b ∈ Block.leavesAll o.blocks, P b
  before : ∀ s ∈ o.opened, ∀ b ∈ Block.leavesAll s.before, P b

section

variable {P : Block → Prop}

theorem step_throughout {o o' : Outline} {t : Token} {ts rest : List Token}
    (hP : ∀ b r, ReadsLeaf (t :: ts) b r → P b) (ho : o.Throughout P)
    (h : o.step t ts = .ok (o', rest)) : o'.Throughout P := by
  unfold Outline.step at h
  split at h
  · obtain ⟨rfl, rfl⟩ := Prod.mk.inj (Except.ok.inj h)
    refine ⟨by simp [Block.leavesAll], ?_⟩
    intro s hs
    rcases List.mem_cons.1 hs with rfl | hs
    · exact ho.blocks
    · exact ho.before s hs
  · split at h
    · simp at h
    · next s outer hopened =>
      obtain ⟨rfl, rfl⟩ := Prod.mk.inj (Except.ok.inj h)
      have hs : ∀ s' ∈ s :: outer, ∀ b ∈ Block.leavesAll s'.before, P b :=
        fun s' hs' ↦ ho.before s' (hopened ▸ hs')
      refine ⟨?_, fun s' hs' ↦ hs s' (List.mem_cons_of_mem s hs')⟩
      intro b hb
      rcases List.mem_append.1 hb with hb | hb
      · obtain ⟨c, hc, hb⟩ := mem_leavesAll.1 hb
        exact ho.blocks b (mem_leavesAll.2 ⟨c, List.mem_reverse.1 hc, hb⟩)
      · exact hs s (List.mem_cons_self ..) b hb
  · obtain ⟨⟨b, r⟩, hb, h⟩ := map_eq_ok_iff.1 h
    obtain ⟨rfl, rfl⟩ := Prod.mk.inj h
    refine ⟨?_, ho.before⟩
    cases b with
    | none => exact ho.blocks
    | some b =>
      have hleaf := readLeaf_readsLeaf hb
      simpa [Block.leavesAll, hleaf.leaves, hP b r hleaf] using ho.blocks

theorem run_throughout {stop : Outline → Bool} {o o' : Outline} {ts rest : List Token}
    (hP : ∀ us b r, us <:+ ts → ReadsLeaf us b r → P b) (ho : o.Throughout P)
    (h : o.run stop ts = .ok (o', rest)) : o'.Throughout P := by
  refine (Outline.run_ok_invariant (I := fun o us ↦ us <:+ ts ∧ o.Throughout P) ?_
    ⟨List.suffix_refl ts, ho⟩ h).2
  intro o₁ o₂ t us r ho hn
  exact ⟨(Outline.step_suffix hn).trans ((List.suffix_cons ..).trans ho.1),
    step_throughout (fun b r' ↦ hP _ b r' ho.1) ho.2 hn⟩

theorem readAll_leaves {ts : List Token} {bs : List Block}
    (hP : ∀ us b rest, us <:+ ts → ReadsLeaf us b rest → P b) (h : readAll ts = .ok bs) :
    ∀ b ∈ Block.leavesAll bs, P b := by
  obtain ⟨o, rest, hr, rfl⟩ := readAll_eq_ok_iff.1 h
  have hstart : Outline.start.Throughout P := ⟨by simp [Outline.start, Block.leavesAll],
    by simp [Outline.start]⟩
  intro b hb
  obtain ⟨c, hc, hb⟩ := mem_leavesAll.1 hb
  exact (run_throughout hP hstart hr).blocks b (mem_leavesAll.2 ⟨c, List.mem_reverse.1 hc, hb⟩)

end

def RunOf (ctx : Context) (ts : List Token) (r : Run) : Prop :=
  ∃ us run rest, us <:+ ts ∧ readRun ctx [] us = .ok (run, rest) ∧ r = Run.trim run

theorem RunOf.of_suffix {ctx : Context} {ts us : List Token} {r : Run} (h : RunOf ctx us r)
    (hs : us <:+ ts) : RunOf ctx ts r := by
  obtain ⟨vs, run, rest, hvs, hr, rfl⟩ := h
  exact ⟨vs, run, rest, hvs.trans hs, hr, rfl⟩

theorem readItems_runOf {ts rest : List Token} {items : List Run}
    (h : readItems ts = .ok (items, rest)) : ∀ r ∈ items, RunOf .line ts r := by
  intro r hr
  obtain ⟨us, left, hus, hread⟩ := LineReader.exists_read_of_mem h hr
  obtain ⟨p, hp, hread⟩ := map_eq_ok_iff.1 hread
  obtain ⟨rfl, -⟩ := Prod.mk.inj hread
  exact ⟨us, p.1, p.2, hus, hp, rfl⟩

theorem readCells_runOf {ts rest : List Token} {cells : List Run}
    (h : readCells ts = .ok (cells, rest)) : ∀ r ∈ cells, RunOf .cell ts r := by
  fun_induction readCells ts generalizing cells with
  | case1 => simp at h
  | case2 =>
    obtain ⟨rfl, -⟩ := Prod.mk.inj (Except.ok.inj h)
    simp
  | case3 ts run v r hr _ ih =>
    obtain ⟨p, hp, h⟩ := map_eq_ok_iff.1 h
    obtain ⟨rfl, rfl⟩ := Prod.mk.inj h
    intro r' hr'
    rcases List.mem_cons.1 hr' with rfl | hr'
    · exact ⟨ts, run, _, List.suffix_refl _, hr, rfl⟩
    · exact (ih hp r' hr').of_suffix ((List.suffix_cons ..).trans (readRun_suffix hr))
  | case4 ts run r _ hr =>
    obtain ⟨rfl, -⟩ := Prod.mk.inj (Except.ok.inj h)
    intro r' hr'
    split at hr'
    · simp at hr'
    · obtain rfl := List.mem_singleton.1 hr'
      exact ⟨ts, run, r, List.suffix_refl _, hr, rfl⟩

theorem readRows_runOf {ts rest : List Token} {rows : List (List Run)}
    (h : readRows ts = .ok (rows, rest)) :
    ∀ cells ∈ rows, cells ≠ [] ∧ ∀ r ∈ cells, RunOf .cell ts r := by
  obtain ⟨p, hp, h⟩ := map_eq_ok_iff.1 h
  obtain ⟨rfl, -⟩ := Prod.mk.inj h
  intro cells hcells
  obtain ⟨hmem, hne⟩ := List.mem_filter.1 hcells
  obtain ⟨us, left, hus, hread⟩ := LineReader.exists_read_of_mem hp hmem
  exact ⟨by simpa using hne, fun r hr ↦ (readCells_runOf hread r hr).of_suffix hus⟩

/-- The runs of a leaf are read in its context. -/
theorem ReadsLeaf.runOf {ts rest : List Token} {b : Block} (h : ReadsLeaf ts b rest) :
    ∀ r ∈ b.runs, RunOf b.context ts r := by
  cases h with
  | list hi _ => exact readItems_runOf hi
  | table hr _ =>
    intro r hmem
    obtain ⟨cells, hcells, hmem⟩ := List.mem_flatten.1 hmem
    exact (readRows_runOf hr cells hcells).2 r hmem
  | @paragraph run rest hr _ =>
    intro r hmem
    obtain rfl := List.mem_singleton.1 hmem
    exact ⟨ts, run, rest, List.suffix_refl _, hr, rfl⟩

/-- A property of inlines that texts keep when they are put together or trimmed. -/
structure Inherits (Q : Inline → Prop) : Prop where
  append : ∀ s t, Q (.text s) → Q (.text t) → Q (.text (s ++ t))
  trimStart : ∀ s, Q (.text s) → Q (.text (Text.trimStart s))
  trimEnd : ∀ s, Q (.text s) → Q (.text (Text.trimEnd s))

section

variable {Q : Inline → Prop}

theorem Inherits.push (hQ : Inherits Q) {run : Run} {n : Inline} (hrun : ∀ m ∈ run, Q m)
    (hn : Q n) : ∀ m ∈ Run.push run n, Q m := by
  rcases Run.push_cases run n with ⟨hpush, -⟩ | ⟨hpush, -, -⟩ | ⟨first, s, t, rfl, rfl, hpush⟩
  · rwa [hpush]
  · rw [hpush]
    simpa [or_imp, forall_and, hn] using hrun
  · rw [hpush]
    have htext := hQ.append s t (hrun _ (by simp)) hn
    intro m hm
    rcases List.mem_append.1 hm with hm | hm
    · exact hrun m (List.mem_append_left _ hm)
    · obtain rfl := List.mem_singleton.1 hm
      exact htext

theorem forall_mapLast {f : Inline → Inline} (hf : ∀ n, Q n → Q (f n)) {run : Run}
    (hrun : ∀ n ∈ run, Q n) : ∀ n ∈ Run.mapLast f run, Q n := by
  fun_induction Run.mapLast f run with
  | case1 => simp
  | case2 n => simpa using hf n (hrun n (List.mem_singleton_self n))
  | case3 n m run ih =>
    intro n' hn'
    rcases List.mem_cons.1 hn' with rfl | hn'
    · exact hrun _ (List.mem_cons_self ..)
    · exact ih (fun m' h ↦ hrun m' (List.mem_cons_of_mem n h)) n' hn'

theorem Inherits.trim (hQ : Inherits Q) {run : Run} (hrun : ∀ n ∈ run, Q n) :
    ∀ n ∈ Run.trim run, Q n := by
  have hstart : ∀ n ∈ run.modifyHead Inline.trimStart, Q n := by
    cases run with
    | nil => simp
    | cons n run =>
      intro n' hn'
      rcases List.mem_cons.1 hn' with rfl | hn'
      · have hn := hrun n (List.mem_cons_self ..)
        cases n with
        | text s => exact hQ.trimStart s hn
        | _ => exact hn
      · exact hrun n' (List.mem_cons_of_mem n hn')
  have hend : ∀ n, Q n → Q n.trimEnd := by
    intro n hn
    cases n with
    | text s => exact hQ.trimEnd s hn
    | _ => exact hn
  exact fun n hn ↦ forall_mapLast hend hstart n (List.mem_filter.1 hn).1

theorem Inherits.readRun (hQ : Inherits Q) {ctx : Context} {run run' : Run} {ts rest : List Token}
    (hs : ∀ t us n r, t :: us <:+ ts → ctx.endsAt t.kind = false →
      readInline ctx t us = .ok (n, r) → Q n)
    (hrun : ∀ n ∈ run, Q n) (h : readRun ctx run ts = .ok (run', rest)) : ∀ n ∈ run', Q n := by
  fun_induction Markup.readRun ctx run ts with
  | case1 =>
    obtain ⟨rfl, -⟩ := Prod.mk.inj (Except.ok.inj h)
    exact hrun
  | case2 =>
    obtain ⟨rfl, -⟩ := Prod.mk.inj (Except.ok.inj h)
    exact hrun
  | case3 => simp at h
  | case4 run t ts ht n r hn ih =>
    have hr : r <:+ t :: ts := (readInline_suffix hn).trans (List.suffix_cons ..)
    have hnode : Q n := hs t ts n r (List.suffix_refl _) (by simpa using ht) hn
    exact ih (fun t' us n' r' hus ↦ hs t' us n' r' (hus.trans hr)) (hQ.push hrun hnode) h

end

/-- What holds of every inline that is read at some place of `ts`, in the context that it stands in
there, holds of all inlines of the blocks. -/
theorem readAll_inlines {Q : Context → Inline → Prop} (hQ : ∀ ctx, Inherits (Q ctx))
    {ts : List Token} {bs : List Block}
    (hs : ∀ ctx t us n r, t :: us <:+ ts → ctx.endsAt t.kind = false →
      readInline ctx t us = .ok (n, r) → Q ctx n)
    (h : readAll ts = .ok bs) :
    ∀ b ∈ Block.leavesAll bs, ∀ r ∈ b.runs, ∀ n ∈ r, Q b.context n := by
  refine readAll_leaves (fun us b rest hus hb r hr ↦ ?_) h
  obtain ⟨vs, run, rest', hvs, hrun, rfl⟩ := hb.runOf r hr
  refine (hQ b.context).trim ((hQ b.context).readRun (fun t ws n r' hws ↦ ?_) (by simp) hrun)
  exact hs b.context t ws n r' (hws.trans (hvs.trans hus))

end Folio.Markup
