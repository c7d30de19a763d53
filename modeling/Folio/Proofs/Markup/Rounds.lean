import Folio.Proofs.Markup.Nesting
import Folio.Proofs.Markup.Steps

namespace Folio.Markup

/-- More rounds than a loop takes, whatever tokens are left. -/
def Cursor.rounds (c : Cursor) : Nat :=
  2 * c.tokens.length + 3

namespace Walk

open Cursor Taken

variable {α β : Type} {all ts : List Token} {t : Token}

/-- Each round but the last takes a token. -/
theorem run_leads (h : ts <:+ all) (ctx : Context) (nodes : Run) {n : Nat} (hn : ts.length < n) :
    Leads all (run ctx n nodes) ts (readRun ctx nodes ts) := by
  obtain ⟨n, rfl⟩ := Nat.exists_eq_add_one.2 (Nat.zero_lt_of_lt hn)
  replace hn := Nat.le_of_lt_succ hn
  fun_induction readRun ctx nodes ts generalizing n with
  | case1 nodes => exact (endsRun_leads h ctx).step (.pure _)
  | case2 nodes t ts ht =>
    refine (endsRun_leads h ctx).step ?_
    rw [List.head?_cons, Option.all_some, if_pos ht]
    exact .pure _
  | case3 nodes t ts ht f hf =>
    have hinline := inline_leads h ctx
    rw [hf] at hinline
    refine (endsRun_leads h ctx).step ?_
    rw [List.head?_cons, Option.all_some, if_neg ht]
    exact hinline.error
  | case4 nodes t ts ht node rest hr ih =>
    obtain ⟨n, rfl⟩ := Nat.exists_eq_add_one.2 ((Nat.succ_pos _).trans_le hn)
    have hinline := inline_leads h ctx
    have hsuffix := readInline_suffix hr
    have hle := hsuffix.length_le.trans (Nat.le_of_succ_le_succ hn)
    rw [hr] at hinline
    refine (endsRun_leads h ctx).step ?_
    rw [List.head?_cons, Option.all_some, if_neg ht]
    exact hinline.step (ih (hsuffix.trans ((List.suffix_cons t ts).trans h)) n hle)

theorem trimmedRun_leads (h : ts <:+ all) (ctx : Context) {n : Nat} (hn : ts.length < n) :
    Leads all (trimmedRun ctx n) ts ((readRun ctx [] ts).map fun p ↦ (Run.trim p.1, p.2)) :=
  (run_leads h ctx [] hn).map Run.trim

theorem eat_newline_leads (h : ts <:+ all) :
    ∃ eaten, Leads all (eat .newline) ts (.ok (eaten, dropNewline ts)) := by
  rcases head_cases .newline ts with ⟨v, rest, rfl⟩ | hne
  · exact ⟨true, eat_leads h rfl⟩
  · have hdrop : dropNewline ts = ts := by
      unfold dropNewline
      split
      · exact absurd rfl (hne _ rfl)
      · rfl
    rw [hdrop]
    exact ⟨false, eat_leads_of_head h hne⟩

/-- What was just read is the last of all that was read. -/
theorem map_append (r : Except Failure (List α × List Token)) (read next : List α) :
    (r.map fun p ↦ (next ++ p.1, p.2)).map (fun p ↦ (read ++ p.1, p.2)) =
      r.map fun p ↦ (read ++ next ++ p.1, p.2) := by
  rcases r with f | p
  · rfl
  · simp only [Except.map, List.append_assoc]

theorem map_map (r : Except Failure (α × List Token)) (f : α → β) {γ : Type} (g : β → γ) :
    (r.map fun p ↦ (f p.1, p.2)).map (fun p ↦ (g p.1, p.2)) = r.map fun p ↦ (g (f p.1), p.2) := by
  rcases r with e | p <;> rfl

theorem map_nil_append (r : Except Failure (List α × List Token)) :
    r.map (fun p ↦ ([] ++ p.1, p.2)) = r := by
  rcases r with f | p <;> rfl

/-- The loop over lines does what the reader of lines does, if one line is read alike. -/
theorem lines_leads {r : LineReader α} {line : Walk α} (h : ts <:+ all)
    (hline : ∀ us, us <:+ ts → Leads all line us (r.read us)) (read : List α) {n : Nat}
    (hn : ts.length < n) :
    Leads all (lines r.mark line n read) ts ((r.lines ts).map fun p ↦ (read ++ p.1, p.2)) := by
  obtain ⟨n, rfl⟩ := Nat.exists_eq_add_one.2 (Nat.zero_lt_of_lt hn)
  replace hn := Nat.le_of_lt_succ hn
  fun_induction LineReader.lines r ts generalizing read n with
  | case1 =>
    refine (eat_leads_of_head h ?_).step ?_
    · rintro _ ⟨⟩
    · rw [if_neg Bool.false_ne_true, Except.map, List.append_nil]
      exact .pure read
  | case2 t ts ht f hf =>
    refine (eat_leads h ht).step ?_
    have hread := hline ts (List.suffix_cons t ts)
    rw [hf] at hread
    exact hread.error
  | case3 t ts ht a left hr ih =>
    obtain ⟨n, rfl⟩ := Nat.exists_eq_add_one.2 ((Nat.succ_pos _).trans_le hn)
    refine (eat_leads h ht).step ?_
    have hs := List.suffix_cons t ts
    have hleft := (r.read_suffix hr).trans hs
    have hread := hline ts hs
    obtain ⟨eaten, heat⟩ := eat_newline_leads (hleft.trans h)
    have hdrop := (dropNewline_suffix left).trans (r.read_suffix hr)
    have hle := hdrop.length_le.trans (Nat.le_of_succ_le_succ hn)
    have hbehind := hdrop.trans hs
    have hrest := ih (hbehind.trans h) (fun us hu ↦ hline us (hu.trans hbehind)) (read ++ [a]) n hle
    rw [hr] at hread
    rw [← map_append _ read [a]] at hrest
    exact hread.step (heat.step hrest)
  | case4 t ts ht =>
    refine (eat_leads_of_head h ?_).step ?_
    · rintro _ ⟨⟩
      exact ht
    · rw [if_neg Bool.false_ne_true, Except.map, List.append_nil]
      exact .pure read

theorem isAtLineEnd_before (h : ts <:+ all) :
    (before all ts).isAtLineEnd = ts.head?.all (·.kind == .newline) := by
  rw [isAtLineEnd, kind?_before h]
  cases ts <;> rfl

theorem cells_leads (h : ts <:+ all) (read : List Run) {n : Nat} (hn : ts.length + 1 < n) :
    Leads all (cells n read) ts ((readCells ts).map fun p ↦ (read ++ p.1, p.2)) := by
  obtain ⟨n, rfl⟩ := Nat.exists_eq_add_one.2 (Nat.zero_lt_of_lt hn)
  replace hn := Nat.lt_of_succ_lt_succ hn
  fun_induction readCells ts generalizing read n with
  | case1 ts f hf =>
    have hcell := trimmedRun_leads h .cell hn
    rw [hf] at hcell
    exact hcell.error
  | case2 ts run v rest hr hlast =>
    have hcell := trimmedRun_leads h .cell hn
    rw [hr] at hcell
    have hrest := (readRun_suffix hr).trans h
    refine hcell.step ((eat_leads hrest rfl).step ?_)
    refine (look_leads _).step ?_
    rw [isAtLineEnd_before ((List.suffix_cons _ rest).trans hrest), if_pos hlast, Except.map,
      List.append_nil]
    exact .pure read
  | case3 ts run v rest hr hlast ih =>
    have hcell := trimmedRun_leads h .cell hn
    rw [hr] at hcell
    have hrest := (readRun_suffix hr).trans h
    have hbehind := (List.suffix_cons _ rest).trans hrest
    refine hcell.step ((eat_leads hrest rfl).step ?_)
    refine (look_leads _).step ?_
    rw [isAtLineEnd_before hbehind, if_neg hlast, if_pos rfl]
    obtain ⟨n, rfl⟩ := Nat.exists_eq_add_one.2 (Nat.zero_lt_of_lt hn)
    have hlt : rest.length < n :=
      Nat.lt_of_succ_lt_succ ((readRun_suffix hr).length_le.trans_lt hn)
    have hnext := ih hbehind (read ++ [Run.trim run]) n hlt
    rwa [← map_append _ read [Run.trim run]] at hnext
  | case4 ts run rest hne hr =>
    have hcell := trimmedRun_leads h .cell hn
    rw [hr] at hcell
    have hrest := (readRun_suffix hr).trans h
    have hpipe : ∀ t ∈ rest.head?, t.kind ≠ .pipe := by
      rcases head_cases .pipe rest with ⟨v, us, rfl⟩ | hne'
      · exact absurd rfl (hne v us)
      · exact hne'
    obtain ⟨_, _, _, _, _, hstop⟩ := readRun_spans hr
    -- a cell ends at a pipe or with its line
    have hend : rest.head?.all (·.kind == .newline) := by
      cases rest with
      | nil => rfl
      | cons t us =>
        have ht := hstop t rfl
        have hnp := hpipe t rfl
        simpa [Context.endsAt, hnp] using ht
    refine hcell.step ((eat_leads_of_head hrest hpipe).step ?_)
    refine (look_leads _).step ?_
    rw [isAtLineEnd_before hrest, hend, Bool.and_true]
    by_cases hempty : (Run.trim run).isEmpty
    · rw [if_pos hempty, if_pos hempty, Except.map, List.append_nil]
      exact .pure read
    · rw [if_neg hempty, if_neg hempty, if_neg Bool.false_ne_true]
      exact .pure _

theorem paragraph_leads (h : ts <:+ all) {n : Nat} (hn : ts.length < n) :
    Leads all (paragraph n) ts (readParagraph ts) := by
  have hrun := trimmedRun_leads h .line hn
  unfold readParagraph
  cases hr : readRun .line [] ts with
  | error f =>
    rw [hr] at hrun
    exact hrun.error
  | ok p =>
    obtain ⟨content, rest⟩ := p
    rw [hr] at hrun
    obtain ⟨eaten, heat⟩ := eat_newline_leads ((readRun_suffix hr).trans h)
    exact hrun.step (heat.step (.pure _))

theorem skipNewlines_leads (h : ts <:+ all) :
    Leads all (move (·.skipNewlines)) ts (.ok ((), skipNewlines ts)) := by
  apply move_leads
  have hsplit := List.takeWhile_append_dropWhile (p := (·.kind == .newline)) (l := ts)
  have hleave := leave_of_append (before_inBounds all ts) ((rest_before h).trans hsplit.symm)
  rw [Cursor.skipNewlines, skip_eq, rest_before h, ← hleave]
  rfl

theorem block_leads_of_leaf (h : t :: ts <:+ all) (ho : t.kind ≠ .braceOpen)
    (hc : t.kind ≠ .braceClose) {n : Nat} (hn : (t :: ts).length + 1 < n) :
    Leads all (block (n + 1)) (t :: ts) (readLeaf (t :: ts)) := by
  have hkind := kind_leads h
  rw [List.head?_cons, Option.map_some] at hkind
  rw [block]
  refine hkind.step ?_
  obtain ⟨k, v⟩ := t
  have hlt := Nat.lt_of_succ_lt hn
  cases k with
  | dash =>
    have hitems := lines_leads (r := itemLines) h
      (fun us hu ↦ trimmedRun_leads (hu.trans h) .line (hu.length_le.trans_lt hlt)) [] hlt
    rw [map_nil_append] at hitems
    exact hitems.map fun items ↦ some (Block.list items)
  | pipe =>
    have hcells : ∀ us, us <:+ ⟨.pipe, v⟩ :: ts → Leads all (cells n []) us (readCells us) := by
      intro us hu
      rw [← map_nil_append (readCells us)]
      exact cells_leads (hu.trans h) [] ((Nat.succ_le_succ hu.length_le).trans_lt hn)
    have hrows := lines_leads (r := rowLines) h hcells [] hlt
    rw [map_nil_append] at hrows
    have htable := hrows.map fun rows ↦
      if (rows.filter (!·.isEmpty)).isEmpty then none
      else some (Block.table (rows.filter (!·.isEmpty)))
    rw [← map_map _ (List.filter (!·.isEmpty))
      fun rows ↦ if rows.isEmpty then none else some (Block.table rows)] at htable
    exact htable
  | braceOpen => exact absurd rfl ho
  | braceClose => exact absurd rfl hc
  | _ => exact paragraph_leads h hlt

/-- A round of a loop over blocks: what is read next is put behind what was read before it. -/
theorem Leads.append_next {m : Walk (Option β)} {r : Except Failure (Option β × List Token)}
    {s : List Token → Except Failure (List β × List Token)} (hm : Leads all m ts r)
    (loop : List β → Walk (List β)) (read : List β)
    (hloop : ∀ b rest, r = .ok (b, rest) → Leads all (loop (read ++ b.toList)) rest
      ((s rest).map fun p ↦ (read ++ b.toList ++ p.1, p.2))) :
    Leads all (m >>= fun next ↦ loop (read ++ next.toList)) ts
      ((r >>= fun p ↦ (s p.2).map fun q ↦ (p.1.toList ++ q.1, q.2)).map
        fun p ↦ (read ++ p.1, p.2)) := by
  rcases r with f | ⟨b, rest⟩
  · exact hm.error
  · have hrest := hloop b rest rfl
    rw [← map_append] at hrest
    exact hm.step hrest

mutual

theorem block_leads {all ts : List Token} {t : Token} (h : t :: ts <:+ all) {n : Nat}
    (hn : 2 * (t :: ts).length + 1 < n) :
    Leads all (block n) (t :: ts) (pair (readNested t ts)) := by
  obtain ⟨n, rfl⟩ := Nat.exists_eq_add_one.2 (Nat.zero_lt_of_lt hn)
  rw [List.length_cons] at hn
  have hs := (List.suffix_cons t ts).trans h
  by_cases ho : t.kind = .braceOpen
  · have hkind := kind_leads h
    rw [List.head?_cons, Option.map_some, ho] at hkind
    have hsegment := segment_leads h hs [] (n := n) (by omega)
    rw [pair_readNested_open ho, block]
    refine hkind.step ?_
    refine (look_leads id).step ((eat_leads h ho).step ?_)
    rw [map_nil_append] at hsegment
    exact hsegment.map fun bs ↦ some (Block.segment bs)
  by_cases hc : t.kind = .braceClose
  · have hkind := kind_leads h
    rw [List.head?_cons, Option.map_some, hc] at hkind
    rw [pair_readNested_close hc, block]
    exact hkind.step rfl
  · rw [pair_readNested_of_leaf ho hc]
    exact block_leads_of_leaf h ho hc (by rw [List.length_cons]; omega)
termination_by 2 * ts.length + 1

theorem segment_leads {all ts opening : List Token} (ho : opening <:+ all) (h : ts <:+ all)
    (read : List Block) {n : Nat} (hn : 2 * ts.length + 2 < n) :
    Leads all (segment (before all opening) n read) ts
      ((pair (readSegment opening ts)).map fun p ↦ (read ++ p.1, p.2)) := by
  obtain ⟨n, rfl⟩ := Nat.exists_eq_add_one.2 (Nat.zero_lt_of_lt hn)
  rw [segment]
  have hskip : skipNewlines ts <:+ all := (List.dropWhile_suffix _).trans h
  have hmove := skipNewlines_leads h
  cases hus : skipNewlines ts with
  | nil =>
    rw [hus] at hskip hmove
    rw [pair_readSegment_nil hus]
    exact hmove.step ((kind_leads hskip).step rfl)
  | cons t us =>
    rw [hus] at hskip hmove
    have hkind := kind_leads hskip
    rw [List.head?_cons, Option.map_some] at hkind
    by_cases hc : t.kind = .braceClose
    · rw [hc] at hkind
      rw [pair_readSegment_close hus hc, Except.map, List.append_nil]
      exact hmove.step (hkind.step ((advance_leads hskip).step (.pure read)))
    · have hlt := length_of_skipNewlines hus
      have hblock := block_leads hskip (n := n) (by rw [List.length_cons]; omega)
      rw [pair_readSegment_cons hus hc]
      refine hmove.step (hkind.step ?_)
      have hnext := hblock.append_next (segment (before all opening) n) read
        fun b rest hread ↦
          have hrest := suffix_of_pair hread
          have hle := hrest.length_le
          segment_leads ho (hrest.trans ((List.suffix_cons t us).trans hskip))
            (read ++ b.toList) (by omega)
      split
      · next heq => cases heq
      · next heq => exact absurd (Option.some.inj heq) hc
      · exact hnext
termination_by 2 * ts.length

end

theorem block_leads_nil (all : List Token) {n : Nat} (hn : 1 < n) :
    Leads all (block n) [] (.ok (none, [])) := by
  obtain ⟨n, rfl⟩ := Nat.exists_eq_add_one.2 (Nat.zero_lt_of_lt hn)
  have hkind := kind_leads (List.nil_suffix (l := all))
  have hparagraph := paragraph_leads (List.nil_suffix (l := all)) (Nat.lt_of_succ_lt_succ hn)
  rw [readParagraph, readRun] at hparagraph
  rw [block]
  exact hkind.step hparagraph

theorem atEnd_before (h : ts <:+ all) : (before all ts).atEnd = ts.isEmpty := by
  have hlength := h.length_le
  rw [atEnd, Bool.eq_iff_iff, decide_eq_true_iff, List.isEmpty_iff_length_eq_zero]
  change all.length ≤ all.length - ts.length ↔ ts.length = 0
  omega

theorem blocks_leads {all ts : List Token} (h : ts <:+ all) (read : List Block) {n : Nat}
    (hn : 2 * ts.length + 2 < n) :
    Leads all (blocks n read) ts
      ((pair (readToEnd ts)).map fun p ↦ (read ++ p.1, p.2)) := by
  obtain ⟨n, rfl⟩ := Nat.exists_eq_add_one.2 (Nat.zero_lt_of_lt hn)
  rw [blocks]
  have hskip : skipNewlines ts <:+ all := (List.dropWhile_suffix _).trans h
  have hmove := skipNewlines_leads h
  have hend : Leads all (look (·.atEnd)) (skipNewlines ts)
      (.ok ((skipNewlines ts).isEmpty, skipNewlines ts)) := by
    rw [← atEnd_before hskip]
    exact look_leads _
  cases hus : skipNewlines ts with
  | nil =>
    rw [hus] at hmove hend
    rw [pair_readToEnd_nil hus, Except.map, List.append_nil]
    exact hmove.step (hend.step (.pure read))
  | cons t us =>
    rw [hus] at hskip hmove hend
    have hlt := length_of_skipNewlines hus
    have hblock := block_leads hskip (n := n) (by rw [List.length_cons]; omega)
    rw [pair_readToEnd_cons hus]
    refine hmove.step (hend.step ?_)
    rw [List.isEmpty_cons, if_neg Bool.false_ne_true]
    exact hblock.append_next (blocks n) read fun b rest hread ↦
      have hrest := suffix_of_pair hread
      have hle := hrest.length_le
      blocks_leads (hrest.trans ((List.suffix_cons t us).trans hskip)) (read ++ b.toList)
        (by omega)
termination_by ts.length

section Readers

variable {c : Cursor} (hc : c.InBounds) {n : Nat} (hn : c.rounds ≤ n)
include hn

theorem lt_of_rounds_le : 2 * c.rest.length + 2 < n := by
  have hle := length_rest c
  have hrounds : 2 * c.tokens.length + 3 ≤ n := hn
  omega

include hc

/-- The walk through a run takes the cursor where reading the list that is left takes it. -/
theorem run_eq (ctx : Context) : run ctx n [] c = some (c.readRun ctx) := by
  have hlength := lt_of_rounds_le hn
  have hs : c.rest <:+ c.tokens := List.drop_suffix ..
  have hrun := run_leads hs ctx [] (n := n) (by omega)
  rwa [Leads, before_rest hc] at hrun

theorem block_eq : block n c = some c.readBlock := by
  have hlength := lt_of_rounds_le hn
  have hs : c.rest <:+ c.tokens := List.drop_suffix ..
  have hblock : Leads c.tokens (block n) c.rest (readBlock c.rest) := by
    cases hts : c.rest with
    | nil => exact block_leads_nil _ (by omega)
    | cons t ts =>
      rw [readBlock_eq_pair]
      exact block_leads (hts ▸ hs) (by rw [← hts]; omega)
  rwa [Leads, before_rest hc] at hblock

theorem blocks_eq : blocks n [] c = some c.readBlocks := by
  have hs : c.rest <:+ c.tokens := List.drop_suffix ..
  have hblocks := blocks_leads hs [] (lt_of_rounds_le hn)
  rwa [map_nil_append, ← readBlocks_eq_pair, Leads, before_rest hc] at hblocks

end Readers

end Walk

end Folio.Markup
