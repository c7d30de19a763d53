import Folio.Markup.Block.Nesting

namespace Folio.Markup

namespace Taken

variable {α β : Type} {ts us : List Token}

theorem pair_within (r : Except Failure (Taken α us)) (h : us <:+ ts) (f : α → β) :
    pair (r >>= fun b ↦ .ok (b.within h f)) = (pair r).map fun p ↦ (f p.1, p.2) := by
  rcases r with e | b <;> rfl

theorem suffix_of_pair {r : Except Failure (Taken α ts)} {a : α} {rest : List Token}
    (h : pair r = .ok (a, rest)) : rest <:+ ts := by
  obtain ⟨b, -, h⟩ := map_eq_ok_iff.1 h
  obtain ⟨-, rfl⟩ := Prod.mk.inj h
  exact b.suffix

end Taken

open Taken

section Loops

variable {ts us : List Token} {t : Token}

theorem pair_readSegment_nil (h : skipNewlines ts = []) (opening : List Token) :
    pair (readSegment opening ts) = .error (.unclosed opening) := by
  rw [readSegment]
  split
  · rfl
  · next h' => simp [h] at h'

theorem pair_readSegment_close (h : skipNewlines ts = t :: us) (ht : t.kind = .braceClose)
    (opening : List Token) : pair (readSegment opening ts) = .ok ([], us) := by
  rw [readSegment]
  split
  · next h' => simp [h] at h'
  · next h' =>
    obtain ⟨rfl, rfl⟩ := List.cons.inj (h.symm.trans h')
    rw [if_pos ht]
    rfl

theorem pair_readSegment_cons (h : skipNewlines ts = t :: us) (ht : t.kind ≠ .braceClose)
    (opening : List Token) :
    pair (readSegment opening ts) = pair (readNested t us) >>= fun p ↦
      (pair (readSegment opening p.2)).map fun q ↦ (p.1.toList ++ q.1, q.2) := by
  rw [readSegment]
  split
  · next h' => simp [h] at h'
  · next h' =>
    obtain ⟨rfl, rfl⟩ := List.cons.inj (h.symm.trans h')
    rw [if_neg ht]
    rcases readNested t us with e | b
    · rfl
    · exact pair_within ..

theorem pair_readToEnd_nil (h : skipNewlines ts = []) : pair (readToEnd ts) = .ok ([], []) := by
  rw [readToEnd]
  split
  · rfl
  · next h' => simp [h] at h'

theorem pair_readToEnd_cons (h : skipNewlines ts = t :: us) :
    pair (readToEnd ts) = pair (readNested t us) >>= fun p ↦
      (pair (readToEnd p.2)).map fun q ↦ (p.1.toList ++ q.1, q.2) := by
  rw [readToEnd]
  split
  · next h' => simp [h] at h'
  · next h' =>
    obtain ⟨rfl, rfl⟩ := List.cons.inj (h.symm.trans h')
    rcases readNested t us with e | b
    · rfl
    · exact pair_within ..

end Loops

theorem pair_readNested_open {t : Token} (ht : t.kind = .braceOpen) (ts : List Token) :
    pair (readNested t ts) =
      (pair (readSegment (t :: ts) ts)).map fun p ↦ (some (.segment p.1), p.2) := by
  rw [readNested]
  split
  · rcases readSegment (t :: ts) ts with e | b <;> rfl
  · next h => simp [ht] at h
  · next h _ => exact absurd ht h

theorem pair_readNested_close {t : Token} (ht : t.kind = .braceClose) (ts : List Token) :
    pair (readNested t ts) = .error (.unopened (t :: ts)) := by
  rw [readNested]
  split
  · next h => simp [ht] at h
  · rfl
  · next h => exact absurd ht h

theorem pair_readNested_of_leaf {t : Token} (ho : t.kind ≠ .braceOpen) (hc : t.kind ≠ .braceClose)
    (ts : List Token) : pair (readNested t ts) = readLeaf (t :: ts) := by
  rw [readNested]
  split
  · next h => exact absurd h ho
  · next h => exact absurd h hc
  · split <;> next h => exact h.symm

section Run

variable (stop : Outline → Bool)

theorem run_skipNewlines {o : Outline} (ho : stop o = false) (ts : List Token) :
    o.run stop (skipNewlines ts) = o.run stop ts := by
  induction ts with
  | nil => rfl
  | cons t ts ih =>
    obtain ⟨k, v⟩ := t
    by_cases hk : k = .newline
    · subst hk
      rw [Outline.run_cons, if_neg (by simp [ho]), step_newline]
      exact ih
    · rw [skipNewlines, List.dropWhile_cons_of_neg (by simpa using hk)]

mutual

/-- The block that a step begins is the one that is read by recursion. -/
theorem run_readNested (hstop : ∀ o : Outline, o.opened ≠ [] → stop o = false) {o : Outline}
    {t : Token} (ht : t.kind = .braceClose → o.opened = []) (ts : List Token) :
    (o.step t ts >>= fun p ↦ p.1.run stop p.2) = pair (readNested t ts) >>= fun p ↦
      Outline.run stop ⟨o.opened, p.1.toList ++ o.blocks⟩ p.2 := by
  by_cases hopen : t.kind = .braceOpen
  · have hrun := run_readSegment hstop ⟨t :: ts, o.blocks⟩ o.opened [] ts
    have hstep : o.step t ts = .ok (⟨⟨t :: ts, o.blocks⟩ :: o.opened, []⟩, ts) := by
      rw [Outline.step, hopen]
    rw [hstep, pair_readNested_open hopen]
    refine Eq.trans hrun ?_
    rcases pair (readSegment (t :: ts) ts) with e | ⟨bs, rest⟩ <;> rfl
  by_cases hclose : t.kind = .braceClose
  · have hstep : o.step t ts = .error (.unopened (t :: ts)) := by
      rw [Outline.step, hclose, ht hclose]
    rw [hstep, pair_readNested_close hclose]
    rfl
  · rw [step_of_leaf hopen hclose, pair_readNested_of_leaf hopen hclose]
    rcases readLeaf (t :: ts) with e | ⟨b, rest⟩ <;> rfl
termination_by 2 * ts.length + 1

/-- Reading on inside an open segment is the loop of that segment, and then reading on behind it. -/
theorem run_readSegment (hstop : ∀ o : Outline, o.opened ≠ [] → stop o = false) (s : OpenSegment)
    (outer : List OpenSegment) (blocks : List Block) (ts : List Token) :
    Outline.run stop ⟨s :: outer, blocks⟩ ts = pair (readSegment s.opening ts) >>= fun p ↦
      Outline.run stop ⟨outer, .segment (blocks.reverse ++ p.1) :: s.before⟩ p.2 := by
  have hopen : stop ⟨s :: outer, blocks⟩ = false := hstop _ (by simp)
  rw [← run_skipNewlines stop hopen]
  cases h : skipNewlines ts with
  | nil =>
    rw [Outline.run, if_neg (by simp [hopen]), pair_readSegment_nil h]
    rfl
  | cons t us =>
    rw [Outline.run_cons, if_neg (by simp [hopen])]
    by_cases hclose : t.kind = .braceClose
    · rw [pair_readSegment_close h hclose, Outline.step, hclose, ← List.append_nil blocks.reverse]
      simp [bind, Except.bind]
    · have hlt := length_of_skipNewlines h
      have hnested := run_readNested hstop (o := ⟨s :: outer, blocks⟩)
        (fun ht ↦ absurd ht hclose) us
      rw [hnested, pair_readSegment_cons h hclose]
      cases hread : readNested t us with
      | error e => rfl
      | ok b =>
        have hle := b.suffix.length_le
        have hrest := run_readSegment hstop s outer (b.value.toList ++ blocks) b.rest
        refine Eq.trans hrest ?_
        rcases hb : readSegment s.opening b.rest with e | bs
        · simp [pair, bind, Except.bind, Except.map, hb]
        · rcases hv : b.value with _ | v <;> simp [pair, bind, Except.bind, Except.map, hb, hv]
termination_by 2 * ts.length

end

end Run

/-- Reading on where no segment is open is the loop over all blocks. -/
theorem run_readToEnd (blocks : List Block) (ts : List Token) :
    Outline.run (fun _ ↦ false) ⟨[], blocks⟩ ts =
      (pair (readToEnd ts)).map fun p ↦ (⟨[], p.1.reverse ++ blocks⟩, p.2) := by
  rw [← run_skipNewlines (fun _ ↦ false) rfl]
  cases h : skipNewlines ts with
  | nil =>
    rw [Outline.run, if_neg (by simp), pair_readToEnd_nil h]
    rfl
  | cons t us =>
    have hlt := length_of_skipNewlines h
    have hnested := run_readNested (fun _ ↦ false) (fun _ _ ↦ rfl) (o := ⟨[], blocks⟩)
      (fun _ ↦ rfl) us (t := t)
    rw [Outline.run_cons, if_neg (by simp), hnested, pair_readToEnd_cons h]
    cases hread : readNested t us with
    | error e => rfl
    | ok b =>
      have hle := b.suffix.length_le
      have hrest := run_readToEnd (b.value.toList ++ blocks) b.rest
      refine Eq.trans hrest ?_
      rcases hb : readToEnd b.rest with e | bs
      · simp [pair, bind, Except.bind, Except.map, hb]
      · rcases hv : b.value with _ | v <;> simp [pair, bind, Except.bind, Except.map, hb, hv]
termination_by ts.length

/-- The open segments of an outline stand for the calls of the recursive reader. -/
theorem readBlocks_eq_pair (ts : List Token) : readBlocks ts = pair (readToEnd ts) := by
  have hrun := run_readToEnd [] ts
  rw [readBlocks, Outline.start, hrun]
  rcases readToEnd ts with e | bs
  · rfl
  · simp [pair, Except.map]

theorem readBlock_eq_pair (t : Token) (ts : List Token) :
    readBlock (t :: ts) = pair (readNested t ts) := by
  have hnested := run_readNested (·.opened.isEmpty)
    (fun o ho ↦ by simpa [List.isEmpty_iff] using ho) (o := .start) (fun _ ↦ rfl) ts (t := t)
  have hhead : readBlock (t :: ts) = (Outline.start.step t ts >>= fun p ↦
      p.1.run (·.opened.isEmpty) p.2).map fun q ↦ (q.1.blocks.head?, q.2) := by
    rw [readBlock_cons]
    rcases Outline.start.step t ts with f | p <;> rfl
  rw [hhead, hnested]
  rcases readNested t ts with e | ⟨b, rest, hrest⟩
  · rfl
  · have hdone : Outline.run (·.opened.isEmpty) ⟨[], b.toList ++ []⟩ rest =
        .ok (⟨[], b.toList ++ []⟩, rest) := by
      rw [Outline.run.eq_def]
      rfl
    have hfirst : (b.toList ++ []).head? = b := by cases b <;> rfl
    simp only [pair, bind, Except.bind, Except.map, Outline.start, hdone, hfirst]

end Folio.Markup
