import Folio.Markup.Block.Leaf

namespace Folio.Markup

/-- An open segment: the tokens from its brace on, and the blocks that stand before it, last one
first. -/
structure OpenSegment where
  opening : List Token
  before : List Block

/-- The open segments, innermost first, and the blocks read at the current level, last one
first. -/
structure Outline where
  opened : List OpenSegment
  blocks : List Block

namespace Outline

def start : Outline :=
  ⟨[], []⟩

def step (o : Outline) (t : Token) (ts : List Token) : Except Failure (Outline × List Token) :=
  match t.kind with
  | .braceOpen => .ok (⟨⟨t :: ts, o.blocks⟩ :: o.opened, []⟩, ts)
  | .braceClose =>
    match o.opened with
    | [] => .error (.unopened (t :: ts))
    | s :: outer => .ok (⟨outer, .segment o.blocks.reverse :: s.before⟩, ts)
  | _ => (readLeaf (t :: ts)).map fun (b, rest) ↦ (⟨o.opened, b.toList ++ o.blocks⟩, rest)

theorem step_suffix {o o' : Outline} {t : Token} {ts rest : List Token}
    (h : o.step t ts = .ok (o', rest)) : rest <:+ ts := by
  unfold step at h
  split at h
  · obtain ⟨-, rfl⟩ := Prod.mk.inj (Except.ok.inj h)
    exact List.suffix_refl _
  · split at h
    · simp at h
    · obtain ⟨-, rfl⟩ := Prod.mk.inj (Except.ok.inj h)
      exact List.suffix_refl _
  · obtain ⟨p, hp, h⟩ := map_eq_ok_iff.1 h
    obtain ⟨-, rfl⟩ := Prod.mk.inj h
    exact readLeaf_suffix hp

/-- Reads on until `stop` holds or the tokens end, which they may do only where no segment is
open. -/
def run (stop : Outline → Bool) (o : Outline) (ts : List Token) :
    Except Failure (Outline × List Token) :=
  if stop o then .ok (o, ts)
  else match ts with
    | [] =>
      match o.opened with
      | [] => .ok (o, [])
      | s :: _ => .error (.unclosed s.opening)
    | t :: ts =>
      match _h : o.step t ts with
      | .error f => .error f
      | .ok (o', rest) => run stop o' rest
termination_by ts.length
decreasing_by exact Nat.lt_succ_of_le (step_suffix ‹_›).length_le

theorem run_cons (stop : Outline → Bool) (o : Outline) (t : Token) (ts : List Token) :
    o.run stop (t :: ts) =
      if stop o then .ok (o, t :: ts) else o.step t ts >>= fun p ↦ p.1.run stop p.2 := by
  rw [run]
  split
  · rfl
  · split <;> next h => rw [h]; rfl

/-- Reading on to the end ends there, with no segment open. -/
theorem run_to_end {o o' : Outline} {ts rest : List Token}
    (h : o.run (fun _ ↦ false) ts = .ok (o', rest)) : o'.opened = [] ∧ rest = [] := by
  fun_induction run (fun _ ↦ false) o ts with
  | case1 o ts hs => simp at hs
  | case2 o hs ho =>
    obtain ⟨rfl, rfl⟩ := Prod.mk.inj (Except.ok.inj h)
    exact ⟨ho, rfl⟩
  | case3 => simp at h
  | case4 => simp at h
  | case5 o hs t ts o' r hn ih => exact ih h

/-- What every step keeps still holds where reading ends. -/
theorem run_ok_invariant {I : Outline → List Token → Prop}
    (hstep : ∀ {o o' t ts rest}, I o (t :: ts) → o.step t ts = .ok (o', rest) → I o' rest)
    {stop : Outline → Bool} {o o' : Outline} {ts rest : List Token} (ho : I o ts)
    (h : o.run stop ts = .ok (o', rest)) : I o' rest := by
  fun_induction run stop o ts with
  | case1 o ts hs =>
    obtain ⟨rfl, rfl⟩ := Prod.mk.inj (Except.ok.inj h)
    exact ho
  | case2 o hs hopened =>
    obtain ⟨rfl, rfl⟩ := Prod.mk.inj (Except.ok.inj h)
    exact ho
  | case3 => simp at h
  | case4 => simp at h
  | case5 o hs t ts o' r hn ih => exact ih (hstep ho hn) h

/-- What every step keeps still holds where reading fails: at a step, or at the end of the tokens,
where a segment is open. -/
theorem run_error_invariant {I : Outline → List Token → Prop}
    (hstep : ∀ {o o' t ts rest}, I o (t :: ts) → o.step t ts = .ok (o', rest) → I o' rest)
    {o : Outline} {ts : List Token} {f : Failure} (ho : I o ts)
    (h : o.run (fun _ ↦ false) ts = .error f) :
    (∃ o' t us, I o' (t :: us) ∧ o'.step t us = .error f) ∨
      ∃ o' s outer, I o' [] ∧ o'.opened = s :: outer ∧ f = .unclosed s.opening := by
  fun_induction run (fun _ ↦ false) o ts with
  | case1 o ts hs => simp at hs
  | case2 => simp at h
  | case3 o hs s outer hopened => exact .inr ⟨o, s, outer, ho, hopened, (Except.error.inj h).symm⟩
  | case4 o hs t ts f' hf => exact .inl ⟨o, t, ts, ho, hf.trans h⟩
  | case5 o hs t ts o' r hn ih => exact ih (hstep ho hn) h

end Outline

theorem step_of_leaf {t : Token} (ho : t.kind ≠ .braceOpen) (hc : t.kind ≠ .braceClose)
    (o : Outline) (ts : List Token) :
    o.step t ts = (readLeaf (t :: ts)).map fun p ↦ (⟨o.opened, p.1.toList ++ o.blocks⟩, p.2) := by
  unfold Outline.step
  split
  · next h => exact absurd h ho
  · next h => exact absurd h hc
  · rfl

theorem step_newline (o : Outline) (v : String) (ts : List Token) :
    o.step ⟨.newline, v⟩ ts = .ok (o, ts) := by
  have hleaf : readLeaf (⟨.newline, v⟩ :: ts) = .ok (none, ts) := by
    rw [readLeaf_of_other (by simp) (by simp), readParagraph, readRun_cons]
    rfl
  rw [Outline.step, hleaf]
  rfl

/-- The block that begins here, with all its segments; a line that shows nothing gives none. -/
def readBlock : List Token → Except Failure (Option Block × List Token)
  | [] => .ok (none, [])
  | t :: ts => do
    let (o, rest) ← Outline.start.step t ts
    let (o, rest) ← o.run (·.opened.isEmpty) rest
    .ok (o.blocks.head?, rest)

theorem readBlock_cons (t : Token) (ts : List Token) :
    readBlock (t :: ts) = Outline.start.step t ts >>= fun p ↦
      (p.1.run (·.opened.isEmpty) p.2).map fun q ↦ (q.1.blocks.head?, q.2) := by
  rw [readBlock]
  rcases Outline.start.step t ts with f | p
  · rfl
  · rcases p.1.run (·.opened.isEmpty) p.2 with f | q <;> rfl

def readBlocks (ts : List Token) : Except Failure (List Block × List Token) :=
  (Outline.start.run (fun _ ↦ false) ts).map fun (o, rest) ↦ (o.blocks.reverse, rest)

def readAll (ts : List Token) : Except Failure (List Block) :=
  (readBlocks ts).map Prod.fst

theorem readAll_eq (ts : List Token) :
    readAll ts = (Outline.start.run (fun _ ↦ false) ts).map fun p ↦ p.1.blocks.reverse := by
  rw [readAll, readBlocks]
  cases Outline.start.run (fun _ ↦ false) ts <;> rfl

theorem readAll_eq_ok_iff {ts : List Token} {bs : List Block} :
    readAll ts = .ok bs ↔
      ∃ o rest, Outline.start.run (fun _ ↦ false) ts = .ok (o, rest) ∧ o.blocks.reverse = bs := by
  rw [readAll_eq, map_eq_ok_iff, Prod.exists]

theorem readAll_eq_error_iff {ts : List Token} {f : Failure} :
    readAll ts = .error f ↔ Outline.start.run (fun _ ↦ false) ts = .error f := by
  rw [readAll_eq, map_eq_error_iff]

end Folio.Markup
