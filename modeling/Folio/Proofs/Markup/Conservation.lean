import Folio.Markup.Block.Outline

namespace Folio.Markup

/-- What token lists and the blocks read from them are worth; `P` holds of the lists in question. -/
structure Account (P : List Token → Prop) where
  blocks : List Block → List Char
  tokens : List Token → List Char
  blocks_append : ∀ bs cs, blocks (bs ++ cs) = blocks bs ++ blocks cs
  blocks_segment : ∀ bs, blocks [.segment bs] = '\x7b' :: (blocks bs ++ ['\x7d'])
  tokens_nil : tokens [] = []
  suffix : ∀ {ts us}, P ts → us <:+ ts → P us
  tokens_open : ∀ {t ts}, P (t :: ts) → t.kind = .braceOpen → tokens (t :: ts) = '\x7b' :: tokens ts
  tokens_close : ∀ {t ts}, P (t :: ts) → t.kind = .braceClose →
    tokens (t :: ts) = '\x7d' :: tokens ts
  leaf : ∀ {t ts b rest}, P (t :: ts) → t.kind ≠ .braceOpen → t.kind ≠ .braceClose →
    readLeaf (t :: ts) = .ok (b, rest) → tokens (t :: ts) = blocks b.toList ++ tokens rest

namespace Account

variable {P : List Token → Prop} (A : Account P)

theorem blocks_nil : A.blocks [] = [] := by
  have h := A.blocks_append [] []
  simpa using h

def opened : List OpenSegment → List Char
  | [] => []
  | s :: outer => opened outer ++ (A.blocks s.before.reverse ++ ['\x7b'])

def outline (o : Outline) : List Char :=
  A.opened o.opened ++ A.blocks o.blocks.reverse

theorem outline_start : A.outline .start = [] := by
  simp [outline, Outline.start, opened, A.blocks_nil]

theorem step {o o' : Outline} {t : Token} {ts rest : List Token} (hP : P (t :: ts))
    (h : o.step t ts = .ok (o', rest)) :
    A.outline o ++ A.tokens (t :: ts) = A.outline o' ++ A.tokens rest := by
  unfold Outline.step at h
  split at h
  · next hk =>
    obtain ⟨rfl, rfl⟩ := Prod.mk.inj (Except.ok.inj h)
    rw [A.tokens_open hP hk]
    simp [outline, opened, A.blocks_nil]
  · next hk =>
    split at h
    · simp at h
    · next s outer ho =>
      obtain ⟨rfl, rfl⟩ := Prod.mk.inj (Except.ok.inj h)
      rw [A.tokens_close hP hk]
      simp [outline, opened, ho, A.blocks_append, A.blocks_segment]
  · next hopen hclose =>
    obtain ⟨⟨b, r⟩, hb, h⟩ := map_eq_ok_iff.1 h
    obtain ⟨rfl, rfl⟩ := Prod.mk.inj h
    have hrev : b.toList.reverse = b.toList := by cases b <;> rfl
    rw [A.leaf hP hopen hclose hb]
    simp [outline, A.blocks_append, hrev]

theorem run {stop : Outline → Bool} {o o' : Outline} {ts rest : List Token} (hP : P ts)
    (h : o.run stop ts = .ok (o', rest)) :
    A.outline o ++ A.tokens ts = A.outline o' ++ A.tokens rest := by
  refine (Outline.run_ok_invariant
    (I := fun o' us ↦ P us ∧ A.outline o ++ A.tokens ts = A.outline o' ++ A.tokens us)
    ?_ ⟨hP, rfl⟩ h).2
  intro o₁ o₂ t us r ho hn
  have hr : r <:+ t :: us := (Outline.step_suffix hn).trans (List.suffix_cons ..)
  exact ⟨A.suffix ho.1 hr, ho.2.trans (A.step ho.1 hn)⟩

theorem readAll {ts : List Token} {bs : List Block} (hP : P ts)
    (h : readAll ts = .ok bs) : A.tokens ts = A.blocks bs := by
  obtain ⟨o, rest, hr, rfl⟩ := readAll_eq_ok_iff.1 h
  obtain ⟨ho, rfl⟩ := Outline.run_to_end hr
  have hrun := A.run hP hr
  rw [A.outline_start, A.tokens_nil] at hrun
  simpa [outline, opened, ho] using hrun

end Account

end Folio.Markup
