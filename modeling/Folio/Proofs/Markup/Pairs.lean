import Folio.Proofs.Markup.Canonical
import Folio.Markup.Inline.Span

namespace Folio.Markup

/-- What closes every pair that is opened in it, and `depth` pairs that were opened before. -/
structure Pairs {α : Type} [DecidableEq α] (o c : α) (depth : Nat) (w : List α) : Prop where
  never : ∀ p, p <+: w → p.count c ≤ p.count o + depth
  total : w.count c = w.count o + depth

namespace Pairs

variable {α : Type} [DecidableEq α] {o c : α} {depth : Nat} {u w : List α}

theorem nil : Pairs o c 0 [] := by
  refine ⟨fun p hp ↦ ?_, rfl⟩
  obtain rfl := List.prefix_nil.1 hp
  exact Nat.le_refl _

theorem cons_open (hoc : o ≠ c) (h : Pairs o c (depth + 1) w) : Pairs o c depth (o :: w) := by
  refine ⟨fun p hp ↦ ?_, ?_⟩
  · rcases List.prefix_cons_iff.1 hp with rfl | ⟨p, rfl, hp'⟩
    · simp
    · have hnever := h.never p hp'
      rw [List.count_cons_self, List.count_cons_of_ne hoc]
      omega
  · have htotal := h.total
    rw [List.count_cons_self, List.count_cons_of_ne hoc]
    omega

theorem cons_close (hoc : o ≠ c) (h : Pairs o c depth w) : Pairs o c (depth + 1) (c :: w) := by
  refine ⟨fun p hp ↦ ?_, ?_⟩
  · rcases List.prefix_cons_iff.1 hp with rfl | ⟨p, rfl, hp'⟩
    · simp
    · have hnever := h.never p hp'
      rw [List.count_cons_self, List.count_cons_of_ne hoc.symm]
      omega
  · have htotal := h.total
    rw [List.count_cons_self, List.count_cons_of_ne hoc.symm]
    omega

/-- What holds no delimiters may stand before. -/
theorem append (ho : o ∉ u) (hc : c ∉ u) (h : Pairs o c depth w) : Pairs o c depth (u ++ w) := by
  have hu : ∀ p, p <+: u → p.count c = 0 := fun p hp ↦
    List.count_eq_zero_of_not_mem fun hmem ↦ hc (hp.subset hmem)
  refine ⟨fun p hp ↦ ?_, ?_⟩
  · rcases List.prefix_or_prefix_of_prefix hp (List.prefix_append u w) with hp' | ⟨q, rfl⟩
    · rw [hu p hp']
      exact Nat.zero_le _
    · have hnever := h.never q ((List.prefix_append_right_inj u).1 hp)
      rw [List.count_append, List.count_append, hu u (List.prefix_refl u)]
      omega
  · rw [List.count_append, List.count_append, h.total, hu u (List.prefix_refl u),
      List.count_eq_zero_of_not_mem ho, Nat.zero_add, Nat.zero_add]

theorem of_append (ho : o ∉ u) (hc : c ∉ u) (h : Pairs o c depth (u ++ w)) :
    Pairs o c depth w := by
  have hcounts : ∀ p : List α, (u ++ p).count c = p.count c ∧ (u ++ p).count o = p.count o := by
    intro p
    simp [List.count_append, List.count_eq_zero_of_not_mem, ho, hc]
  refine ⟨fun p hp ↦ ?_, ?_⟩
  · have hnever := h.never (u ++ p) ((List.prefix_append_right_inj u).2 hp)
    rwa [(hcounts p).1, (hcounts p).2] at hnever
  · have htotal := h.total
    rwa [(hcounts w).1, (hcounts w).2] at htotal

theorem of_append_right (ho : o ∉ u) (hc : c ∉ u) (h : Pairs o c depth (w ++ u)) :
    Pairs o c depth w := by
  refine ⟨fun p hp ↦ h.never p (hp.trans (List.prefix_append w u)), ?_⟩
  have htotal := h.total
  rwa [List.count_append, List.count_append, List.count_eq_zero_of_not_mem ho,
    List.count_eq_zero_of_not_mem hc] at htotal

end Pairs

/-- The delimiters are in pairs wherever a token shows as its delimiter does, and only there. -/
theorem enclosed_pairs {α : Type} [DecidableEq α] {o c : α} (hoc : o ≠ c) (shown : Token → List α)
    {d : Delimiter} {depth : Nat} {ts body rest : List Token}
    (hopen : ∀ t ∈ ts, t.kind = d.opening → shown t = [o])
    (hclose : ∀ t ∈ ts, t.kind = d.closing → shown t = [c])
    (hother : ∀ t ∈ ts, t.kind ≠ d.opening → t.kind ≠ d.closing → o ∉ shown t ∧ c ∉ shown t)
    (h : enclosed d depth ts = .ok (body, rest)) : Pairs o c depth (body.flatMap shown) := by
  induction ts generalizing depth body with
  | nil => simp [enclosed] at h
  | cons t ts ih =>
    -- the tokens behind `t` are enclosed at some other depth
    have htail : ∀ {depth' : Nat} {body' : List Token},
        enclosed d depth' ts = .ok (body', rest) → Pairs o c depth' (body'.flatMap shown) :=
      fun h' ↦ ih (fun u hu ↦ hopen u (List.mem_cons_of_mem t hu))
        (fun u hu ↦ hclose u (List.mem_cons_of_mem t hu))
        (fun u hu ↦ hother u (List.mem_cons_of_mem t hu)) h'
    have ht : t ∈ t :: ts := List.mem_cons_self ..
    simp only [enclosed] at h
    split at h
    · simp at h
    · split at h
      · next hc =>
        split at h
        · obtain ⟨rfl, rfl⟩ := Prod.mk.inj (Except.ok.inj h)
          exact .nil
        · obtain ⟨⟨body', r⟩, hp, h⟩ := map_eq_ok_iff.1 h
          obtain ⟨rfl, rfl⟩ := Prod.mk.inj h
          rw [List.flatMap_cons, hclose t ht hc]
          exact (htail hp).cons_close hoc
      · next hc =>
        obtain ⟨⟨body', r⟩, hp, h⟩ := map_eq_ok_iff.1 h
        obtain ⟨rfl, rfl⟩ := Prod.mk.inj h
        rw [List.flatMap_cons]
        split at hp
        · next ho =>
          rw [hopen t ht ho]
          exact (htail hp).cons_open hoc
        · next ho => exact (htail hp).append (hother t ht ho hc).1 (hother t ht ho hc).2

end Folio.Markup
