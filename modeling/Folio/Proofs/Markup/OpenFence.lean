import Folio.Proofs.Markup.Locality

namespace Folio.Markup

def Unfenced (us : List Token) : Prop :=
  ∀ u ∈ us, u.kind ≠ .backtick

def Failure.openFence : Failure :=
  .missing .backtick []

theorem LinkOpen.not_endsLine {ts : List Token} (h : LinkOpen ts) : ¬ EndsLine ts := by
  intro hl
  obtain ⟨pre, o, line, rfl, ho, hline⟩ := h
  obtain ⟨t, ht, hk⟩ := (hl.of_suffix (List.suffix_append pre _)).exists_newline (by simp)
  rcases List.mem_cons.1 ht with rfl | ht
  · rw [ho] at hk
    cases hk
  · exact hline t ht hk

/-- Where lines end, only a fence fails for want of more tokens. -/
theorem Fails.eq_openFence {ts : List Token} {f : Failure} (h : Fails ts f) (hl : EndsLine ts)
    (hf : f.unread = []) : f = .openFence := by
  obtain ⟨before, rfl, he⟩ := h
  cases he with
  | @closing _ rest d ho hr =>
    obtain rfl : rest = [] := hf
    exact absurd (List.append_nil before ▸ hl) ho.not_endsLine
  | @address before rest b ho hb hr =>
    obtain rfl : rest = [] := hf
    exact absurd (List.append_nil (before ++ [b]) ▸ hl) ho.not_endsLine
  | fence => rfl

theorem readLinkParts_ne_openFence (ts : List Token) :
    readLinkParts ts ≠ .error .openFence := by
  have henclosed : ∀ {d us}, enclosed d 0 us ≠ .error .openFence := by
    intro d us h
    obtain ⟨body, rest, -, -, hf, -⟩ := enclosed_error h
    cases d <;> cases hf
  intro h
  rcases bind_eq_error_iff.1 h with hl | ⟨⟨label, rest⟩, -, h⟩
  · exact henclosed hl
  · dsimp only at h
    split at h
    · rcases bind_eq_error_iff.1 h with ha | ⟨p, -, h⟩
      · exact henclosed ha
      · cases h
    · cases h

theorem upToFence_unfenced {us : List Token} (hu : Unfenced us) :
    upToFence us = .error .openFence := by
  induction us with
  | nil => rfl
  | cons u us ih =>
    have hmark : startsWith fence (u :: us) = false := by
      simp [startsWith, fence, hu u (List.mem_cons_self ..)]
    rw [upToFence, hmark, ih fun v hv ↦ hu v (List.mem_cons_of_mem u hv)]
    rfl

theorem LineReader.Local.lines_append_error {α : Type} {r : LineReader α} (h : r.Local)
    {us : List Token} (hr : ∀ {ts}, EndsLine ts → ts ≠ [] → r.read ts = .error .openFence →
      r.read (ts ++ us) = .error .openFence) {ts : List Token} (hl : EndsLine ts)
    (hts : r.lines ts = .error .openFence) : r.lines (ts ++ us) = .error .openFence := by
  fun_induction lines r ts with
  | case1 | case4 => cases hts
  | case2 t ts ht f hf =>
    obtain rfl := Except.error.inj hts
    rw [List.cons_append, lines_mark ht, hr hl.tail (hl.ne_nil (ht ▸ h.mark_ne)) hf]
    rfl
  | case3 t ts ht a rest hread ih =>
    have hne := hl.ne_nil (ht ▸ h.mark_ne)
    have happend := h.append hl.tail hne (by rw [hread]; exact known_ok) us
    have hrest := hl.tail.of_suffix ((dropNewline_suffix rest).trans (r.read_suffix hread))
    have hih := ih hrest (map_eq_error_iff.1 hts)
    rw [← dropNewline_append (h.rest_ne_nil hl.tail hne hread)] at hih
    rw [List.cons_append, lines_mark ht, happend, hread]
    exact map_eq_error_iff.2 hih

section

variable {us : List Token} (hu : Unfenced us)

include hu

theorem upToFence_append_error {ts : List Token} {f : Failure} (hl : EndsLine ts)
    (h : upToFence ts = .error f) : upToFence (ts ++ us) = .error .openFence := by
  induction ts with
  | nil => exact upToFence_unfenced hu
  | cons t ts ih =>
    have hs := startsWith_append_eq fence (by decide) hl (by simp) us
    rw [List.cons_append] at hs ⊢
    rw [upToFence] at h
    rw [upToFence, hs]
    split at h
    · simp at h
    · next hf =>
      rw [if_neg hf, ih hl.tail (map_eq_error_iff.1 h)]
      rfl

theorem readCode_append_error {ctx : Context} {ts : List Token} {f : Failure} (hl : EndsLine ts)
    (hne : ts ≠ []) (h : readCode ctx ts = .error f) :
    readCode ctx (ts ++ us) = .error .openFence := by
  unfold readCode at h ⊢
  rw [startsWith_append_eq fence (by decide) hl hne]
  split at h
  · next hs =>
    rw [if_pos hs, drop_append_of_startsWith hs,
      upToFence_append_error hu (hl.of_suffix (List.drop_suffix ..)) (map_eq_error_iff.1 h)]
    rfl
  · split at h <;> simp at h

theorem readInline_append_error {ctx : Context} {t : Token} {ts : List Token}
    (hl : EndsLine (t :: ts)) (h : readInline ctx t ts = .error .openFence) :
    readInline ctx t (ts ++ us) = .error .openFence := by
  have hlink := readLinkParts_ne_openFence
  unfold readInline at h ⊢
  split at h
  · cases h
  · cases h
  · next hk =>
    exact readCode_append_error hu hl (by simp) h
  · exact absurd (map_eq_error_iff.1 h) (hlink _)
  · split at h
    · exact absurd (map_eq_error_iff.1 h) (hlink _)
    · cases h
  · cases h
  · cases h

theorem readRun_append_error {ctx : Context} {run : Run} {ts : List Token} (hl : EndsLine ts)
    (h : readRun ctx run ts = .error .openFence) :
    readRun ctx run (ts ++ us) = .error .openFence := by
  fun_induction readRun ctx run ts with
  | case1 => cases h
  | case2 => cases h
  | case3 run t ts ht f hn =>
    obtain rfl := Except.error.inj h
    rw [List.cons_append, readRun_cons, if_neg ht, readInline_append_error hu hl hn]
    rfl
  | case4 run t ts ht n r hn ih =>
    have hi := readInline_append (by simpa using ht) hl (by rw [hn]; exact known_ok) us
    have hr := hl.of_suffix ((readInline_suffix hn).trans (List.suffix_cons ..))
    rw [List.cons_append, readRun_cons, if_neg ht, hi, hn]
    exact ih hr h

theorem readCells_append_error {ts : List Token} (hl : EndsLine ts) (hne : ts ≠ [])
    (h : readCells ts = .error .openFence) : readCells (ts ++ us) = .error .openFence := by
  fun_induction readCells ts with
  | case1 ts f hr =>
    obtain rfl := Except.error.inj h
    rw [readCells_eq, readRun_append_error hu hl hr]
    rfl
  | case2 => cases h
  | case3 ts run v r hr hend ih =>
    have hts := readRun_append hl hne (by rw [hr]; exact known_ok) us
    have hl' := hl.of_suffix (readRun_suffix hr)
    have hr' : r ≠ [] := hl'.ne_nil (by simp)
    have hhead : (r ++ us).head? = r.head? := List.head?_append_of_ne_nil r hr'
    have hih := ih hl'.tail hr' (map_eq_error_iff.1 h)
    rw [readCells_eq, hts, hr]
    simp only [extend, List.cons_append, bind, Except.bind, hhead, hend, hih]
    rfl
  | case4 => cases h

theorem readLeaf_append_error {t : Token} {ts : List Token} (hl : EndsLine (t :: ts))
    (h : readLeaf (t :: ts) = .error .openFence) :
    readLeaf (t :: ts ++ us) = .error .openFence := by
  by_cases hd : t.kind = .dash
  · obtain ⟨k, v⟩ := t
    subst hd
    have hread : ∀ {ts}, EndsLine ts → ts ≠ [] → itemLines.read ts = .error .openFence →
        itemLines.read (ts ++ us) = .error .openFence := fun hl _ h ↦
      map_eq_error_iff.2 (readRun_append_error hu hl (map_eq_error_iff.1 h))
    exact map_eq_error_iff.2 (itemLines_local.lines_append_error hread hl (map_eq_error_iff.1 h))
  · by_cases hp : t.kind = .pipe
    · obtain ⟨k, v⟩ := t
      subst hp
      have hrows := rowLines_local.lines_append_error (readCells_append_error hu) hl
        (map_eq_error_iff.1 (map_eq_error_iff.1 h))
      exact map_eq_error_iff.2 (map_eq_error_iff.2 hrows)
    · rw [readLeaf_of_other hd hp] at h
      rw [List.cons_append, readLeaf_of_other hd hp]
      exact map_eq_error_iff.2 (readRun_append_error hu hl (map_eq_error_iff.1 h))

theorem step_append_error {o : Outline} {t : Token} {ts : List Token} (hl : EndsLine (t :: ts))
    (h : o.step t ts = .error .openFence) :
    (o.extend us).step t (ts ++ us) = .error .openFence := by
  unfold Outline.step at h ⊢
  split at h
  · cases h
  · split at h <;> cases h
  · next hopen hclose =>
    exact map_eq_error_iff.2 (readLeaf_append_error hu hl (map_eq_error_iff.1 h))

end

end Folio.Markup
