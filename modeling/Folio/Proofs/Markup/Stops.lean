import Folio.Proofs.Markup.Locality

namespace Folio.Markup

theorem Context.eq_of_endsAt {ctx : Context} {k : Kind} (h : ctx.endsAt k) :
    k = .newline ∨ k = .pipe := by
  cases k <;> simp [endsAt] at h ⊢

theorem startsWith_stop {mark : List Kind} {u : Token} (hm : u.kind ∉ mark)
    (ts us : List Token) : startsWith mark (ts ++ u :: us) = startsWith mark ts := by
  induction mark generalizing ts with
  | nil => cases ts <;> rfl
  | cons k mark ih =>
    rw [List.mem_cons, not_or] at hm
    cases ts with
    | nil => simp [startsWith, hm.1]
    | cons t ts => rw [List.cons_append, startsWith, startsWith, ih hm.2]

theorem span_stop {p : Token → Bool} {u : Token} (hu : p u = false) (ts us : List Token) :
    (ts ++ u :: us).takeWhile p = ts.takeWhile p ∧
      (ts ++ u :: us).dropWhile p = ts.dropWhile p ++ u :: us := by
  induction ts with
  | nil => simp [hu]
  | cons t ts ih =>
    by_cases ht : p t
    · simpa [ht] using ih
    · simp [ht]

theorem head_stop {k : Kind} {u : Token} (hu : u.kind ≠ k) {ts : List Token}
    (h : ∀ t ∈ ts.head?, t.kind ≠ k) (us : List Token) :
    ∀ t ∈ (ts ++ u :: us).head?, t.kind ≠ k := by
  cases ts with
  | nil =>
    intro t ht
    obtain rfl := Option.some.inj ht
    exact hu
  | cons t ts => exact h

section

variable {ctx : Context} {u : Token} (hu : ctx.endsAt u.kind)

include hu

theorem ne_of_endsAt {k : Kind} (hn : k ≠ .newline) (hp : k ≠ .pipe) : u.kind ≠ k := by
  rcases Context.eq_of_endsAt hu with h | h
  · rw [h]
    exact hn.symm
  · rw [h]
    exact hp.symm

theorem upTo_stop {mark : List Kind} (hm : u.kind ∉ mark) (hne : mark ≠ []) (ts us : List Token) :
    upTo ctx mark (ts ++ u :: us) = (upTo ctx mark ts).map fun p ↦ (p.1, p.2 ++ u :: us) := by
  induction ts with
  | nil =>
    have hs : startsWith mark ([] ++ u :: us) = false := by
      rw [startsWith_stop hm]
      cases mark with
      | nil => exact absurd rfl hne
      | cons k mark => rfl
    rw [List.nil_append] at hs ⊢
    rw [upTo, upTo, hs, hu]
    rfl
  | cons t ts ih =>
    have hs := startsWith_stop hm (t :: ts) us
    rw [List.cons_append] at hs ⊢
    rw [upTo, upTo, hs]
    split
    · next h =>
      rw [drop_cons_append_of_startsWith h]
      rfl
    · split
      · rfl
      · rw [ih]
        cases upTo ctx mark ts <;> rfl

theorem readTitle_stop (level : Nat) (ts us : List Token) :
    readTitle level (ts ++ u :: us) =
      ((readTitle level ts).1, (readTitle level ts).2 ++ u :: us) := by
  have hh : (u.kind == .hashtag) = false := by
    simpa using ne_of_endsAt hu (k := .hashtag) (by decide) (by decide)
  obtain ⟨htake, hdrop⟩ := span_stop (p := (·.kind == .hashtag)) hh ts us
  unfold readTitle
  rw [htake, hdrop]
  cases ts.dropWhile (·.kind == .hashtag) with
  | nil =>
    obtain ⟨k, v⟩ := u
    rcases Context.eq_of_endsAt hu with rfl | rfl <;> rfl
  | cons t rest =>
    obtain ⟨k, v⟩ := t
    cases k <;> rfl

theorem readHeading_stop (ts us : List Token) :
    readHeading (ts ++ u :: us) = ((readHeading ts).1, (readHeading ts).2 ++ u :: us) := by
  rcases head_cases .hashtag ts with ⟨v, ts, rfl⟩ | h
  · exact readTitle_stop hu 2 ts us
  · have hne := ne_of_endsAt hu (k := .hashtag) (by decide) (by decide)
    rw [readHeading_of_head h, readHeading_of_head (head_stop hne h us)]
    exact readTitle_stop hu 1 ts us

theorem readEmphasis_stop (ts us : List Token) :
    readEmphasis ctx (ts ++ u :: us) =
      ((readEmphasis ctx ts).1, (readEmphasis ctx ts).2 ++ u :: us) := by
  have hne := ne_of_endsAt hu (k := .star) (by decide) (by decide)
  rcases head_cases .star ts with ⟨v, ts, rfl⟩ | h
  · rw [List.cons_append, readEmphasis_star, readEmphasis_star,
      upTo_stop hu (by simpa using hne) (by decide)]
    cases upTo ctx [.star, .star] ts <;> rfl
  · rw [readEmphasis_of_head ctx h, readEmphasis_of_head ctx (head_stop hne h us),
      upTo_stop hu (by simpa using hne) (by decide)]
    cases upTo ctx [.star] ts <;> rfl

theorem readBangText_stop (ts us : List Token) :
    readBangText ctx (ts ++ u :: us) =
      ((readBangText ctx ts).1, (readBangText ctx ts).2 ++ u :: us) := by
  cases ts with
  | nil => simp [readBangText, hu]
  | cons t ts =>
    simp only [List.cons_append, readBangText]
    split <;> rfl

end

end Folio.Markup
