import Folio.Text.Blank
import Folio.Text.Word

namespace Folio.Text

theorem inRanges_eq_true_iff {rs : List (Nat × Nat)} {c : Char} :
    inRanges rs c = true ↔ ∃ r ∈ rs, r.1 ≤ c.toNat ∧ c.toNat ≤ r.2 := by
  simp [inRanges]

/-- What is left of the ranges `rs` when each of `ss` in turn takes off those at the front that lie
within it. Where both stand in order, one pass over `ss` takes off all that are covered. -/
def uncovered (rs ss : List (Nat × Nat)) : List (Nat × Nat) :=
  ss.foldl (fun rs s ↦ rs.dropWhile fun r ↦ Nat.ble s.1 r.1 && Nat.ble r.2 s.2) rs

def apart (rs ss : List (Nat × Nat)) : Bool :=
  rs.all fun r ↦ ss.all fun s ↦ Nat.blt r.2 s.1 || Nat.blt s.2 r.1

theorem mem_uncovered_or {r : Nat × Nat} {rs : List (Nat × Nat)} (hr : r ∈ rs)
    (ss : List (Nat × Nat)) : r ∈ uncovered rs ss ∨ ∃ s ∈ ss, s.1 ≤ r.1 ∧ r.2 ≤ s.2 := by
  induction ss generalizing rs with
  | nil => exact .inl hr
  | cons s ss ih =>
    rw [← List.takeWhile_append_dropWhile (l := rs)
      (p := fun r ↦ Nat.ble s.1 r.1 && Nat.ble r.2 s.2), List.mem_append] at hr
    rcases hr with hr | hr
    · have hs := List.all_eq_true.1 List.all_takeWhile r hr
      simp only [Bool.and_eq_true, Nat.ble_eq] at hs
      exact .inr ⟨s, List.mem_cons_self .., hs⟩
    · rcases ih hr with hr | ⟨s', hs', hle⟩
      · exact .inl hr
      · exact .inr ⟨s', List.mem_cons_of_mem s hs', hle⟩

theorem inRanges_of_covered {rs ss : List (Nat × Nat)} {c : Char} (h : uncovered rs ss = [])
    (hc : inRanges rs c) : inRanges ss c := by
  obtain ⟨r, hr, hlo, hhi⟩ := inRanges_eq_true_iff.1 hc
  rcases mem_uncovered_or hr ss with hr | ⟨s, hs, hlo', hhi'⟩
  · rw [h] at hr
    cases hr
  · exact inRanges_eq_true_iff.2 ⟨s, hs, by omega, by omega⟩

theorem inRanges_eq_false_of_apart {rs ss : List (Nat × Nat)} {c : Char} (h : apart rs ss)
    (hc : inRanges rs c) : inRanges ss c = false := by
  obtain ⟨r, hr, hlo, hhi⟩ := inRanges_eq_true_iff.1 hc
  rw [Bool.eq_false_iff]
  intro hc'
  obtain ⟨s, hs, hlo', hhi'⟩ := inRanges_eq_true_iff.1 hc'
  have hrs := List.all_eq_true.1 (List.all_eq_true.1 h r hr) s hs
  simp only [Bool.or_eq_true, Nat.blt_eq] at hrs
  omega

def asciiWordRanges : List (Nat × Nat) :=
  [(0x30, 0x39), (0x41, 0x5a), (0x5f, 0x5f), (0x61, 0x7a)]

theorem isAlphanum_iff {c : Char} :
    c.isAlphanum ↔ (c.isUpper ∨ c.isLower) ∨ c.isDigit := by
  change ((c.isUpper || c.isLower) || c.isDigit) = true ↔ _
  simp only [Bool.or_eq_true]

theorem isUpper_iff {c : Char} : c.isUpper ↔ 'A'.val ≤ c.val ∧ c.val ≤ 'Z'.val :=
  decide_eq_true_iff

theorem isLower_iff {c : Char} : c.isLower ↔ 'a'.val ≤ c.val ∧ c.val ≤ 'z'.val := by
  change (decide ('a'.val ≤ c.val) && decide (c.val ≤ 'z'.val)) = true ↔ _
  simp only [Bool.and_eq_true, decide_eq_true_eq]

theorem inRanges_asciiWordRanges {c : Char} (h : c.isAlphanum || c == '_') :
    inRanges asciiWordRanges c := by
  rw [Bool.or_eq_true, isAlphanum_iff, isUpper_iff, isLower_iff, Char.isDigit, Bool.and_eq_true,
    decide_eq_true_eq, decide_eq_true_eq, beq_iff_eq] at h
  rw [inRanges_eq_true_iff]
  rcases h with ((⟨hlo, hhi⟩ | ⟨hlo, hhi⟩) | ⟨hlo, hhi⟩) | rfl
  · exact ⟨(0x41, 0x5a), by simp [asciiWordRanges], hlo, hhi⟩
  · exact ⟨(0x61, 0x7a), by simp [asciiWordRanges], hlo, hhi⟩
  · exact ⟨(0x30, 0x39), by simp [asciiWordRanges], hlo, hhi⟩
  · exact ⟨(0x5f, 0x5f), by simp [asciiWordRanges], by decide, by decide⟩

theorem isWord_of_ascii {c : Char} (h : c.isAlphanum || c == '_') : isWord c := by
  obtain ⟨r, hr, -, hhi⟩ := inRanges_eq_true_iff.1 (inRanges_asciiWordRanges h)
  have hle : ∀ r ∈ asciiWordRanges, r.2 < 0x80 := by decide
  have hlt := hle r hr
  rw [isWord, if_pos (by omega), h]

theorem isWord_of_isDecimal {c : Char} (h : isDecimal c) : isWord c := by
  unfold isDecimal at h
  unfold isWord
  split at h
  · next hc => simp [hc, Char.isAlphanum, h]
  · next hc =>
    rw [if_neg hc]
    exact inRanges_of_covered (by decide +kernel) h

theorem isBlank_eq_false_of_isWord {c : Char} (h : isWord c) : isBlank c = false := by
  unfold isWord at h
  split at h
  · exact inRanges_eq_false_of_apart (by decide +kernel) (inRanges_asciiWordRanges h)
  · exact inRanges_eq_false_of_apart (by decide +kernel) h

theorem isWord_eq_false_of_isBlank {c : Char} (h : isBlank c) : isWord c = false := by
  rw [Bool.eq_false_iff]
  intro hw
  rw [isBlank_eq_false_of_isWord hw] at h
  cases h

end Folio.Text
