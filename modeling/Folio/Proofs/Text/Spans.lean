import Mathlib.Data.List.TakeWhile

namespace Folio.Text

theorem forall_head_cons {P : Char → Prop} {c : Char} (h : P c) (cs : List Char) :
    ∀ d ∈ (c :: cs).head?, P d := by
  rintro d ⟨⟩
  exact h

variable {α : Type} {p : α → Bool}

theorem takeWhile_append_of_not {l : List α} (h : ∃ a ∈ l, ¬p a) (m : List α) :
    (l ++ m).takeWhile p = l.takeWhile p := by
  induction l with
  | nil => obtain ⟨a, ha, -⟩ := h; cases ha
  | cons b l ih =>
    obtain ⟨a, ha, hp⟩ := h
    cases hb : p b with
    | false => simp [hb]
    | true =>
      rcases List.mem_cons.1 ha with rfl | ha
      · exact (hp hb).elim
      · simp [hb, ih ⟨a, ha, hp⟩]

theorem head_dropWhile {l : List α} : ∀ a ∈ (l.dropWhile p).head?, p a = false := by
  intro a ha
  have hstop := List.head?_dropWhile_not p l
  rw [Option.mem_def.1 ha] at hstop
  simpa using hstop

theorem span_extend {rest : List α} (h : ∀ a ∈ rest.head?, p a = false) (l : List α) :
    (l ++ rest).takeWhile p = l.takeWhile p ∧ (l ++ rest).dropWhile p = l.dropWhile p ++ rest := by
  induction l with
  | nil =>
    cases rest with
    | nil => simp
    | cons a rest => simp [h a rfl]
  | cons a l ih =>
    by_cases ha : p a
    · simpa [ha] using ih
    · simp [ha]

theorem span_extend_of_not {l : List α} (h : ∃ a ∈ l, ¬p a) (rest : List α) :
    (l ++ rest).takeWhile p = l.takeWhile p ∧ (l ++ rest).dropWhile p = l.dropWhile p ++ rest := by
  have hdrop : ¬(l.dropWhile p).isEmpty := by
    rw [List.isEmpty_iff, List.dropWhile_eq_nil_iff]
    simpa using h
  exact ⟨takeWhile_append_of_not h rest, by rw [List.dropWhile_append, if_neg hdrop]⟩

/-- A run and what stops it. -/
theorem span_run {run rest : List α} (hrun : ∀ a ∈ run, p a) (hrest : ∀ a ∈ rest.head?, p a = false) :
    (run ++ rest).takeWhile p = run ∧ (run ++ rest).dropWhile p = rest := by
  obtain ⟨htake, hdrop⟩ := span_extend hrest run
  rw [List.takeWhile_eq_self_iff.2 hrun] at htake
  rw [List.dropWhile_eq_nil_iff.2 hrun, List.nil_append] at hdrop
  exact ⟨htake, hdrop⟩

end Folio.Text
