import Folio.Text.Split

namespace Folio.Text

structure IsPiece (sep : Char) (cs left piece right : List Char) : Prop where
  eq : cs = left ++ (piece ++ right)
  free : sep ∉ piece
  start : ∀ c ∈ left.getLast?, c = sep
  stop : ∀ c ∈ right.head?, c = sep

namespace IsPiece

variable {sep : Char} {cs left piece right : List Char}

/-- A piece of what stands behind a separator is a piece of the whole text. -/
theorem append (h : IsPiece sep cs left piece right) (first : List Char) :
    IsPiece sep (first ++ sep :: cs) (first ++ sep :: left) piece right := by
  refine ⟨by simp [h.eq], h.free, ?_, h.stop⟩
  intro c hc
  rw [List.getLast?_append, List.getLast?_cons, Option.some_or, Option.mem_some_iff] at hc
  cases hlast : left.getLast? with
  | none => rw [← hc, hlast, Option.getD_none]
  | some d =>
    rw [hlast, Option.getD_some] at hc
    exact hc ▸ h.start d hlast

theorem mem_splitOn (h : IsPiece sep cs left piece right) : piece ∈ splitOn sep cs := by
  have hstart := h.start
  have hstop := h.stop
  have hright : piece ∈ splitOn sep (piece ++ right) := by
    cases right with
    | nil => simp [splitOn_of_not_mem h.free]
    | cons c right =>
      obtain rfl : c = sep := hstop c rfl
      rw [splitOn_append_sep, splitOn_of_not_mem h.free]
      exact List.mem_append_left _ (List.mem_singleton_self piece)
  rw [h.eq]
  rcases List.eq_nil_or_concat left with rfl | ⟨first, c, rfl⟩
  · exact hright
  · rw [List.concat_eq_append] at hstart ⊢
    obtain rfl : c = sep := hstart c List.getLast?_concat
    rw [List.append_assoc, List.singleton_append, splitOn_append_sep]
    exact List.mem_append_right _ hright

end IsPiece

theorem exists_isPiece {sep : Char} (cs : List Char) {piece : List Char}
    (h : piece ∈ splitOn sep cs) : ∃ left right, IsPiece sep cs left piece right := by
  induction hn : cs.length using Nat.strongRecOn generalizing cs with
  | ind n ih =>
    by_cases hsep : sep ∈ cs
    · obtain ⟨first, rest, rfl, hfirst⟩ := List.eq_append_cons_of_mem hsep
      rw [splitOn_append_sep, splitOn_of_not_mem hfirst, List.mem_append,
        List.mem_singleton] at h
      rcases h with rfl | h
      · exact ⟨[], sep :: rest, rfl, hfirst, nofun, by simp⟩
      · have hlt : rest.length < n := by
          rw [← hn, List.length_append, List.length_cons]
          omega
        obtain ⟨left, right, hpiece⟩ := ih rest.length hlt rest h rfl
        exact ⟨first ++ sep :: left, right, hpiece.append first⟩
    · rw [splitOn_of_not_mem hsep, List.mem_singleton] at h
      subst h
      exact ⟨[], [], by simp, hsep, nofun, nofun⟩

theorem mem_splitOn_iff {sep : Char} {cs piece : List Char} :
    piece ∈ splitOn sep cs ↔ ∃ left right, IsPiece sep cs left piece right :=
  ⟨exists_isPiece cs, fun ⟨_, _, h⟩ ↦ h.mem_splitOn⟩

theorem splitFirst_eq_some_iff {α : Type} [DecidableEq α] {sep : α} {cs before after : List α} :
    splitFirst sep cs = some (before, after) ↔ cs = before ++ sep :: after ∧ sep ∉ before := by
  constructor
  · intro h
    obtain rfl := append_of_splitFirst h
    obtain ⟨first, rest, heq, hfirst⟩ := List.eq_append_cons_of_mem
      (List.mem_append_right before (List.mem_cons_self : sep ∈ sep :: after))
    rw [heq, splitFirst_append hfirst] at h
    obtain ⟨rfl, -⟩ := Prod.mk.inj (Option.some.inj h)
    exact ⟨rfl, hfirst⟩
  · rintro ⟨rfl, h⟩
    exact splitFirst_append h after

end Folio.Text
