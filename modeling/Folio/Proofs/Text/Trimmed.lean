import Folio.Proofs.Text.Spans
import Folio.Text.Blank

namespace Folio.Text

def BeginsBare (cs : List Char) : Prop :=
  ∀ c ∈ cs.head?, isBlank c = false

def EndsBare (cs : List Char) : Prop :=
  ∀ c ∈ cs.getLast?, isBlank c = false

instance (cs : List Char) : Decidable (BeginsBare cs) :=
  decidable_of_iff (cs.head?.all (!isBlank ·)) (by simp [BeginsBare, Option.all_eq_true])

instance (cs : List Char) : Decidable (EndsBare cs) :=
  decidable_of_iff (cs.getLast?.all (!isBlank ·)) (by simp [EndsBare, Option.all_eq_true])

theorem beginsBare_dropBlank (cs : List Char) : BeginsBare (dropBlank cs) :=
  head_dropWhile

theorem endsBare_dropBlankEnd (cs : List Char) : EndsBare (dropBlankEnd cs) := by
  intro c hc
  rw [dropBlankEnd, List.getLast?_reverse] at hc
  exact beginsBare_dropBlank _ c hc

theorem dropBlank_append {gap rest : List Char} (hgap : ∀ c ∈ gap, isBlank c)
    (hrest : BeginsBare rest) : dropBlank (gap ++ rest) = rest :=
  (span_run hgap hrest).2

theorem BeginsBare.dropBlank_eq {cs : List Char} (h : BeginsBare cs) : dropBlank cs = cs := by
  have hcs : dropBlank ([] ++ cs) = cs := dropBlank_append (List.forall_mem_nil _) h
  rwa [List.nil_append] at hcs

theorem EndsBare.dropBlankEnd_append {cs gap : List Char} (h : EndsBare cs)
    (hgap : ∀ c ∈ gap, isBlank c) : dropBlankEnd (cs ++ gap) = cs := by
  have hreverse : BeginsBare cs.reverse := by
    intro c hc
    rw [List.head?_reverse] at hc
    exact h c hc
  rw [dropBlankEnd, List.reverse_append,
    dropBlank_append (fun c hc ↦ hgap c (List.mem_reverse.1 hc)) hreverse, List.reverse_reverse]

theorem EndsBare.dropBlankEnd_eq {cs : List Char} (h : EndsBare cs) : dropBlankEnd cs = cs := by
  have hcs : dropBlankEnd (cs ++ []) = cs := h.dropBlankEnd_append (List.forall_mem_nil _)
  rwa [List.append_nil] at hcs

theorem BeginsBare.dropBlankEnd {cs : List Char} (h : BeginsBare cs) :
    BeginsBare (dropBlankEnd cs) := by
  obtain ⟨after, hcs, -⟩ := exists_blanks_dropBlankEnd cs
  intro c hc
  refine h c ?_
  rw [hcs, List.head?_append, Option.mem_def.1 hc]
  rfl

def Trimmed (s : String) : Prop :=
  BeginsBare s.toList ∧ EndsBare s.toList

instance (s : String) : Decidable (Trimmed s) :=
  inferInstanceAs (Decidable (BeginsBare s.toList ∧ EndsBare s.toList))

theorem trimmed_trim (s : String) : Trimmed (trim s) := by
  rw [Trimmed, toList_trim]
  exact ⟨(beginsBare_dropBlank _).dropBlankEnd, endsBare_dropBlankEnd _⟩

structure TrimsTo (s t : String) : Prop where
  exists_blanks : ∃ before after, s.toList = before ++ t.toList ++ after ∧
    (∀ c ∈ before, isBlank c) ∧ ∀ c ∈ after, isBlank c
  trimmed : Trimmed t

theorem trimsTo_trim (s : String) : TrimsTo s (trim s) where
  exists_blanks := by
    obtain ⟨before, hs, hbefore⟩ := exists_blanks_dropBlank s.toList
    obtain ⟨after, hrest, hafter⟩ := exists_blanks_dropBlankEnd (dropBlank s.toList)
    refine ⟨before, after, ?_, hbefore, hafter⟩
    rw [toList_trim, List.append_assoc, ← hrest, ← hs]
  trimmed := trimmed_trim s

theorem TrimsTo.eq_trim {s t : String} (h : TrimsTo s t) : t = trim s := by
  obtain ⟨⟨before, after, hs, hbefore, hafter⟩, hbegin, hend⟩ := h
  rw [← String.toList_inj, toList_trim, hs, List.append_assoc]
  cases ht : t.toList with
  | nil =>
    -- the text is all blank, and its front takes the blanks behind as well
    have hall : ∀ c ∈ before ++ after, isBlank c := fun c hc ↦
      (List.mem_append.1 hc).elim (hbefore c) (hafter c)
    have hnone : dropBlank (before ++ after) = [] := List.dropWhile_eq_nil_iff.2 hall
    rw [List.nil_append, hnone]
    rfl
  | cons c cs =>
    rw [ht] at hbegin hend
    have hfront : BeginsBare (c :: cs ++ after) := forall_head_cons (hbegin c rfl) _
    rw [dropBlank_append hbefore hfront, hend.dropBlankEnd_append hafter]

end Folio.Text
