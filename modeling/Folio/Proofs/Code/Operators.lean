import Folio.Code.Language
import Mathlib.Data.List.Basic

namespace Folio.Code.Language

/-- Operators back to back. The empty operator adds nothing and is left out. -/
def IsRun (ops : List (List Char)) (cs : List Char) : Prop :=
  ∃ run : List (List Char), cs = run.flatten ∧ ∀ op ∈ run, op ∈ ops ∧ op ≠ []

theorem isRun_nil (ops : List (List Char)) : IsRun ops [] :=
  ⟨[], rfl, fun _ h ↦ by cases h⟩

theorem isRun_cons_iff {ops : List (List Char)} {c : Char} {cs : List Char} :
    IsRun ops (c :: cs) ↔ ∃ op rest, c :: op ∈ ops ∧ cs = op ++ rest ∧ IsRun ops rest := by
  constructor
  · rintro ⟨run, hcs, hrun⟩
    obtain - | ⟨first, run⟩ := run
    · cases hcs
    obtain ⟨hmem, hne⟩ := hrun first (List.mem_cons_self ..)
    obtain ⟨o, op, rfl⟩ := List.exists_cons_of_ne_nil hne
    obtain ⟨rfl, rfl⟩ := List.cons.inj hcs
    exact ⟨op, run.flatten, hmem, rfl, run, rfl, fun op h ↦ hrun op (List.mem_cons_of_mem _ h)⟩
  · rintro ⟨op, rest, hmem, rfl, run, rfl, hrun⟩
    refine ⟨(c :: op) :: run, rfl, fun op' h ↦ ?_⟩
    rcases List.mem_cons.1 h with rfl | h
    · exact ⟨hmem, List.cons_ne_nil c op⟩
    · exact hrun op' h

theorem operatorSuffixes_getElem? (ops : List (List Char)) (cs : List Char) (n : Nat) :
    (operatorSuffixes ops cs)[n]?.getD false ↔ n ≤ cs.length ∧ IsRun ops (cs.drop n) := by
  induction cs generalizing n with
  | nil =>
    cases n with
    | zero => simp [operatorSuffixes, isRun_nil]
    | succ n => simp [operatorSuffixes]
  | cons c cs ih =>
    cases n with
    | succ n => simpa [operatorSuffixes] using ih n
    | zero =>
      -- an operator at the front, and the entry of the suffix that it leaves
      simp only [operatorSuffixes, List.getElem?_cons_zero, Option.getD_some, List.any_eq_true,
        Nat.zero_le, List.drop_zero, true_and, isRun_cons_iff]
      constructor
      · rintro ⟨op, hmem, hop⟩
        obtain - | ⟨o, op⟩ := op
        · cases hop
        obtain ⟨hstart, hentry⟩ := Bool.and_eq_true_iff.1 hop
        obtain ⟨rfl, rest, rfl⟩ :=
          List.cons_prefix_cons.1 (List.isPrefixOf_iff_prefix.1 hstart)
        have hrest := ((ih op.length).1 hentry).2
        rw [List.drop_left] at hrest
        exact ⟨op, rest, hmem, rfl, hrest⟩
      · rintro ⟨op, rest, hmem, rfl, hrest⟩
        refine ⟨c :: op, hmem, Bool.and_eq_true_iff.2 ⟨?_, (ih op.length).2 ⟨by simp, ?_⟩⟩⟩
        · exact List.isPrefixOf_iff_prefix.2 (List.cons_prefix_cons.2 ⟨rfl, rest, rfl⟩)
        · rwa [List.drop_left]

theorem isRun_map_toList_iff {ops : List String} {text : String} :
    IsRun (ops.map String.toList) text.toList ↔
      ∃ run : List String, text = String.join run ∧ ∀ op ∈ run, op ∈ ops ∧ op ≠ "" := by
  constructor
  · rintro ⟨run, htext, hrun⟩
    refine ⟨run.map String.ofList, String.ext ?_, fun op hop ↦ ?_⟩
    · rw [htext, String.toList_join, List.flatMap_map]
      simp [List.flatMap_def]
    · obtain ⟨o, ho, rfl⟩ := List.mem_map.1 hop
      obtain ⟨hmem, hne⟩ := hrun o ho
      obtain ⟨op', hop', rfl⟩ := List.mem_map.1 hmem
      rw [String.ofList_toList]
      exact ⟨hop', by simpa using hne⟩
  · rintro ⟨run, rfl, hrun⟩
    refine ⟨run.map String.toList, String.toList_join, fun op hop ↦ ?_⟩
    obtain ⟨o, ho, rfl⟩ := List.mem_map.1 hop
    obtain ⟨hmem, hne⟩ := hrun o ho
    exact ⟨List.mem_map_of_mem hmem, by simpa using hne⟩

/-- A text that is not empty passes exactly when operators of the language spell it. -/
theorem isOperatorRun_iff (l : Language) {text : String} (h : text ≠ "") :
    l.isOperatorRun text ↔
      ∃ run : List String, text = String.join run ∧ ∀ op ∈ run, op ∈ l.operators ∧ op ≠ "" := by
  have hempty : ¬text.isEmpty := by simpa using h
  have hsuffixes := operatorSuffixes_getElem? (l.operators.map String.toList) text.toList 0
  rw [← isRun_map_toList_iff, isOperatorRun, if_neg hempty, List.headD_eq_head?_getD,
    List.head?_eq_getElem?]
  simpa using hsuffixes

end Folio.Code.Language
