import Folio.Proofs.Code.Operators
import Mathlib.Computability.RegularExpressions

namespace Folio.Code.Language

/-- A text is a concatenation of one or more of the given ones. -/
def IsConcat (ops : List String) (text : String) : Prop :=
  ∃ run : List String, run ≠ [] ∧ (∀ op ∈ run, op ∈ ops) ∧ text = String.join run

theorem IsConcat.mono {ops ops' : List String} {text : String} (h : IsConcat ops text)
    (hops : ∀ op ∈ ops, op ∈ ops') : IsConcat ops' text := by
  obtain ⟨run, hne, hrun, htext⟩ := h
  exact ⟨run, hne, fun op hop ↦ hops op (hrun op hop), htext⟩

theorem isConcat_empty_iff {ops : List String} : IsConcat ops "" ↔ "" ∈ ops := by
  constructor
  · rintro ⟨run, hne, hrun, htext⟩
    obtain ⟨first, run, rfl⟩ := List.exists_cons_of_ne_nil hne
    have hfirst : first = "" := by
      rw [String.join_cons] at htext
      exact (String.append_eq_empty_iff.1 htext.symm).1
    exact hfirst ▸ hrun first List.mem_cons_self
  · intro h
    exact ⟨[""], by simp, by simpa using h, rfl⟩

theorem join_filter_ne_empty (run : List String) :
    String.join (run.filter (· ≠ "")) = String.join run := by
  induction run with
  | nil => rfl
  | cons op run ih =>
    by_cases hop : op = ""
    · rw [List.filter_cons_of_neg (by simpa using hop), ih, String.join_cons, hop,
        String.empty_append]
    · rw [List.filter_cons_of_pos (by simpa using hop), String.join_cons, ih, String.join_cons]

theorem isOperatorRun_iff_isConcat (l : Language) (h : l.operators ≠ []) (text : String) :
    l.isOperatorRun text ↔ IsConcat l.operators text := by
  by_cases htext : text = ""
  · subst htext
    rw [isConcat_empty_iff, isOperatorRun, if_pos (by decide)]
    simp [h]
  · rw [isOperatorRun_iff l htext]
    constructor
    · rintro ⟨run, rfl, hrun⟩
      refine ⟨run, ?_, fun op hop ↦ (hrun op hop).1, rfl⟩
      rintro rfl
      exact htext rfl
    · rintro ⟨run, -, hrun, rfl⟩
      -- the empty operators of the run add nothing to it
      refine ⟨run.filter (· ≠ ""), (join_filter_ne_empty run).symm, ?_⟩
      intro op hop
      obtain ⟨hmem, hne⟩ := List.mem_filter.1 hop
      exact ⟨hrun op hmem, by simpa using hne⟩

def literal : List Char → RegularExpression Char
  | [] => 1
  | c :: cs => .char c * literal cs

theorem mem_matches_literal {text cs : List Char} : cs ∈ (literal text).matches' ↔ cs = text := by
  induction text generalizing cs with
  | nil => exact Iff.rfl
  | cons c text ih =>
    rw [literal, RegularExpression.matches'_mul, Language.mem_mul]
    constructor
    · rintro ⟨first, hfirst, rest, hrest, rfl⟩
      obtain rfl : first = [c] := hfirst
      rw [ih.1 hrest]
      rfl
    · rintro rfl
      exact ⟨[c], rfl, text, ih.2 rfl, rfl⟩

def oneOf : List String → RegularExpression Char
  | [] => 0
  | op :: ops => literal op.toList + oneOf ops

theorem mem_matches_oneOf {ops : List String} {cs : List Char} :
    cs ∈ (oneOf ops).matches' ↔ ∃ op ∈ ops, cs = op.toList := by
  induction ops with
  | nil => simp [oneOf, Language.notMem_zero]
  | cons op ops ih =>
    rw [oneOf, RegularExpression.matches'_add, Language.mem_add, mem_matches_literal, ih]
    simp

/-- One or more operators of the table, longest first. -/
def pattern (l : Language) : RegularExpression Char :=
  let any := oneOf (l.operators.mergeSort fun a b ↦ b.utf8ByteSize ≤ a.utf8ByteSize)
  any * any.star

theorem mem_matches_pattern {l : Language} {text : String} :
    text.toList ∈ l.pattern.matches' ↔ IsConcat l.operators text := by
  have hany (cs : List Char) :
      cs ∈ (oneOf (l.operators.mergeSort fun a b ↦ b.utf8ByteSize ≤ a.utf8ByteSize)).matches' ↔
        ∃ op ∈ l.operators, cs = op.toList := by
    simp only [mem_matches_oneOf, List.mem_mergeSort]
  rw [pattern, RegularExpression.matches'_mul, Language.mem_mul]
  simp only [RegularExpression.matches'_star, Language.mem_kstar, hany]
  constructor
  · rintro ⟨first, ⟨op, hop, rfl⟩, rest, ⟨chunks, rfl, hchunks⟩, htext⟩
    refine ⟨op :: chunks.map String.ofList, by simp, ?_, String.toList_inj.1 ?_⟩
    · apply List.forall_mem_cons.2 ⟨hop, ?_⟩
      intro s hs
      obtain ⟨cs, hcs, rfl⟩ := List.mem_map.1 hs
      obtain ⟨op', hop', rfl⟩ := hchunks cs hcs
      rwa [String.ofList_toList]
    · rw [← htext, String.join_cons, String.toList_append, String.toList_join, List.flatMap_map]
      simp [List.flatMap_def]
  · rintro ⟨run, hne, hrun, rfl⟩
    obtain ⟨op, run, rfl⟩ := List.exists_cons_of_ne_nil hne
    obtain ⟨hop, hrun⟩ := List.forall_mem_cons.1 hrun
    refine ⟨op.toList, ⟨op, hop, rfl⟩, (run.map String.toList).flatten, ⟨_, rfl, ?_⟩, ?_⟩
    · intro cs hcs
      obtain ⟨op', hop', rfl⟩ := List.mem_map.1 hcs
      exact ⟨op', hrun op' hop', rfl⟩
    · rw [String.join_cons, String.toList_append, String.toList_join, List.flatMap_def]

/-- For a table that lists an operator, the runs are the concatenations of its operators, which are
what its pattern matches. Neither the order of the table nor a repetition in it matters. -/
theorem isOperatorRun_concat (l : Language) (h : l.operators ≠ []) (text : String) :
    (l.isOperatorRun text ↔ IsConcat l.operators text) ∧
      (l.isOperatorRun text ↔ text.toList ∈ l.pattern.matches') ∧
      ∀ l' : Language, (∀ op, op ∈ l'.operators ↔ op ∈ l.operators) →
        l'.isOperatorRun text = l.isOperatorRun text := by
  refine ⟨isOperatorRun_iff_isConcat l h text, ?_, ?_⟩
  · rw [isOperatorRun_iff_isConcat l h, mem_matches_pattern]
  · intro l' hops
    have h' : l'.operators ≠ [] := by
      obtain ⟨op, hop⟩ := List.exists_mem_of_ne_nil _ h
      exact List.ne_nil_of_mem ((hops op).2 hop)
    rw [Bool.eq_iff_iff, isOperatorRun_iff_isConcat l' h', isOperatorRun_iff_isConcat l h]
    exact ⟨fun hrun ↦ hrun.mono fun op ↦ (hops op).1, fun hrun ↦ hrun.mono fun op ↦ (hops op).2⟩

/-- A table whose longest operator leads astray, with one that is made of marks of patterns. -/
theorem isOperatorRun_concat_of_overlap :
    let l : Language := ⟨"x", [], [], ["a", "ab", "bc", ".*"], []⟩
    l.operators ≠ [] ∧
      (l.isOperatorRun "abc.*" ↔ IsConcat l.operators "abc.*") ∧
      (l.isOperatorRun "abc.*" ↔ "abc.*".toList ∈ l.pattern.matches') ∧
      ∀ l' : Language, (∀ op, op ∈ l'.operators ↔ op ∈ l.operators) →
        l'.isOperatorRun "abc.*" = l.isOperatorRun "abc.*" :=
  ⟨by decide, isOperatorRun_concat ⟨"x", [], [], ["a", "ab", "bc", ".*"], []⟩ (by decide) "abc.*"⟩

end Folio.Code.Language
