import Folio.Proofs.Code.Content
import Folio.Proofs.Code.Whole
import Mathlib.Algebra.GroupWithZero.Nat
import Mathlib.Data.List.Basic

namespace Folio.Code

open Text

structure IncludeForm (cs gap path : List Char) : Prop where
  eq : cs = includeKeyword ++ (gap ++ path)
  blank : ∀ c ∈ gap, isBlank c
  last : ∃ rest c, path = rest ++ [c] ∧ ¬isBlank c

theorem IsDirective.includeForm {cs gap path : List Char} (h : IsDirective cs gap path) :
    IncludeForm cs gap path := by
  refine ⟨h.eq, h.blank, ?_⟩
  cases h.path with
  | @angles path _ _ => exact ⟨'<' :: path, '>', rfl, by decide⟩
  | @quotes path _ _ => exact ⟨'"' :: path, '"', rfl, by decide⟩

/-- The line ends between the keyword and the path of an include directive. -/
def Token.hiddenBreaks (t : Token) : Nat :=
  let cs := t.text.toList
  if t.category = .include ∧ isWhole cutInclude cs then
    ((cs.drop includeKeyword.length).takeWhile isBlank).count '\n'
  else 0

def hiddenBreaks (ts : List Token) : Nat :=
  (ts.map Token.hiddenBreaks).sum

theorem text_callPieces {cs : List Char} (h : cs.getLast? = some '(') (spanClass : Option String) :
    Line.text (callPieces spanClass cs) = cs := by
  obtain ⟨head, rfl⟩ := List.getLast?_eq_some_iff.1 h
  obtain ⟨after, hafter, -⟩ := exists_blanks_dropBlankEnd head
  have hname : dropBlankEnd head <+: head := ⟨after, hafter.symm⟩
  calc Line.text (callPieces spanClass (head ++ ['(']))
      = dropBlankEnd head ++ head.drop (dropBlankEnd head).length ++ ['('] := by
        simp [callPieces, Line.text]
    _ = head ++ ['('] := by rw [List.prefix_iff_eq_append.1 hname]

namespace Token

variable {t : Token}

/-- In an include directive one space takes the place of the blanks. -/
theorem text_pieces_of_directive (hc : t.category = .include) {gap path : List Char}
    (h : IsDirective t.text.toList gap path) :
    Line.text t.pieces = includeKeyword ++ ' ' :: path := by
  have hpieces : t.pieces = includePieces t.text.toList := by
    rw [pieces, hc]
  have hpath : dropBlank (t.text.toList.drop includeKeyword.length) = path := h.path_eq.2
  rw [hpieces, includePieces, if_pos (isWhole_cutInclude_iff.2 ⟨gap, path, h⟩), hpath]
  simp [Line.text]

/-- Any other token is shown as it stands. -/
theorem text_pieces_of_other
    (h : t.category = .include → ∀ gap path, ¬IsDirective t.text.toList gap path) :
    Line.text t.pieces = t.text.toList := by
  rcases t.pieces_cases with ⟨-, hone | ⟨hlast, hcall⟩⟩ | ⟨hc, hpieces⟩
  · rw [hone]
    exact List.append_nil _
  · rw [hcall, text_callPieces hlast]
  · have hnot : ¬isWhole cutInclude t.text.toList := by
      intro hwhole
      obtain ⟨gap, path, hdirective⟩ := isWhole_cutInclude_iff.1 hwhole
      exact h hc gap path hdirective
    rw [hpieces, includePieces, if_neg hnot]
    exact List.append_nil _

theorem shown_cases (t : Token) :
    Line.text t.pieces = t.text.toList ∧ t.hiddenBreaks = 0 ∨
      ∃ gap path, IncludeForm t.text.toList gap path ∧
        Line.text t.pieces = includeKeyword ++ ' ' :: path ∧ t.hiddenBreaks = gap.count '\n' := by
  by_cases h : t.category = .include ∧ isWhole cutInclude t.text.toList
  · obtain ⟨gap, path, hdirective⟩ := isWhole_cutInclude_iff.1 h.2
    refine .inr ⟨gap, path, hdirective.includeForm, text_pieces_of_directive h.1 hdirective, ?_⟩
    rw [hiddenBreaks, if_pos h, hdirective.path_eq.1]
  · refine .inl ⟨text_pieces_of_other fun hc gap path hdirective ↦ h ⟨hc, ?_⟩, if_neg h⟩
    exact isWhole_cutInclude_iff.2 ⟨gap, path, hdirective⟩

end Token

namespace IncludeForm

variable {cs gap path : List Char}

theorem filter_eq (h : IncludeForm cs gap path) {q : Char → Bool} (hspace : q ' ' = false)
    (hgap : gap.filter q = []) : (includeKeyword ++ ' ' :: path).filter q = cs.filter q := by
  have hpath : (' ' :: path).filter q = path.filter q := List.filter_cons_of_neg (by simp [hspace])
  rw [h.eq, List.filter_append, List.filter_append, List.filter_append, hpath, hgap,
    List.nil_append]

theorem count_eq (h : IncludeForm cs gap path) :
    (includeKeyword ++ ' ' :: path).count '\n' + gap.count '\n' = cs.count '\n' := by
  have hspace : (' ' :: path).count '\n' = path.count '\n' := List.count_cons_of_ne (by decide)
  rw [h.eq, List.count_append, List.count_append, List.count_append, hspace]
  omega

end IncludeForm

def codeText (ts : List Token) : List Char :=
  ts.flatMap (·.text.toList)

theorem shownText_eq (ts : List Token) : shownText ts = ts.flatMap fun t ↦ Line.text t.pieces :=
  List.flatMap_assoc

theorem filter_shownText {q : Char → Bool} {ts : List Token}
    (h : ∀ t ∈ ts, (Line.text t.pieces).filter q = t.text.toList.filter q) :
    (shownText ts).filter q = (codeText ts).filter q := by
  rw [shownText_eq, codeText, List.filter_flatMap, List.filter_flatMap]
  exact List.flatMap_congr h

theorem ink_shownText (ts : List Token) : ink (shownText ts) = ink (codeText ts) := by
  refine filter_shownText fun t _ ↦ ?_
  rcases t.shown_cases with ⟨heq, -⟩ | ⟨gap, path, hform, heq, -⟩
  · rw [heq]
  · rw [heq]
    exact hform.filter_eq (by decide) (ink_of_blank hform.blank)

theorem skeleton_shownText {ts : List Token} (h : hiddenBreaks ts = 0) :
    skeleton (shownText ts) = skeleton (codeText ts) := by
  refine filter_shownText fun t ht ↦ ?_
  rcases t.shown_cases with ⟨heq, -⟩ | ⟨gap, path, hform, heq, hgap⟩
  · rw [heq]
  · have hzero : gap.count '\n' = 0 :=
      hgap ▸ List.sum_eq_zero_iff_forall_eq_nat.1 h _ (List.mem_map_of_mem ht)
    rw [heq]
    refine hform.filter_eq (by decide) (List.filter_eq_nil_iff.2 fun c hc ↦ ?_)
    have hne : c ≠ '\n' := by
      rintro rfl
      exact List.count_eq_zero.1 hzero hc
    simp [hne, hform.blank c hc]

theorem count_shownText (ts : List Token) :
    (shownText ts).count '\n' + hiddenBreaks ts = (codeText ts).count '\n' := by
  rw [shownText_eq, codeText, hiddenBreaks]
  induction ts with
  | nil => rfl
  | cons t ts ih =>
    have ht : (Line.text t.pieces).count '\n' + t.hiddenBreaks = t.text.toList.count '\n' := by
      rcases t.shown_cases with ⟨heq, hzero⟩ | ⟨gap, path, hform, heq, hgap⟩
      · rw [heq, hzero, Nat.add_zero]
      · rw [heq, hgap, hform.count_eq]
    rw [List.flatMap_cons, List.flatMap_cons, List.count_append, List.count_append, List.map_cons,
      List.sum_cons]
    omega

/-- Texts put together from parts that are the same, or begin with ink both, begin with the same
blanks. -/
theorem takeWhile_flatMap_congr {α : Type} {f g : α → List Char}
    (h : ∀ t, f t = g t ∨ (∃ c rest, f t = c :: rest ∧ ¬isBlank c) ∧
      ∃ c rest, g t = c :: rest ∧ ¬isBlank c) (ts : List α) :
    (ts.flatMap f).takeWhile isBlank = (ts.flatMap g).takeWhile isBlank := by
  induction ts with
  | nil => rfl
  | cons t ts ih =>
    rw [List.flatMap_cons, List.flatMap_cons]
    rcases h t with heq | ⟨⟨c, cs, hf, hc⟩, d, ds, hg, hd⟩
    · rw [heq, List.takeWhile_append, List.takeWhile_append, ih]
    · rw [hf, hg, List.cons_append, List.cons_append, List.takeWhile_cons_of_neg hc,
        List.takeWhile_cons_of_neg hd]

theorem takeWhile_shownText (ts : List Token) :
    (shownText ts).takeWhile isBlank = (codeText ts).takeWhile isBlank := by
  rw [shownText_eq, codeText]
  refine takeWhile_flatMap_congr (fun t ↦ ?_) ts
  rcases t.shown_cases with ⟨heq, -⟩ | ⟨gap, path, hform, heq, -⟩
  · exact .inl heq
  · exact .inr ⟨⟨'#', _, heq, by decide⟩, '#', _, hform.eq, by decide⟩

theorem takeWhile_reverse_shownText (ts : List Token) :
    (shownText ts).reverse.takeWhile isBlank = (codeText ts).reverse.takeWhile isBlank := by
  rw [shownText_eq, codeText, List.reverse_flatMap, List.reverse_flatMap]
  refine takeWhile_flatMap_congr (fun t ↦ ?_) ts.reverse
  rcases t.shown_cases with ⟨heq, -⟩ | ⟨gap, path, hform, heq, -⟩
  · exact .inl (congrArg List.reverse heq)
  · -- a directive ends with the delimiter of its path, shown or written
    obtain ⟨rest, c, hpath, hc⟩ := hform.last
    refine .inr ⟨⟨c, (includeKeyword ++ ' ' :: rest).reverse, ?_, hc⟩,
      c, (includeKeyword ++ (gap ++ rest)).reverse, ?_, hc⟩
    · simp [heq, hpath]
    · simp [hform.eq, hpath]

theorem codeText_classify (l : Language) (code : String) :
    codeText (classify l code) = code.toList := by
  have htext : codeText (classify l code) = (lexCode code.toList).flatten := by
    simp [codeText, classify, lexemes, List.flatMap_def, Function.comp_def]
  rw [htext, flatten_lexCode]

end Folio.Code
