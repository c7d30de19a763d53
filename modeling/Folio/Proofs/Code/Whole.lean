import Folio.Proofs.Code.Forms

namespace Folio.Code

open Text

/-- A cut that loses nothing takes a whole text when it leaves nothing of it. -/
theorem isWhole_iff {cut : List Char → Option Cut} {cs : List Char}
    (h : ∀ c, cut cs = some c → c.1 ++ c.2 = cs) : isWhole cut cs ↔ cut cs = some (cs, []) := by
  constructor
  · intro hwhole
    obtain ⟨⟨text, rest⟩, hcut, hrest⟩ := (Option.any_eq_true _ _).1 hwhole
    obtain rfl : rest = [] := List.isEmpty_iff.1 hrest
    obtain rfl : text = cs := by simpa using h _ hcut
    exact hcut
  · intro hcut
    rw [isWhole, hcut]
    rfl

section

variable {mark : Char} {isDigit : Char → Bool}

inductive IsBased (mark : Char) (isDigit : Char → Bool) : List Char → Prop
  | intro {x : Char} {digits : List Char} : x = mark ∨ x = mark.toUpper → digits ≠ [] →
      (∀ c ∈ digits, isDigit c) → IsBased mark isDigit ('0' :: x :: digits)

theorem isWhole_cutBased_iff {cs : List Char} :
    isWhole (cutBased mark isDigit) cs ↔ IsBased mark isDigit cs := by
  rw [isWhole_iff fun _ h ↦ (cutBased_splits h).1]
  constructor
  · intro h
    unfold cutBased at h
    split at h
    · next z x cs =>
      obtain ⟨⟨rfl, hx, hne, -⟩, hcut⟩ := Option.ite_none_right_eq_some.1 h
      have hrest := congrArg Prod.snd (Option.some.inj hcut)
      have hdigits := List.dropWhile_eq_nil_iff.1 hrest
      rw [List.takeWhile_eq_self_iff.2 hdigits] at hne
      exact .intro hx hne hdigits
    · cases h
  · rintro ⟨hx, hne, hdigits⟩
    simp only [cutBased, List.takeWhile_eq_self_iff.2 hdigits, List.dropWhile_eq_nil_iff.2 hdigits]
    exact if_pos ⟨trivial, hx, hne, rfl⟩

end

def IsFloatMark (mark : List Char) : Prop :=
  mark = [] ∨ mark = ['f'] ∨ mark = ['F']

inductive IsDecimalNumber : List Char → Prop
  | whole {whole mark : List Char} : whole ≠ [] → (∀ c ∈ whole, isDecimal c) → IsFloatMark mark →
      IsDecimalNumber (whole ++ mark)
  | fraction {whole part mark : List Char} : whole ≠ [] → (∀ c ∈ whole, isDecimal c) →
      part ≠ [] → (∀ c ∈ part, isDecimal c) → IsFloatMark mark →
      IsDecimalNumber (whole ++ '.' :: (part ++ mark))

theorem IsFloatMark.stop {mark : List Char} (h : IsFloatMark mark) :
    ∀ c ∈ mark.head?, isDecimal c = false := by
  rcases h with rfl | rfl | rfl
  · nofun
  · exact forall_head_cons (by decide) []
  · exact forall_head_cons (by decide) []

theorem IsFloatMark.cutFloatMark {mark : List Char} (h : IsFloatMark mark) (number : List Char) :
    cutFloatMark number mark = some (number ++ mark, []) := by
  rcases h with rfl | rfl | rfl
  · rw [List.append_nil]
    rfl
  · rfl
  · rfl

theorem IsFloatMark.cutFraction {mark : List Char} (h : IsFloatMark mark) :
    cutFraction mark = none := by
  rcases h with rfl | rfl | rfl <;> rfl

theorem cutFraction_append {part rest : List Char} (hne : part ≠ [])
    (hpart : ∀ c ∈ part, isDecimal c) (hrest : ∀ c ∈ rest.head?, isDecimal c = false) :
    cutFraction ('.' :: (part ++ rest)) = some ('.' :: part, rest) := by
  obtain ⟨htake, hdrop⟩ := span_run hpart hrest
  simp only [cutFraction, htake, hdrop, if_neg hne]

theorem isWhole_cutDecimal_iff {cs : List Char} :
    isWhole cutDecimal cs ↔ IsDecimalNumber cs := by
  rw [isWhole_iff fun _ h ↦ (cutDecimal_splits h).1]
  constructor
  · intro h
    simp only [cutDecimal] at h
    obtain ⟨hne, hcut⟩ := Option.ite_none_left_eq_some.1 h
    have hwhole : ∀ c ∈ cs.takeWhile isDecimal, isDecimal c := fun c hc ↦ List.mem_takeWhile_imp hc
    rcases Option.or_eq_some_iff.1 hcut with hcut | ⟨-, hcut⟩
    · obtain ⟨⟨fraction, rest⟩, hf, hcut⟩ := Option.bind_eq_some_iff.1 hcut
      obtain ⟨part, hpart, hdigits, rfl⟩ := cutFraction_eq hf
      obtain ⟨mark, hmark, heq, -⟩ := cutFloatMark_eq hcut
      have hcs : cs = cs.takeWhile isDecimal ++ '.' :: (part ++ mark) := by simpa using heq
      rw [hcs]
      exact .fraction hne hwhole hpart hdigits hmark
    · obtain ⟨mark, hmark, heq, -⟩ := cutFloatMark_eq hcut
      have hcs : cs = cs.takeWhile isDecimal ++ mark := heq
      rw [hcs]
      exact .whole hne hwhole hmark
  · rintro (⟨hne, hwhole, hmark⟩ | @⟨whole, part, mark, hne, hwhole, hpart, hdigits, hmark⟩)
    · obtain ⟨htake, hdrop⟩ := span_run hwhole hmark.stop
      simp only [cutDecimal, htake, hdrop, if_neg hne, hmark.cutFraction, Option.bind_none,
        Option.none_or, hmark.cutFloatMark]
    · have hpoint : ∀ c ∈ ('.' :: (part ++ mark)).head?, isDecimal c = false :=
        forall_head_cons (by decide) _
      obtain ⟨htake, hdrop⟩ := span_run hwhole hpoint
      simp only [cutDecimal, htake, hdrop, if_neg hne, cutFraction_append hpart hdigits hmark.stop,
        Option.bind_some, hmark.cutFloatMark, Option.some_or, List.append_assoc, List.cons_append]

inductive IsNumeral (cs : List Char) : Prop
  | hexadecimal : IsBased 'x' isHexDigit cs → IsNumeral cs
  | binary : IsBased 'b' isBinaryDigit cs → IsNumeral cs
  | decimal : IsDecimalNumber cs → IsNumeral cs

theorem isNumber_iff {cs : List Char} : isNumber cs ↔ IsNumeral cs := by
  rw [isNumber, Bool.or_eq_true, Bool.or_eq_true, cutHexadecimal, isWhole_cutBased_iff, cutBinary,
    isWhole_cutBased_iff, isWhole_cutDecimal_iff]
  constructor
  · rintro ((h | h) | h)
    · exact .hexadecimal h
    · exact .binary h
    · exact .decimal h
  · rintro (h | h | h)
    · exact .inl (.inl h)
    · exact .inl (.inr h)
    · exact .inr h

theorem IsNumeral.head_isDecimal {cs : List Char} (h : IsNumeral cs) :
    ∃ c ds, cs = c :: ds ∧ isDecimal c := by
  have hwhole {whole rest : List Char} (hne : whole ≠ []) (hdigits : ∀ c ∈ whole, isDecimal c) :
      ∃ c ds, whole ++ rest = c :: ds ∧ isDecimal c := by
    obtain ⟨c, ds, rfl⟩ := List.exists_cons_of_ne_nil hne
    exact ⟨c, ds ++ rest, rfl, hdigits c (List.mem_cons_self ..)⟩
  rcases h with ⟨hx, -, -⟩ | ⟨hx, -, -⟩ | (⟨hne, hdigits, -⟩ | ⟨hne, hdigits, -, -, -⟩)
  · exact ⟨_, _, rfl, by decide⟩
  · exact ⟨_, _, rfl, by decide⟩
  · exact hwhole hne hdigits
  · exact hwhole hne hdigits

structure IsCall (cs word gap : List Char) : Prop where
  eq : cs = word ++ (gap ++ ['('])
  ne_nil : word ≠ []
  word : ∀ c ∈ word, isWord c
  blank : ∀ c ∈ gap, isBlank c

theorem IsCall.span {cs word gap : List Char} (h : IsCall cs word gap) :
    cs.takeWhile isWord = word ∧ cs.dropWhile isWord = gap ++ ['('] := by
  have hstop : ∀ c ∈ (gap ++ ['(']).head?, isWord c = false := by
    cases gap with
    | nil => exact forall_head_cons (by decide) []
    | cons c gap =>
      exact forall_head_cons (isWord_eq_false_of_isBlank (h.blank c (List.mem_cons_self ..))) _
  rw [h.eq]
  exact span_run h.word hstop

theorem isWhole_cutCall_iff {cs : List Char} :
    isWhole cutCall cs ↔ ∃ word gap, IsCall cs word gap := by
  rw [isWhole_iff fun _ h ↦ (cutCall_splits h).1]
  constructor
  · intro h
    simp only [cutCall] at h
    split at h
    · obtain ⟨hne, hcut⟩ := Option.ite_none_left_eq_some.1 h
      have heq := (Prod.mk.inj (Option.some.inj hcut)).1
      rw [List.append_assoc] at heq
      exact ⟨_, _, heq.symm, hne, fun c hc ↦ List.mem_takeWhile_imp hc,
        fun c hc ↦ List.mem_takeWhile_imp hc⟩
    · cases h
  · rintro ⟨word, gap, h⟩
    obtain ⟨htake, hdrop⟩ := h.span
    obtain ⟨hblanks, hparen⟩ := span_run h.blank (forall_head_cons (by decide) [] :
      ∀ c ∈ ['('].head?, isBlank c = false)
    simp only [cutCall, htake, hdrop, hblanks, hparen, if_neg h.ne_nil]
    rw [List.append_assoc, ← h.eq]

inductive IsPath : List Char → Prop
  | angles {path : List Char} : path ≠ [] → '>' ∉ path → IsPath ('<' :: (path ++ ['>']))
  | quotes {path : List Char} : path ≠ [] → '"' ∉ path → IsPath ('"' :: (path ++ ['"']))

theorem cutPath_enclosed {opening closing : Char} {path : List Char} (hne : path ≠ [])
    (hpath : closing ∉ path) :
    cutPath opening closing (opening :: (path ++ [closing])) =
      some (opening :: (path ++ [closing]), []) := by
  have hbody : ∀ c ∈ path, decide (c ≠ closing) = true :=
    fun c hc ↦ by simpa using ne_of_mem_of_not_mem hc hpath
  have hstop : ∀ c ∈ [closing].head?, decide (c ≠ closing) = false :=
    forall_head_cons (by simp) []
  obtain ⟨htake, hdrop⟩ := span_run hbody hstop
  simp only [cutPath, htake, hdrop, if_pos (And.intro trivial hne)]
  rfl

theorem IsPath.cutPath {path : List Char} (h : IsPath path) :
    (cutPath '<' '>' path).or (cutPath '"' '"' path) = some (path, []) := by
  rcases h with ⟨hne, hpath⟩ | ⟨hne, hpath⟩
  · rw [cutPath_enclosed hne hpath, Option.some_or]
  · rw [cutPath_of_ne (by decide), Option.none_or, cutPath_enclosed hne hpath]

structure IsDirective (cs gap path : List Char) : Prop where
  eq : cs = includeKeyword ++ (gap ++ path)
  blank : ∀ c ∈ gap, isBlank c
  path : IsPath path

theorem IsDirective.path_eq {cs gap path : List Char} (h : IsDirective cs gap path) :
    (cs.drop includeKeyword.length).takeWhile isBlank = gap ∧
      (cs.drop includeKeyword.length).dropWhile isBlank = path := by
  have hstop : ∀ c ∈ path.head?, isBlank c = false := by
    rcases h.path with ⟨-, -⟩ | ⟨-, -⟩ <;> exact forall_head_cons (by decide) _
  rw [h.eq, List.drop_left]
  exact span_run h.blank hstop

theorem isWhole_cutInclude_iff {cs : List Char} :
    isWhole cutInclude cs ↔ ∃ gap path, IsDirective cs gap path := by
  rw [isWhole_iff fun _ h ↦ (cutInclude_splits h).1]
  constructor
  · intro h
    simp only [cutInclude] at h
    obtain ⟨-, hcut⟩ := Option.ite_none_right_eq_some.1 h
    obtain ⟨⟨path, rest⟩, hp, heq⟩ := Option.map_eq_some_iff.1 hcut
    have hcs := (Prod.mk.inj heq).1
    rw [List.append_assoc] at hcs
    refine ⟨_, path, hcs.symm, fun c hc ↦ List.mem_takeWhile_imp hc, ?_⟩
    rcases Option.or_eq_some_iff.1 hp with hp | ⟨-, hp⟩
    · obtain ⟨body, hne, hbody, rfl⟩ := cutPath_eq hp
      exact .angles hne fun h ↦ hbody _ h rfl
    · obtain ⟨body, hne, hbody, rfl⟩ := cutPath_eq hp
      exact .quotes hne fun h ↦ hbody _ h rfl
  · rintro ⟨gap, path, h⟩
    obtain ⟨hgap, hpath⟩ := h.path_eq
    have hkeyword : includeKeyword.isPrefixOf cs :=
      List.isPrefixOf_iff_prefix.2 ⟨gap ++ path, h.eq.symm⟩
    simp only [cutInclude, if_pos hkeyword, hgap, hpath, h.path.cutPath, Option.map_some]
    rw [List.append_assoc, ← h.eq]

end Folio.Code
