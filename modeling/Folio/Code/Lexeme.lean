import Folio.Text.Blank
import Folio.Text.Word

namespace Folio.Code

open Text

/-- A lexeme and the text after it. -/
abbrev Cut := List Char × List Char

def atWordEnd (cs : List Char) : Bool :=
  cs.head?.all (!isWord ·)

def isHexDigit (c : Char) : Bool :=
  c.isDigit || ('a' ≤ c && c ≤ 'f') || ('A' ≤ c && c ≤ 'F')

def isBinaryDigit (c : Char) : Bool :=
  c == '0' || c == '1'

/-- A zero, the mark of a base in either case, and digits of that base up to the end of a word. -/
def cutBased (mark : Char) (isDigit : Char → Bool) : List Char → Option Cut
  | z :: x :: cs =>
    let digits := cs.takeWhile isDigit
    let rest := cs.dropWhile isDigit
    if z = '0' ∧ (x = mark ∨ x = mark.toUpper) ∧ digits ≠ [] ∧ atWordEnd rest then
      some (z :: x :: digits, rest)
    else none
  | _ => none

def cutHexadecimal : List Char → Option Cut :=
  cutBased 'x' isHexDigit

def cutBinary : List Char → Option Cut :=
  cutBased 'b' isBinaryDigit

def cutFloatMark (number rest : List Char) : Option Cut :=
  match rest with
  | c :: rest' =>
    if (c = 'f' ∨ c = 'F') ∧ atWordEnd rest' then some (number ++ [c], rest')
    else if atWordEnd rest then some (number, rest)
    else none
  | [] => some (number, [])

def cutFraction : List Char → Option Cut
  | '.' :: cs =>
    let digits := cs.takeWhile isDecimal
    if digits = [] then none else some ('.' :: digits, cs.dropWhile isDecimal)
  | _ => none

/-- A decimal number. Its fraction is left off where a word would go on after it. -/
def cutDecimal (cs : List Char) : Option Cut :=
  let whole := cs.takeWhile isDecimal
  let rest := cs.dropWhile isDecimal
  if whole = [] then none
  else
    ((cutFraction rest).bind fun (fraction, rest) ↦ cutFloatMark (whole ++ fraction) rest).or
      (cutFloatMark whole rest)

/-- What stands up to the quote that ends a literal. A backslash takes the next character with it,
which must be on the same line. -/
def cutToQuote (quote : Char) : List Char → Option Cut
  | [] => none
  | '\\' :: [] => none
  | '\\' :: c :: cs =>
    if c = '\n' then none
    else (cutToQuote quote cs).map fun (body, rest) ↦ ('\\' :: c :: body, rest)
  | c :: cs =>
    if c = quote then some ([c], cs)
    else (cutToQuote quote cs).map fun (body, rest) ↦ (c :: body, rest)

def cutQuoted (quote : Char) : List Char → Option Cut
  | [] => none
  | c :: cs =>
    if c = quote then (cutToQuote quote cs).map fun (body, rest) ↦ (c :: body, rest) else none

def cutCall (cs : List Char) : Option Cut :=
  let word := cs.takeWhile isWord
  let rest := cs.dropWhile isWord
  let blanks := rest.takeWhile isBlank
  match rest.dropWhile isBlank with
  | '(' :: rest => if word = [] then none else some (word ++ blanks ++ ['('], rest)
  | _ => none

def cutComment : List Char → Option Cut
  | '/' :: '/' :: cs => some ('/' :: '/' :: cs.takeWhile (· ≠ '\n'), cs.dropWhile (· ≠ '\n'))
  | _ => none

def cutPath (opening closing : Char) : List Char → Option Cut
  | [] => none
  | c :: cs =>
    let body := cs.takeWhile (· ≠ closing)
    match cs.dropWhile (· ≠ closing) with
    | [] => none
    | d :: rest => if c = opening ∧ body ≠ [] then some (c :: body ++ [d], rest) else none

def includeKeyword : List Char :=
  ['#', 'i', 'n', 'c', 'l', 'u', 'd', 'e']

def cutInclude (cs : List Char) : Option Cut :=
  if includeKeyword.isPrefixOf cs then
    let rest := cs.drop includeKeyword.length
    let blanks := rest.takeWhile isBlank
    let path := rest.dropWhile isBlank
    ((cutPath '<' '>' path).or (cutPath '"' '"' path)).map fun (path, rest) ↦
      (includeKeyword ++ blanks ++ path, rest)
  else none

def isSymbol (c : Char) : Bool :=
  !isWord c && !isBlank c

def cutWhile (p : Char → Bool) (c : Char) (cs : List Char) : Cut :=
  (c :: cs.takeWhile p, cs.dropWhile p)

def lexeme (c : Char) (cs : List Char) : Cut :=
  if isWord c then
    ((cutHexadecimal (c :: cs)).or ((cutBinary (c :: cs)).or ((cutDecimal (c :: cs)).or
      (cutCall (c :: cs))))).getD (cutWhile isWord c cs)
  else if isBlank c then cutWhile isBlank c cs
  else
    ((cutQuoted '"' (c :: cs)).or ((cutQuoted '\x27' (c :: cs)).or ((cutComment (c :: cs)).or
      (cutInclude (c :: cs))))).getD (cutWhile isSymbol c cs)

def Cut.Splits (cut : Cut) (cs : List Char) : Prop :=
  cut.1 ++ cut.2 = cs ∧ cut.1 ≠ []

theorem cutWhile_splits (p : Char → Bool) (c : Char) (cs : List Char) :
    (cutWhile p c cs).Splits (c :: cs) := by
  simp [cutWhile, Cut.Splits]

theorem cutBased_splits {mark : Char} {isDigit : Char → Bool} {cs : List Char} {cut : Cut}
    (h : cutBased mark isDigit cs = some cut) : cut.Splits cs := by
  unfold cutBased at h
  split at h
  · simp only [Option.ite_none_right_eq_some, Option.some.injEq] at h
    obtain ⟨-, rfl⟩ := h
    simp [Cut.Splits]
  · simp at h

theorem cutFloatMark_splits {number rest : List Char} {cut : Cut}
    (h : cutFloatMark number rest = some cut) (hn : number ≠ []) : cut.Splits (number ++ rest) := by
  unfold cutFloatMark at h
  split at h
  · split at h
    · cases h
      simp [Cut.Splits]
    · simp only [Option.ite_none_right_eq_some, Option.some.injEq] at h
      obtain ⟨-, rfl⟩ := h
      exact ⟨rfl, hn⟩
  · cases h
    exact ⟨rfl, hn⟩

theorem append_of_cutFraction {cs : List Char} {cut : Cut}
    (h : cutFraction cs = some cut) : cut.1 ++ cut.2 = cs := by
  unfold cutFraction at h
  split at h
  · simp only [Option.ite_none_left_eq_some, Option.some.injEq] at h
    obtain ⟨-, rfl⟩ := h
    simp
  · simp at h

theorem cutDecimal_splits {cs : List Char} {cut : Cut} (h : cutDecimal cs = some cut) :
    cut.Splits cs := by
  have hcs := List.takeWhile_append_dropWhile (p := isDecimal) (l := cs)
  simp only [cutDecimal] at h
  split at h
  · simp at h
  · next hw =>
    rcases Option.or_eq_some_iff.1 h with h | ⟨-, h⟩
    · obtain ⟨⟨fraction, rest⟩, hf, h⟩ := Option.bind_eq_some_iff.1 h
      have := cutFloatMark_splits h (by simp [hw])
      rwa [List.append_assoc, append_of_cutFraction hf, hcs] at this
    · have := cutFloatMark_splits h hw
      rwa [hcs] at this

theorem append_of_cutToQuote {quote : Char} {cs : List Char} {cut : Cut}
    (h : cutToQuote quote cs = some cut) : cut.1 ++ cut.2 = cs := by
  fun_induction cutToQuote quote cs generalizing cut with
  | case1 | case2 | case3 => simp at h
  | case4 c cs _ ih =>
    obtain ⟨p, hp, rfl⟩ := Option.map_eq_some_iff.1 h
    simp [ih hp]
  | case5 => cases h; rfl
  | case6 c cs _ _ _ ih =>
    obtain ⟨p, hp, rfl⟩ := Option.map_eq_some_iff.1 h
    simp [ih hp]

theorem cutQuoted_splits {quote : Char} {cs : List Char} {cut : Cut}
    (h : cutQuoted quote cs = some cut) : cut.Splits cs := by
  unfold cutQuoted at h
  split at h
  · simp at h
  · split at h
    · obtain ⟨p, hp, rfl⟩ := Option.map_eq_some_iff.1 h
      simp [Cut.Splits, append_of_cutToQuote hp]
    · simp at h

theorem cutCall_splits {cs : List Char} {cut : Cut} (h : cutCall cs = some cut) :
    cut.Splits cs := by
  simp only [cutCall] at h
  split at h
  · next rest hr =>
    simp only [Option.ite_none_left_eq_some, Option.some.injEq] at h
    obtain ⟨hw, rfl⟩ := h
    refine ⟨?_, by simp⟩
    simp only [List.append_assoc, List.singleton_append]
    rw [← hr, List.takeWhile_append_dropWhile, List.takeWhile_append_dropWhile]
  · simp at h

theorem cutComment_splits {cs : List Char} {cut : Cut} (h : cutComment cs = some cut) :
    cut.Splits cs := by
  unfold cutComment at h
  split at h
  · cases h
    simp [Cut.Splits]
  · simp at h

theorem append_of_cutPath {opening closing : Char} {cs : List Char} {cut : Cut}
    (h : cutPath opening closing cs = some cut) : cut.1 ++ cut.2 = cs := by
  unfold cutPath at h
  split at h
  · simp at h
  · simp only at h
    split at h
    · simp at h
    · next hd =>
      simp only [Option.ite_none_right_eq_some, Option.some.injEq] at h
      obtain ⟨-, rfl⟩ := h
      simp only [List.cons_append, List.append_assoc, List.nil_append]
      rw [← hd, List.takeWhile_append_dropWhile]

theorem cutInclude_splits {cs : List Char} {cut : Cut} (h : cutInclude cs = some cut) :
    cut.Splits cs := by
  simp only [cutInclude] at h
  split at h
  · next hp =>
    obtain ⟨p, hp', rfl⟩ := Option.map_eq_some_iff.1 h
    have hpath : p.1 ++ p.2 = (cs.drop includeKeyword.length).dropWhile isBlank := by
      rcases Option.or_eq_some_iff.1 hp' with h | ⟨-, h⟩ <;> exact append_of_cutPath h
    refine ⟨?_, by simp [includeKeyword]⟩
    simp only [List.append_assoc]
    rw [hpath, List.takeWhile_append_dropWhile]
    exact List.prefix_iff_eq_append.1 (List.isPrefixOf_iff_prefix.1 hp)
  · simp at h

theorem lexeme_splits (c : Char) (cs : List Char) : (lexeme c cs).Splits (c :: cs) := by
  have getD {x : Option Cut} {d : Cut} (hx : ∀ cut, x = some cut → cut.Splits (c :: cs))
      (hd : d.Splits (c :: cs)) : (x.getD d).Splits (c :: cs) := by
    cases x with
    | none => exact hd
    | some cut => exact hx cut rfl
  unfold lexeme
  split
  · refine getD (fun cut h ↦ ?_) (cutWhile_splits ..)
    rcases Option.or_eq_some_iff.1 h with h | ⟨-, h⟩
    · exact cutBased_splits h
    rcases Option.or_eq_some_iff.1 h with h | ⟨-, h⟩
    · exact cutBased_splits h
    rcases Option.or_eq_some_iff.1 h with h | ⟨-, h⟩
    · exact cutDecimal_splits h
    · exact cutCall_splits h
  · split
    · exact cutWhile_splits ..
    · refine getD (fun cut h ↦ ?_) (cutWhile_splits ..)
      rcases Option.or_eq_some_iff.1 h with h | ⟨-, h⟩
      · exact cutQuoted_splits h
      rcases Option.or_eq_some_iff.1 h with h | ⟨-, h⟩
      · exact cutQuoted_splits h
      rcases Option.or_eq_some_iff.1 h with h | ⟨-, h⟩
      · exact cutComment_splits h
      · exact cutInclude_splits h

def lexCode : List Char → List (List Char)
  | [] => []
  | c :: cs => (lexeme c cs).1 :: lexCode (lexeme c cs).2
termination_by cs => cs.length
decreasing_by
  have ⟨h, hne⟩ := lexeme_splits c cs
  rw [← h, List.length_append]
  have := List.length_pos_iff.2 hne
  omega

theorem flatten_lexCode (cs : List Char) : (lexCode cs).flatten = cs := by
  fun_induction lexCode cs with
  | case1 => rfl
  | case2 c cs ih => rw [List.flatten_cons, ih, (lexeme_splits c cs).1]

end Folio.Code
