import Folio.Proofs.Code.Edges

namespace Folio.Code

open Text

section

variable {α : Type} {ls ms : List (List α)}

theorem joinLines_cons (h : ls ≠ []) (l : List α) (ms : List (List α)) :
    joinLines (l :: ls) ms = l :: joinLines ls ms := by
  cases ls with
  | nil => exact absurd rfl h
  | cons l' ls => rfl

theorem joinLines_ne_nil (h : ms ≠ []) (ls : List (List α)) : joinLines ls ms ≠ [] := by
  fun_cases joinLines ls ms with
  | case1 => exact h
  | case2 => simp
  | case3 => simp

theorem joinLines_concat_nil (h : ms ≠ []) (ls : List (List α)) :
    joinLines ls (ms ++ [[]]) = joinLines ls ms ++ [[]] := by
  obtain ⟨m, ms, rfl⟩ := List.exists_cons_of_ne_nil h
  induction ls with
  | nil => rfl
  | cons l ls ih =>
    cases ls with
    | nil => rfl
    | cons l' ls =>
      rw [joinLines_cons (List.cons_ne_nil l' ls), joinLines_cons (List.cons_ne_nil l' ls), ih,
        List.cons_append]

theorem joinLines_empty (ls : List (List α)) (h : ls ≠ []) : joinLines ls [[]] = ls := by
  induction ls with
  | nil => exact absurd rfl h
  | cons l ls ih =>
    cases ls with
    | nil => rw [joinLines, List.append_nil]
    | cons l' ls =>
      rw [joinLines_cons (List.cons_ne_nil l' ls), ih (List.cons_ne_nil l' ls)]

theorem empty_joinLines (h : ms ≠ []) : joinLines [[]] ms = ms := by
  obtain ⟨m, ms, rfl⟩ := List.exists_cons_of_ne_nil h
  rfl

end

def Piece.solid (p : Piece) : Line :=
  if p.text = [] then [] else [p]

def solidLines (ps : List Piece) : List Line :=
  (ps.foldr (fun p ls ↦ joinLines p.lines ls) [[]]).map (·.flatMap Piece.solid)

theorem solidLines_cons (p : Piece) (ps : List Piece) :
    solidLines (p :: ps) =
      joinLines ((splitOn '\n' p.text).map fun cs ↦ Piece.solid ⟨p.spanClass, cs⟩)
        (solidLines ps) := by
  have hlines : p.lines.map (·.flatMap Piece.solid) =
      (splitOn '\n' p.text).map fun cs ↦ Piece.solid ⟨p.spanClass, cs⟩ := by
    simp [Piece.lines, Function.comp_def]
  rw [← hlines]
  exact map_joinLines ..

theorem solidLines_ne_nil (ps : List Piece) : solidLines ps ≠ [] := by
  induction ps with
  | nil => simp [solidLines]
  | cons p ps ih =>
    rw [solidLines_cons]
    exact joinLines_ne_nil ih _

/-- The lines of a stretch of text in one colour. -/
theorem solidLines_singleton (p : Piece) :
    solidLines [p] = (splitOn '\n' p.text).map fun cs ↦ Piece.solid ⟨p.spanClass, cs⟩ := by
  rw [solidLines_cons]
  exact joinLines_empty _ (by simp [splitOn_ne_nil])

theorem isBlank_solid (l : Line) : Line.isBlank (l.flatMap Piece.solid) = l.isBlank := by
  rw [Line.isBlank, Line.isBlank, List.all_flatMap]
  congr 1
  funext p
  rw [Piece.solid]
  split
  · next h => simp [h]
  · simp

theorem markup_of_empty {p : Piece} (h : p.text = []) : p.markup = "" := by
  simp [Piece.markup, Piece.dropReturns, h]

theorem markup_solid (l : Line) : Line.markup (l.flatMap Piece.solid) = l.markup := by
  induction l with
  | nil => rfl
  | cons p l ih =>
    have hcons : Line.markup (p :: l) = p.markup ++ Line.markup l := by simp [Line.markup]
    rw [List.flatMap_cons, hcons, ← ih, Piece.solid]
    split
    · next h => simp [markup_of_empty h]
    · simp [Line.markup]

theorem renderLines_eq (ts : List Token) :
    renderLines ts =
      (trimEnds Line.isBlank (solidLines (ts.flatMap Token.pieces))).map Line.markup := by
  have hblank : Line.isBlank ∘ (·.flatMap Piece.solid) = Line.isBlank := funext isBlank_solid
  rw [solidLines, trimEnds_map, hblank, List.map_map]
  exact List.map_congr_left fun l _ ↦ (markup_solid l).symm

theorem categoryOf_empty (names : Declared) :
    categoryOf .cpp names "" = if names.isType "" then .customType
      else if names.isMember "" then .enumType else .identifier :=
  rfl

theorem isWhole_of_none {cut : List Char → Option Cut} {cs : List Char} (h : cut cs = none) :
    isWhole cut cs = false := by
  rw [isWhole, h]
  rfl

/-- The operators of the language hold no blanks. -/
theorem isBlank_operators : ∀ op ∈ Language.cpp.operators.map String.toList,
    op.all (!isBlank ·) := by
  decide +kernel

theorem isOperatorRun_of_blank {c : Char} (hc : isBlank c) (cs : List Char) :
    Language.cpp.isOperatorRun (String.ofList (c :: cs)) = false := by
  rw [Language.isOperatorRun, if_neg (by simp), String.toList_ofList,
    Language.operatorSuffixes, List.headD_cons, List.any_eq_false]
  intro op hop
  have hink := isBlank_operators op hop
  cases op with
  | nil => simp
  | cons o op =>
    have hoc : o ≠ c := by
      rintro rfl
      simp [hc] at hink
    simp [hoc]

theorem isCharLiteral_of_ne {c : Char} (h : c ≠ '\x27') (cs : List Char) :
    isCharLiteral (c :: cs) = false := by
  unfold isCharLiteral
  split
  · next heq => simp [← (List.cons.inj heq).1, h]
  · next heq => simp [← (List.cons.inj heq).1, h]
  · rfl

section

variable {c : Char} (hw : ¬isWord c)

include hw

theorem isNumber_of_not_word (cs : List Char) : isNumber (c :: cs) = false := by
  refine Bool.eq_false_iff.2 fun h ↦ ?_
  obtain ⟨d, ds, heq, hd⟩ := (isNumber_iff.1 h).head_isDecimal
  obtain ⟨rfl, rfl⟩ := List.cons.inj heq
  exact hw (isWord_of_isDecimal hd)

theorem cutCall_of_not_word (cs : List Char) : cutCall (c :: cs) = none := by
  simp only [cutCall, List.takeWhile_cons_of_neg hw]
  split
  · rfl
  · rfl

end

theorem categoryOf_blanks {b : List Char} (hb : ∀ c ∈ b, isBlank c) (names : Declared) :
    categoryOf .cpp names (String.ofList b) = categoryOf .cpp names "" := by
  cases b with
  | nil => rfl
  | cons c cs =>
    have hc : isBlank c := hb c (List.mem_cons_self ..)
    have hw : ¬isWord c := by simp [isWord_eq_false_of_isBlank hc]
    have hne : ∀ d, isBlank d = false → c ≠ d := by
      rintro d hd rfl
      rw [hc] at hd
      cases hd
    have hword : leadingWord (c :: cs) = "" := by
      rw [leadingWord, List.takeWhile_cons_of_neg hw]
    have hslash : ['/', '/'].isPrefixOf (c :: cs) = false := by
      simp [List.isPrefixOf, Ne.symm (hne '/' (by decide))]
    have hquoted : isWhole (cutQuoted '"') (c :: cs) = false :=
      isWhole_of_none (if_neg (hne '"' (by decide)))
    simp only [categoryOf, String.toList_ofList, hslash, hword, hquoted,
      isCharLiteral_of_ne (hne '\x27' (by decide)), isNumber_of_not_word hw,
      isWhole_of_none (cutCall_of_not_word hw cs),
      isWhole_of_none (cutInclude_of_ne (hne '#' (by decide)) cs), isOperatorRun_of_blank hc]
    rfl

def blankClass (names : Declared) : Option String :=
  (categoryOf .cpp names "").spanClass?

theorem pieces_blanks {b : List Char} (hb : ∀ c ∈ b, isBlank c) (names : Declared) :
    (tokenOf .cpp names b).pieces = [⟨blankClass names, b⟩] := by
  have hcategory : (tokenOf .cpp names b).category = categoryOf .cpp names "" :=
    categoryOf_blanks hb names
  have htext : (tokenOf .cpp names b).text.toList = b := String.toList_ofList
  rcases (tokenOf .cpp names b).pieces_cases with ⟨-, hone | ⟨hlast, -⟩⟩ | ⟨hinclude, -⟩
  · rw [hone, hcategory, htext]
    rfl
  · rw [htext] at hlast
    exact absurd (hb _ (List.mem_of_getLast? hlast)) (by decide)
  · rw [hcategory, categoryOf_empty] at hinclude
    revert hinclude
    split
    · simp
    · split <;> simp

def piecesOf (names : Declared) (ts : List (List Char)) : List Piece :=
  ts.flatMap fun t ↦ (tokenOf .cpp names t).pieces

theorem markupLines_eq (code : String) :
    markupLines .cpp code =
      (trimEnds Line.isBlank (solidLines (piecesOf (Declared.ofCode code .cpp)
        (lexCode code.toList)))).map Line.markup := by
  rw [markupLines, renderLines_eq, classify_eq, List.flatMap_map]
  rfl

variable {names : Declared} {ts : List (List Char)} {b : List Char}

theorem piecesOf_concat (hb : ∀ c ∈ b, isBlank c) :
    piecesOf names (ts ++ [b]) = piecesOf names ts ++ [⟨blankClass names, b⟩] := by
  rw [piecesOf, List.flatMap_append, List.flatMap_singleton, pieces_blanks hb]
  rfl

theorem piecesOf_cons (hb : ∀ c ∈ b, isBlank c) :
    piecesOf names (b :: ts) = ⟨blankClass names, b⟩ :: piecesOf names ts := by
  rw [piecesOf, List.flatMap_cons, pieces_blanks hb]
  rfl

theorem solidLines_concat_newline (ps : List Piece) (s : Option String) (b : List Char) :
    solidLines (ps ++ [⟨s, b ++ ['\n']⟩]) = solidLines (ps ++ [⟨s, b⟩]) ++ [[]] := by
  induction ps with
  | nil =>
    rw [List.nil_append, List.nil_append, solidLines_singleton, solidLines_singleton,
      splitOn_append_sep, List.map_append]
    rfl
  | cons p ps ih =>
    rw [List.cons_append, List.cons_append, solidLines_cons, solidLines_cons, ih,
      joinLines_concat_nil (solidLines_ne_nil _)]

theorem solidLines_newline_cons (ps : List Piece) (s : Option String) (b : List Char) :
    solidLines (⟨s, '\n' :: b⟩ :: ps) = [] :: solidLines (⟨s, b⟩ :: ps) := by
  have hlines : (splitOn '\n' b).map (fun cs ↦ Piece.solid ⟨s, cs⟩) ≠ [] := by
    simp [splitOn_ne_nil]
  rw [solidLines_cons, solidLines_cons, splitOn, if_pos rfl, List.map_cons]
  exact joinLines_cons hlines [] (solidLines ps)

theorem solidLines_concat_empty (ps : List Piece) (s : Option String) :
    solidLines (ps ++ [⟨s, []⟩]) = solidLines ps := by
  induction ps with
  | nil => rfl
  | cons p ps ih => rw [List.cons_append, solidLines_cons, solidLines_cons, ih]

theorem solidLines_empty_cons (ps : List Piece) (s : Option String) :
    solidLines (⟨s, []⟩ :: ps) = solidLines ps := by
  rw [solidLines_cons]
  exact empty_joinLines (solidLines_ne_nil ps)

/-- A line end behind the code adds no row. -/
theorem markupLines_append_newline (code : String) :
    markupLines .cpp (code ++ "\n") = markupLines .cpp code := by
  obtain ⟨ts, b, hb, hcode, hline⟩ := lexCode_append_newline code.toList
  have htext : (code ++ "\n").toList = code.toList ++ ['\n'] := String.toList_append ..
  have hbreak : ∀ c ∈ b ++ ['\n'], isBlank c := by
    intro c hc
    rcases List.mem_append.1 hc with hc | hc
    · exact hb c hc
    · obtain rfl := List.mem_singleton.1 hc
      decide
  have hlines (names : Declared) : solidLines (piecesOf names (lexCode code.toList)) =
      solidLines (piecesOf names ts ++ [⟨blankClass names, b⟩]) := by
    rcases hcode with hcode | ⟨rfl, hcode⟩
    -- where the code ends with ink there is no lexeme of blanks, and an empty piece fills nothing
    · rw [hcode, piecesOf_concat hb]
    · rw [hcode, solidLines_concat_empty]
  rw [markupLines_eq, markupLines_eq, ofCode_append_newline, htext, hline, piecesOf_concat hbreak,
    solidLines_concat_newline, ← hlines, trimEnds_concat rfl]

/-- Nor does one before it. -/
theorem markupLines_newline_append (code : String) :
    markupLines .cpp ("\n" ++ code) = markupLines .cpp code := by
  obtain ⟨b, ts, hb, hcode, hline⟩ := lexCode_newline_cons code.toList
  have htext : ("\n" ++ code).toList = '\n' :: code.toList := String.toList_append ..
  have hbreak : ∀ c ∈ '\n' :: b, isBlank c := List.forall_mem_cons.2 ⟨by decide, hb⟩
  have hlines (names : Declared) : solidLines (piecesOf names (lexCode code.toList)) =
      solidLines (⟨blankClass names, b⟩ :: piecesOf names ts) := by
    rcases hcode with hcode | ⟨rfl, hcode⟩
    · rw [hcode, piecesOf_cons hb]
    · rw [hcode, solidLines_empty_cons]
  rw [markupLines_eq, markupLines_eq, ofCode_newline_append, htext, hline, piecesOf_cons hbreak,
    solidLines_newline_cons, ← hlines, trimEnds_cons rfl]

end Folio.Code
