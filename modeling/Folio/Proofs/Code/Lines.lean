import Folio.Code.Listing

namespace Folio.Code

open Text

theorem flatten_joinLines {α : Type} (ls ms : List (List α)) :
    (joinLines ls ms).flatten = ls.flatten ++ ms.flatten := by
  fun_induction joinLines ls ms with
  | case1 ms => rfl
  | case2 l m ms => simp
  | case3 l ls ms _ ih => simp [ih]

theorem map_joinLines {α β : Type} (f : α → List β) (ls ms : List (List α)) :
    (joinLines ls ms).map (·.flatMap f) =
      joinLines (ls.map (·.flatMap f)) (ms.map (·.flatMap f)) := by
  fun_induction joinLines ls ms with
  | case1 ms => rfl
  | case2 l m ms => simp [joinLines]
  | case3 l ls ms hne ih =>
    rw [List.map_cons, ih]
    cases ls with
    | nil =>
      cases ms with
      | nil => rfl
      | cons m ms => exact (hne m ms rfl rfl).elim
    | cons l' ls => rfl

theorem splitOn_append (sep : Char) (cs ds : List Char) :
    splitOn sep (cs ++ ds) = joinLines (splitOn sep cs) (splitOn sep ds) := by
  obtain ⟨q, qs, hq⟩ := List.exists_cons_of_ne_nil (splitOn_ne_nil sep ds)
  induction cs with
  | nil => rw [List.nil_append, splitOn, hq, joinLines, List.nil_append]
  | cons c cs ih =>
    rw [List.cons_append]
    by_cases hc : c = sep
    · obtain ⟨p, ps, hp⟩ := List.exists_cons_of_ne_nil (splitOn_ne_nil sep cs)
      rw [splitOn, if_pos hc, splitOn, if_pos hc, ih, hp]
      rfl
    · obtain ⟨p, ps, hp, hcons⟩ := splitOn_cons_of_ne hc cs
      rw [splitOn, if_neg hc, ih, hcons, hp, hq]
      cases ps <;> rfl

/-- A token is one piece, unless it is an include directive or ends with an opening parenthesis. -/
theorem Token.pieces_cases (t : Token) :
    t.category ≠ .include ∧
        (t.pieces = [⟨t.category.spanClass?, t.text.toList⟩] ∨
          t.text.toList.getLast? = some '(' ∧
            t.pieces = callPieces t.category.spanClass? t.text.toList) ∨
      t.category = .include ∧ t.pieces = includePieces t.text.toList := by
  unfold Token.pieces
  cases t.category with
  | functionName | controlKeyword =>
    dsimp only
    split
    · next hlast => exact .inl ⟨nofun, .inr ⟨hlast, rfl⟩⟩
    · exact .inl ⟨nofun, .inl rfl⟩
  | «include» => exact .inr ⟨rfl, rfl⟩
  | _ => exact .inl ⟨nofun, .inl rfl⟩

def classNames : List String :=
  Category.all.map Category.name ++ ["include-keyword", "include-path"]

theorem mem_classNames_of_spanClass? {c : Category} {s : String} (h : c.spanClass? = some s) :
    s ∈ classNames := by
  cases c <;> cases h <;> decide

/-- Classes are names that the program gives, never text of the code. -/
theorem mem_classNames {t : Token} {p : Piece} {s : String} (hp : p ∈ t.pieces)
    (h : p.spanClass = some s) : s ∈ classNames := by
  have hown : p.spanClass = t.category.spanClass? → s ∈ classNames :=
    fun heq ↦ mem_classNames_of_spanClass? (heq.symm.trans h)
  rcases t.pieces_cases with ⟨-, hone | ⟨-, hcall⟩⟩ | ⟨-, hinclude⟩
  · rw [hone] at hp
    obtain rfl := List.mem_singleton.1 hp
    exact hown rfl
  · simp only [hcall, callPieces, List.mem_cons, List.not_mem_nil, or_false] at hp
    obtain rfl | rfl | rfl := hp
    · exact hown rfl
    · cases h
    · cases h
      decide
  · rw [hinclude, includePieces] at hp
    split at hp
    · simp only [List.mem_cons, List.not_mem_nil, or_false] at hp
      obtain rfl | rfl | rfl := hp <;> cases h <;> decide
    · obtain rfl := List.mem_singleton.1 hp
      cases h

def Line.text (l : Line) : List Char :=
  l.flatMap Piece.text

def shownText (ts : List Token) : List Char :=
  Line.text (ts.flatMap Token.pieces)

theorem map_text_lines (p : Piece) : p.lines.map Line.text = splitOn '\n' p.text := by
  simp [Piece.lines, Line.text, Function.comp_def]

theorem map_text_linesOf (ts : List Token) :
    (linesOf ts).map Line.text = splitOn '\n' (shownText ts) := by
  unfold linesOf shownText
  induction ts.flatMap Token.pieces with
  | nil => rfl
  | cons p ps ih =>
    have hjoin := map_joinLines Piece.text p.lines (ps.foldr (fun p ls ↦ joinLines p.lines ls) [[]])
    have htext : Line.text (p :: ps) = p.text ++ Line.text ps := List.flatMap_cons ..
    rw [List.foldr_cons, htext, splitOn_append, ← ih, ← map_text_lines]
    exact hjoin

theorem exists_piece_of_mem_linesOf {ts : List Token} {l : Line} {p : Piece} (hl : l ∈ linesOf ts)
    (hp : p ∈ l) : ∃ t ∈ ts, ∃ q ∈ t.pieces, p.spanClass = q.spanClass := by
  have hall : ∀ ps : List Piece, ∀ p ∈ (ps.foldr (fun p ls ↦ joinLines p.lines ls) [[]]).flatten,
      ∃ q ∈ ps, p.spanClass = q.spanClass := by
    intro ps
    induction ps with
    | nil => simp
    | cons q ps ih =>
      intro p hp
      rw [List.foldr_cons, flatten_joinLines, List.mem_append] at hp
      rcases hp with hp | hp
      · obtain ⟨l, hl, hpl⟩ := List.mem_flatten.1 hp
        obtain ⟨cs, -, rfl⟩ := List.mem_map.1 hl
        obtain rfl := List.mem_singleton.1 hpl
        exact ⟨q, List.mem_cons_self .., rfl⟩
      · obtain ⟨q', hq', hclass⟩ := ih p hp
        exact ⟨q', List.mem_cons_of_mem q hq', hclass⟩
  obtain ⟨q, hq, hclass⟩ := hall _ p (List.mem_flatten_of_mem hl hp)
  obtain ⟨t, ht, hqt⟩ := List.mem_flatMap.1 hq
  exact ⟨t, ht, q, hqt, hclass⟩

theorem mem_classNames_of_mem_linesOf {ts : List Token} {l : Line} {p : Piece} {s : String}
    (hl : l ∈ linesOf ts) (hp : p ∈ l) (h : p.spanClass = some s) : s ∈ classNames := by
  obtain ⟨t, -, q, hq, hclass⟩ := exists_piece_of_mem_linesOf hl hp
  exact mem_classNames hq (hclass.symm.trans h)

end Folio.Code
