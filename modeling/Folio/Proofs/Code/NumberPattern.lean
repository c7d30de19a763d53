import Folio.Proofs.Code.Forms
import Folio.Proofs.Code.Pattern

namespace Folio.Code.Pattern

open Text

variable {k : Pattern} {before : Option Char} {c : Char} {cs : List Char}

def based (mark : Char) (isDigit : Char → Bool) (k : Pattern) : Pattern :=
  seq (one (· = '0')) <| seq (one fun c ↦ c = mark ∨ c = mark.toUpper) <| seq (many isDigit) k

def floatMark (k : Pattern) : Pattern :=
  seq (opt (one fun c ↦ c = 'f' ∨ c = 'F')) k

def fraction : Pattern :=
  seq (one (· = '.')) (many isDecimal)

def decimal (k : Pattern) : Pattern :=
  seq (many isDecimal) <| seq (opt fraction) <| floatMark k

theorem any_getLast?_takeWhile {p : Char → Bool} (hp : ∀ c, p c → isWord c)
    (h : cs.takeWhile p ≠ []) : (cs.takeWhile p).getLast?.any isWord := by
  rw [List.getLast?_eq_some_getLast h, Option.any_some]
  exact hp _ (List.mem_takeWhile_imp (List.getLast_mem h))

theorem tries_based {mark : Char} {isDigit : Char → Bool}
    (hk : ∀ c d ds, isDigit c → isDigit d → k.tries (some c) (d :: ds) = []) (z x : Char) :
    (based mark isDigit k).tries before (z :: x :: cs) =
      if z = '0' ∧ (x = mark ∨ x = mark.toUpper) ∧ cs.takeWhile isDigit ≠ [] then
        (k.tries (cs.takeWhile isDigit).getLast? (cs.dropWhile isDigit)).map
          (Match.mk (z :: x :: cs.takeWhile isDigit) (cs.dropWhile isDigit) []).followedBy
      else [] := by
  rw [based, tries_one_seq_cons, tries_one_seq_cons, tries_many_seq hk]
  by_cases hz : z = '0'
  · by_cases hx : x = mark ∨ x = mark.toUpper
    · by_cases hd : cs.takeWhile isDigit = []
      · simp [hd]
      · simp [hz, hx, hd, Match.followedBy_comp, Match.followedBy]
    · simp [hx]
  · simp [hz]

/-- Two word characters have no edge between them. -/
theorem tries_edge_eq_nil {c d : Char} {ds : List Char} (hc : isWord c) (hd : isWord d) :
    edge.tries (some c) (d :: ds) = [] := by
  rw [tries_edge (by simpa using hc), atWordEnd]
  simp [hd]

theorem tries_based_edge {mark : Char} {isDigit : Char → Bool} (hw : ∀ c, isDigit c → isWord c) :
    (seq edge (based mark isDigit edge)).tries before cs =
      if before.any isWord then [] else ((cutBased mark isDigit cs).map Match.ofCut).toList := by
  have hk : ∀ c d ds, isDigit c → isDigit d → edge.tries (some c) (d :: ds) = [] :=
    fun c d ds hc hd ↦ tries_edge_eq_nil (hw c hc) (hw d hd)
  rw [tries_edge_seq]
  · congr 1
    match cs with
    | [] => rfl
    | [z] =>
      rw [based, tries_one_seq_cons]
      split <;> rfl
    | z :: x :: cs =>
      rw [tries_based hk, cutBased]
      by_cases hd : cs.takeWhile isDigit = []
      · simp [hd]
      · rw [tries_edge (any_getLast?_takeWhile hw hd)]
        by_cases hend : atWordEnd (cs.dropWhile isDigit)
        · simp only [hend, if_true, and_true, List.map_singleton, Match.followedBy_nil]
          split <;> rfl
        · simp [hend]
  · intro hcs
    cases cs with
    | nil => rfl
    | cons z cs =>
      rw [based, tries_one_seq_cons, if_neg]
      intro hz
      have hword : isWord z := of_decide_eq_true hz ▸ by decide
      rw [List.head?_cons, Option.any_some, hword] at hcs
      cases hcs

theorem tries_stop_cons : stop.tries before (c :: cs) = [] :=
  rfl

theorem isWhole_cutBased {mark : Char} {isDigit : Char → Bool} :
    isWhole (cutBased mark isDigit) cs = (first (based mark isDigit stop) none cs).isSome := by
  match cs with
  | [] => rfl
  | [z] =>
    rw [first, based, tries_one_seq_cons]
    split <;> rfl
  | z :: x :: cs =>
    rw [first, tries_based fun _ _ _ _ _ ↦ tries_stop_cons, isWhole, cutBased]
    cases hrest : cs.dropWhile isDigit with
    | nil =>
      simp only [atWordEnd, List.head?_nil, Option.all_none, and_true]
      split <;> rfl
    | cons d ds =>
      rw [tries_stop_cons, List.map_nil, ite_self]
      split <;> rfl

theorem tries_floatMark_of_ne (h : ¬(c = 'f' ∨ c = 'F')) :
    (floatMark k).tries before (c :: cs) = k.tries before (c :: cs) := by
  rw [floatMark, tries_opt_seq, tries_one_seq_cons, if_neg (by simpa using h)]
  rfl

theorem tries_floatMark_digit (hc : isDecimal c) (hk : k.tries before (c :: cs) = []) :
    (floatMark k).tries before (c :: cs) = [] := by
  rw [tries_floatMark_of_ne, hk]
  rintro (rfl | rfl)
  · exact absurd hc (by decide)
  · exact absurd hc (by decide)

theorem tries_floatMark_edge (hb : before.any isWord) : (floatMark edge).tries before cs =
    ((cutFloatMark [] cs).map Match.ofCut).toList := by
  rw [floatMark, tries_opt_seq, tries_edge hb]
  cases cs with
  | nil => rfl
  | cons c cs =>
    rw [tries_one_seq_cons, cutFloatMark]
    by_cases hc : c = 'f' ∨ c = 'F'
    · have hword : isWord c := by
        rcases hc with rfl | rfl <;> decide
      have hend : atWordEnd (c :: cs) = false := by simp [atWordEnd, hword]
      rw [if_pos (by simpa using hc), tries_edge (by simpa using hword), hend]
      cases atWordEnd cs <;> simp [hc, Match.followedBy, Match.ofCut]
    · rw [if_neg (by simpa using hc)]
      cases atWordEnd (c :: cs) <;> simp [hc, Match.ofCut]

theorem cutFloatMark_eq_map (number rest : List Char) : cutFloatMark number rest =
    (cutFloatMark [] rest).map fun cut ↦ (number ++ cut.1, cut.2) := by
  cases rest with
  | nil => simp [cutFloatMark]
  | cons c rest =>
    rw [cutFloatMark, cutFloatMark]
    split_ifs <;> simp

theorem tries_fraction_seq
    (hk : ∀ c d ds, isDecimal c → isDecimal d → k.tries (some c) (d :: ds) = []) :
    (seq fraction k).tries before cs = (cutFraction cs).toList.flatMap fun cut ↦
      (k.tries cut.1.getLast? cut.2).map (Match.ofCut cut).followedBy := by
  cases cs with
  | nil => rfl
  | cons d ds =>
    rw [fraction, tries_seq_assoc, tries_one_seq_cons, tries_many_seq hk]
    by_cases hd : d = '.'
    · subst hd
      rw [if_pos (by simp), cutFraction]
      cases hdigits : ds.takeWhile isDecimal with
      | nil => rfl
      | cons e digits =>
        rw [if_neg (List.cons_ne_nil _ _), if_neg (List.cons_ne_nil _ _), List.map_map,
          Match.followedBy_comp, Option.toList_some, List.flatMap_singleton, List.getLast?_cons_cons]
        rfl
    · rw [if_neg (by simpa using hd), cutFraction_of_ne hd]
      rfl

/-- Where neither a fraction nor what stands behind it fits between two digits, a number begins with
all its digits. With a fraction it is tried first. -/
theorem tries_decimal (hk : ∀ c d ds, isDecimal c → isDecimal d →
    (floatMark k).tries (some c) (d :: ds) = []) : (decimal k).tries before cs =
      if cs.takeWhile isDecimal = [] then []
      else
        ((cutFraction (cs.dropWhile isDecimal)).toList.flatMap fun cut ↦
          ((floatMark k).tries cut.1.getLast? cut.2).map
            (Match.mk (cs.takeWhile isDecimal ++ cut.1) cut.2 []).followedBy) ++
        ((floatMark k).tries (cs.takeWhile isDecimal).getLast? (cs.dropWhile isDecimal)).map
          (Match.mk (cs.takeWhile isDecimal) (cs.dropWhile isDecimal) []).followedBy := by
  have hpoint : ∀ c d ds, isDecimal c → isDecimal d →
      (seq (opt fraction) (floatMark k)).tries (some c) (d :: ds) = [] := by
    intro c d ds hc hd
    have hne : d ≠ '.' := by
      rintro rfl
      exact absurd hd (by decide)
    rw [tries_opt_seq, hk c d ds hc hd, tries_fraction_seq hk, cutFraction_of_ne hne]
    rfl
  rw [decimal, tries_many_seq hpoint, tries_opt_seq, tries_fraction_seq hk, List.map_append,
    List.map_flatMap]
  simp only [List.map_map, Match.followedBy_comp]
  rfl

theorem isWord_getLast?_cutFraction {cut : Cut} (h : cutFraction cs = some cut) :
    cut.1.getLast?.any isWord := by
  obtain ⟨part, hne, hdigits, heq⟩ := cutFraction_eq h
  rw [heq, List.getLast?_cons, List.getLast?_eq_some_getLast hne]
  exact isWord_of_isDecimal (hdigits _ (List.getLast_mem hne))

theorem head?_decimal_edge :
    ((decimal edge).tries before cs).head? = (cutDecimal cs).map Match.ofCut := by
  have hk : ∀ c d ds, isDecimal c → isDecimal d → (floatMark edge).tries (some c) (d :: ds) = [] :=
    fun c d ds hc hd ↦ tries_floatMark_digit hd
      (tries_edge_eq_nil (isWord_of_isDecimal hc) (isWord_of_isDecimal hd))
  rw [tries_decimal hk, cutDecimal]
  by_cases hw : cs.takeWhile isDecimal = []
  · rw [if_pos hw, if_pos hw]
    rfl
  · have hwhole := any_getLast?_takeWhile (fun _ ↦ isWord_of_isDecimal) hw
    rw [if_neg hw, if_neg hw, List.head?_append, tries_floatMark_edge hwhole,
      cutFloatMark_eq_map (cs.takeWhile isDecimal), Option.map_or]
    congr 1
    · cases hf : cutFraction (cs.dropWhile isDecimal) with
      | none => rfl
      | some cut =>
        obtain ⟨fraction, rest⟩ := cut
        rw [Option.toList_some, List.flatMap_singleton,
          tries_floatMark_edge (isWord_getLast?_cutFraction hf), Option.bind_some]
        dsimp only
        rw [cutFloatMark_eq_map (_ ++ fraction)]
        cases cutFloatMark [] rest <;> rfl
    · cases cutFloatMark [] (cs.dropWhile isDecimal) <;> rfl

theorem tries_floatMark_stop : (floatMark stop).tries before cs =
    if cs = [] ∨ cs = ['f'] ∨ cs = ['F'] then [⟨cs, [], []⟩] else [] := by
  cases cs with
  | nil => rfl
  | cons c cs =>
    by_cases hc : c = 'f' ∨ c = 'F'
    · rw [floatMark, tries_opt_seq, tries_one_seq_cons, if_pos (by simpa using hc)]
      cases cs <;> simp [tries, hc, Match.followedBy]
    · rw [tries_floatMark_of_ne hc, tries_stop_cons, if_neg]
      rintro (h | h | h) <;> simp_all

theorem any_cutFloatMark (number cs : List Char) : (cutFloatMark number cs).any (·.2.isEmpty) =
    decide (cs = [] ∨ cs = ['f'] ∨ cs = ['F']) := by
  cases cs with
  | nil => rfl
  | cons c cs =>
    rw [cutFloatMark]
    by_cases hc : (c = 'f' ∨ c = 'F') ∧ atWordEnd cs
    · rw [if_pos hc]
      cases cs <;> simp [hc.1]
    · have hnot : ¬(c :: cs = [] ∨ c :: cs = ['f'] ∨ c :: cs = ['F']) := by
        rintro (h | h | h)
        · cases h
        · cases h
          exact hc ⟨.inl rfl, rfl⟩
        · cases h
          exact hc ⟨.inr rfl, rfl⟩
      rw [if_neg hc, decide_eq_false hnot]
      split <;> rfl

theorem isWhole_cutDecimal : isWhole cutDecimal cs = (first (decimal stop) none cs).isSome := by
  have hk : ∀ c d ds, isDecimal c → isDecimal d → (floatMark stop).tries (some c) (d :: ds) = [] :=
    fun c d ds _ hd ↦ tries_floatMark_digit hd tries_stop_cons
  rw [first, tries_decimal hk, isWhole, cutDecimal]
  by_cases hw : cs.takeWhile isDecimal = []
  · rw [if_pos hw, if_pos hw]
    rfl
  · rw [if_neg hw, if_neg hw]
    generalize cs.takeWhile isDecimal = whole
    generalize cs.dropWhile isDecimal = rest
    cases hf : cutFraction rest with
    | none =>
      rw [Option.bind_none, Option.none_or, any_cutFloatMark, tries_floatMark_stop]
      split <;> simp [*]
    | some cut =>
      obtain ⟨fraction, after⟩ := cut
      obtain rfl := append_of_cutFraction hf
      obtain ⟨part, -, -, rfl⟩ := cutFraction_eq hf
      -- what begins with a point is no float mark
      have hpoint : ¬('.' :: part ++ after = [] ∨ '.' :: part ++ after = ['f'] ∨
          '.' :: part ++ after = ['F']) := by simp
      have hwhole := any_cutFloatMark whole ('.' :: part ++ after)
      have hnumber := any_cutFloatMark (whole ++ '.' :: part) after
      rw [decide_eq_false hpoint] at hwhole
      rw [Option.toList_some, List.flatMap_singleton, tries_floatMark_stop, tries_floatMark_stop,
        if_neg hpoint, Option.bind_some]
      dsimp only
      cases hcut : cutFloatMark (whole ++ '.' :: part) after with
      | none =>
        rw [hcut] at hnumber
        rw [Option.none_or, hwhole, if_neg (of_decide_eq_false hnumber.symm)]
        rfl
      | some cut =>
        rw [hcut] at hnumber
        rw [Option.some_or, hnumber]
        split <;> simp [*]

theorem cutBased_of_ne {mark : Char} {isDigit : Char → Bool} (h : c ≠ '0') :
    cutBased mark isDigit (c :: cs) = none := by
  cases cs with
  | nil => rfl
  | cons x cs => exact if_neg fun hc ↦ h hc.1

theorem cutDecimal_of_not_digit (h : ¬isDecimal c) : cutDecimal (c :: cs) = none :=
  if_pos (List.takeWhile_cons_of_neg h)

theorem first_based_edge {mark : Char} {isDigit : Char → Bool} (hw : ∀ c, isDigit c → isWord c) :
    first (seq edge (based mark isDigit edge)) before cs =
      if before.any isWord then none else (cutBased mark isDigit cs).map Match.ofCut := by
  rw [first, tries_based_edge hw]
  split
  · rfl
  · cases cutBased mark isDigit cs <;> rfl

theorem first_decimal_edge : first (seq edge (decimal edge)) before cs =
    if before.any isWord then none else (cutDecimal cs).map Match.ofCut := by
  rw [first, tries_edge_seq]
  · split
    · rfl
    · exact head?_decimal_edge
  · intro hcs
    cases cs with
    | nil => rfl
    | cons c cs =>
      have hc : ¬isDecimal c := by
        intro hc
        rw [List.head?_cons, Option.any_some, isWord_of_isDecimal hc] at hcs
        cases hcs
      rw [decimal, many, tries_seq_assoc, tries_one_seq_cons, if_neg hc]

end Folio.Code.Pattern
