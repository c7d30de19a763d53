import Folio.Proofs.Code.Lines
import Folio.Proofs.Text.Spans

namespace Folio.Code

open Text

def ink (cs : List Char) : List Char :=
  cs.filter (!isBlank ·)

def skeleton (cs : List Char) : List Char :=
  cs.filter fun c ↦ c == '\n' || !isBlank c

def trimEnds {α : Type} (p : α → Bool) (l : List α) : List α :=
  ((l.dropWhile p).reverse.dropWhile p).reverse

def contentLines (cs : List Char) : List (List Char) :=
  trimEnds (·.all isBlank) (splitOn '\n' cs)

theorem ink_append (cs ds : List Char) : ink (cs ++ ds) = ink cs ++ ink ds :=
  List.filter_append ..

theorem ink_of_blank {cs : List Char} (h : ∀ c ∈ cs, isBlank c) : ink cs = [] :=
  List.filter_eq_nil_iff.2 fun c hc ↦ by simp [h c hc]

variable {α β : Type} {p : α → Bool}

theorem trimEnds_map (q : β → Bool) (f : α → β) (l : List α) :
    trimEnds q (l.map f) = (trimEnds (q ∘ f) l).map f := by
  simp only [trimEnds, List.dropWhile_map, ← List.map_reverse]

theorem trimEnds_cons {a : α} (h : p a) (l : List α) : trimEnds p (a :: l) = trimEnds p l := by
  rw [trimEnds, trimEnds, List.dropWhile_cons_of_pos h]

theorem trimEnds_concat {a : α} (h : p a) (l : List α) :
    trimEnds p (l ++ [a]) = trimEnds p l := by
  rw [trimEnds, trimEnds, List.dropWhile_append]
  split
  · next hnil => simp [List.isEmpty_iff.1 hnil, h]
  · rw [List.reverse_append, List.reverse_singleton, List.singleton_append,
      List.dropWhile_cons_of_pos h]

theorem length_trimEnds {l : List α} (h : ∃ a ∈ l, ¬p a) :
    (l.takeWhile p).length + (trimEnds p l).length + (l.reverse.takeWhile p).length = l.length := by
  have hl : l.takeWhile p ++ l.dropWhile p = l := List.takeWhile_append_dropWhile
  have hmid : ∃ a ∈ (l.dropWhile p).reverse, ¬p a := by
    obtain ⟨a, ha, hp⟩ := h
    rw [← hl, List.mem_append] at ha
    rcases ha with ha | ha
    · exact (hp (List.mem_takeWhile_imp ha)).elim
    · exact ⟨a, List.mem_reverse.2 ha, hp⟩
  have hreverse : l.reverse = (l.dropWhile p).reverse ++ (l.takeWhile p).reverse := by
    rw [← List.reverse_append, hl]
  have hsplit := congrArg List.length
    (List.takeWhile_append_dropWhile (p := p) (l := (l.dropWhile p).reverse))
  have hlength := congrArg List.length hl
  simp only [List.length_append, List.length_reverse] at hsplit hlength
  -- what is left out at the end is the same with and without what is left out at the beginning
  rw [hreverse, takeWhile_append_of_not hmid, trimEnds, List.length_reverse]
  omega

theorem length_splitOn (sep : Char) (cs : List Char) :
    (splitOn sep cs).length = cs.count sep + 1 := by
  induction cs with
  | nil => rfl
  | cons c cs ih =>
    by_cases hc : c = sep
    · rw [splitOn, if_pos hc, List.length_cons, ih, hc, List.count_cons_self]
    · obtain ⟨q, qs, hq, hcons⟩ := splitOn_cons_of_ne hc cs
      rw [hcons, List.count_cons_of_ne hc, ← ih, hq]
      rfl

theorem joinLines_concat (ls : List (List α)) (l m : List α) (ms : List (List α)) :
    joinLines (ls ++ [l]) (m :: ms) = ls ++ (l ++ m) :: ms := by
  induction ls with
  | nil => rfl
  | cons l' ls ih =>
    rw [List.cons_append, joinLines, ih]
    · rfl
    · simp

theorem splitOn_reverse (sep : Char) (cs : List Char) :
    splitOn sep cs.reverse = ((splitOn sep cs).map List.reverse).reverse := by
  induction cs with
  | nil => rfl
  | cons c cs ih =>
    obtain ⟨q, qs, hq⟩ := List.exists_cons_of_ne_nil (splitOn_ne_nil sep cs)
    rw [List.reverse_cons, splitOn_append, ih, hq, List.map_cons, List.reverse_cons]
    by_cases hc : c = sep
    · simp [splitOn, hc, hq, joinLines_concat]
    · simp [splitOn, hc, hq, joinLines_concat]

theorem map_ink_splitOn (cs : List Char) :
    (splitOn '\n' cs).map ink = splitOn '\n' (skeleton cs) := by
  induction cs with
  | nil => rfl
  | cons c cs ih =>
    by_cases hc : c = '\n'
    · subst hc
      have hskeleton : skeleton ('\n' :: cs) = '\n' :: skeleton cs := rfl
      rw [hskeleton, splitOn, if_pos rfl, splitOn, if_pos rfl, List.map_cons, ih]
      rfl
    · obtain ⟨q, qs, hq, hcons⟩ := splitOn_cons_of_ne hc cs
      rw [hq, List.map_cons] at ih
      rw [hcons, List.map_cons]
      cases hb : isBlank c with
      | true =>
        have hskeleton : skeleton (c :: cs) = skeleton cs := by simp [skeleton, hc, hb]
        have hink : ink (c :: q) = ink q := by simp [ink, hb]
        rw [hskeleton, hink, ih]
      | false =>
        have hskeleton : skeleton (c :: cs) = c :: skeleton cs := by simp [skeleton, hb]
        have hink : ink (c :: q) = c :: ink q := by simp [ink, hb]
        rw [hskeleton, hink, splitOn, if_neg hc, ← ih]

theorem all_isBlank_ink (cs : List Char) : (ink cs).all isBlank = cs.all isBlank := by
  induction cs with
  | nil => rfl
  | cons c cs ih =>
    cases hb : isBlank c with
    | true =>
      have hink : ink (c :: cs) = ink cs := by simp [ink, hb]
      rw [hink, ih, List.all_cons, hb, Bool.true_and]
    | false => simp [ink, hb]

theorem map_ink_contentLines (cs : List Char) :
    (contentLines cs).map ink = contentLines (skeleton cs) := by
  have hblank : (fun l : List Char ↦ l.all isBlank) ∘ ink = fun l ↦ l.all isBlank :=
    funext all_isBlank_ink
  rw [contentLines, contentLines, ← map_ink_splitOn, trimEnds_map, hblank]

theorem all_isBlank_splitOn (cs : List Char) :
    (splitOn '\n' cs).all (·.all isBlank) = cs.all isBlank := by
  induction cs with
  | nil => rfl
  | cons c cs ih =>
    by_cases hc : c = '\n'
    · subst hc
      rw [splitOn, if_pos rfl, List.all_cons, ih, List.all_cons]
      rfl
    · obtain ⟨q, qs, hq, hcons⟩ := splitOn_cons_of_ne hc cs
      rw [hcons, List.all_cons, List.all_cons, List.all_cons, ← ih, hq, List.all_cons,
        Bool.and_assoc]

theorem length_takeWhile_splitOn {cs : List Char} (h : ∃ c ∈ cs, ¬isBlank c) :
    ((splitOn '\n' cs).takeWhile (·.all isBlank)).length = (cs.takeWhile isBlank).count '\n' := by
  induction cs with
  | nil => simp at h
  | cons c cs ih =>
    have hrest (hb : isBlank c) : ∃ d ∈ cs, ¬isBlank d := by
      obtain ⟨d, hd, hink⟩ := h
      rcases List.mem_cons.1 hd with rfl | hd
      · exact (hink hb).elim
      · exact ⟨d, hd, hink⟩
    by_cases hc : c = '\n'
    · subst hc
      have hb : isBlank '\n' := by decide
      rw [splitOn, if_pos rfl, List.takeWhile_cons_of_pos (by rfl), List.length_cons,
        ih (hrest hb), List.takeWhile_cons_of_pos hb, List.count_cons_self]
    · obtain ⟨q, qs, hq, hcons⟩ := splitOn_cons_of_ne hc cs
      rw [hcons]
      cases hb : isBlank c with
      | true =>
        have hline : (c :: q).all isBlank = q.all isBlank := by simp [hb]
        rw [List.takeWhile_cons_of_pos hb, List.count_cons_of_ne hc, ← ih (hrest hb), hq,
          List.takeWhile_cons, List.takeWhile_cons, hline]
        split <;> rfl
      | false => simp [hb]

theorem length_takeWhile_splitOn_reverse {cs : List Char} (h : ∃ c ∈ cs, ¬isBlank c) :
    ((splitOn '\n' cs).reverse.takeWhile (·.all isBlank)).length =
      (cs.reverse.takeWhile isBlank).count '\n' := by
  have hblank : (fun l : List Char ↦ l.all isBlank) ∘ List.reverse = fun l ↦ l.all isBlank :=
    funext fun l ↦ List.all_reverse
  have hreverse : ∃ c ∈ cs.reverse, ¬isBlank c := by simpa using h
  rw [← length_takeWhile_splitOn hreverse, splitOn_reverse, ← List.map_reverse,
    List.takeWhile_map, List.length_map, hblank]

theorem length_contentLines {cs : List Char} (h : ∃ c ∈ cs, ¬isBlank c) :
    (cs.takeWhile isBlank).count '\n' + (contentLines cs).length +
      (cs.reverse.takeWhile isBlank).count '\n' = cs.count '\n' + 1 := by
  have hlines : ∃ l ∈ splitOn '\n' cs, ¬l.all isBlank := by
    have hall : ¬(splitOn '\n' cs).all (·.all isBlank) := by
      rw [all_isBlank_splitOn, List.all_eq_true]
      simpa using h
    simpa only [List.all_eq_true, not_forall, exists_prop] using hall
  rw [← length_takeWhile_splitOn h, ← length_takeWhile_splitOn_reverse h, ← length_splitOn]
  exact length_trimEnds hlines

end Folio.Code
