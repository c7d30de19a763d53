import Folio.Proofs.Code.Breaks

namespace Folio.Code

open Text

def ended : List Char → List Char
  | [] => []
  | c :: cs => c :: (cs ++ ['\n'])

theorem dropBlank_append_newline (cs : List Char) :
    dropBlank (cs ++ ['\n']) = ended (dropBlank cs) := by
  rw [dropBlank, dropBlank, List.dropWhile_append]
  cases cs.dropWhile isBlank with
  | nil => rfl
  | cons c cs => rfl

theorem takeWord_ended (cs : List Char) :
    takeWord (ended cs) = (takeWord cs).map (Cut.extend ['\n']) := by
  cases cs with
  | nil => rfl
  | cons c cs =>
    have hline : ∀ d ∈ ['\n'].head?, isWord d = false := forall_head_cons (by decide) []
    obtain ⟨htake, hdrop⟩ := span_extend hline (c :: cs)
    rw [List.cons_append] at htake hdrop
    rw [ended, takeWord, takeWord, htake, hdrop]
    split
    · rfl
    · rfl

theorem splitFirst_append_newline {sep : Char} (h : '\n' ≠ sep) (cs : List Char) :
    splitFirst sep (cs ++ ['\n']) = (splitFirst sep cs).map (Cut.extend ['\n']) := by
  induction cs with
  | nil => simp [splitFirst, h]
  | cons c cs ih =>
    rw [List.cons_append, splitFirst, splitFirst, ih]
    split
    · rfl
    · rw [Option.map_map, Option.map_map]
      rfl

theorem bracedBody_ended (cs : List Char) :
    bracedBody (ended cs) = (bracedBody cs).map (Cut.extend ['\n']) := by
  unfold bracedBody
  rw [takeWord_ended]
  cases takeWord cs with
  | none => rfl
  | some cut =>
    obtain ⟨name, rest⟩ := cut
    simp only [Option.map_some, Cut.extend, Option.bind_eq_bind, Option.bind_some,
      dropBlank_append_newline]
    cases dropBlank rest with
    | nil => rfl
    | cons c rest =>
      by_cases hc : c = '\x7b'
      · subst hc
        exact splitFirst_append_newline (by decide) rest
      · simp [ended, hc]

theorem prefix_append_newline {p : List Char} (h : '\n' ∉ p) (cs : List Char) :
    p <+: cs ++ ['\n'] ↔ p <+: cs := by
  rw [List.prefix_concat_iff]
  refine or_iff_right ?_
  rintro rfl
  exact h (List.mem_append_right cs (List.mem_singleton_self _))

theorem afterKeyword_append_newline {keyword : String} (h : '\n' ∉ keyword.toList)
    (cs : List Char) :
    afterKeyword keyword (cs ++ ['\n']) =
      if cs = keyword.toList then some [] else (afterKeyword keyword cs).map ended := by
  by_cases hk : keyword.toList <+: cs
  · obtain ⟨ds, rfl⟩ := hk
    have hdrop : ∀ es, (keyword.toList ++ es).drop keyword.length = es := by
      intro es
      rw [← String.length_toList, List.drop_left]
    rw [List.append_assoc, afterKeyword, afterKeyword, hdrop, hdrop,
      if_pos (List.isPrefixOf_iff_prefix.2 (List.prefix_append ..)),
      if_pos (List.isPrefixOf_iff_prefix.2 (List.prefix_append ..))]
    -- a keyword that nothing follows comes before blanks once the line end is there
    cases ds with
    | nil => simp [takeBlanks, dropBlank, show isBlank '\n' from rfl]
    | cons d ds =>
      rw [if_neg (by simp), List.cons_append, takeBlanks, takeBlanks, dropBlank_append_newline]
      split
      · rfl
      · rfl
  · have hline : ¬keyword.toList <+: cs ++ ['\n'] := mt (prefix_append_newline h cs).1 hk
    rw [afterKeyword, afterKeyword, if_neg (mt List.isPrefixOf_iff_prefix.1 hline),
      if_neg (mt List.isPrefixOf_iff_prefix.1 hk), if_neg]
    · rfl
    · rintro rfl
      exact hk (List.prefix_refl _)

/-- Where nothing can begin at the end of a text, it does not matter that a keyword ends there. -/
theorem bind_afterKeyword_newline {keyword : String} (h : '\n' ∉ keyword.toList)
    {f : List Char → Option Cut} (hnil : f [] = none)
    (hf : ∀ cs, f (ended cs) = (f cs).map (Cut.extend ['\n'])) (cs : List Char) :
    (afterKeyword keyword (cs ++ ['\n'])).bind f =
      ((afterKeyword keyword cs).bind f).map (Cut.extend ['\n']) := by
  rw [afterKeyword_append_newline h]
  split
  · next heq =>
    subst heq
    have hdrop : keyword.toList.drop keyword.length = [] := by
      rw [← String.length_toList, List.drop_length]
    simp [afterKeyword, hdrop, takeBlanks, hnil]
  · cases afterKeyword keyword cs with
    | none => rfl
    | some rest => exact hf rest

def classBody (cs : List Char) : Option Cut :=
  (bracedBody cs).or ((afterKeyword "class" cs).bind bracedBody)

theorem classBody_ended (cs : List Char) :
    classBody (ended cs) = (classBody cs).map (Cut.extend ['\n']) := by
  cases cs with
  | nil => decide
  | cons c cs =>
    have hbody := bracedBody_ended (c :: cs)
    have hkeyword : '\n' ∉ "class".toList := by decide
    have hclass := bind_afterKeyword_newline hkeyword (by decide) bracedBody_ended (c :: cs)
    rw [List.cons_append] at hclass
    rw [ended] at hbody ⊢
    rw [classBody, classBody, hbody, hclass, Option.map_or]

theorem enumBody_append_newline (cs : List Char) :
    enumBody (cs ++ ['\n']) = (enumBody cs).map (Cut.extend ['\n']) := by
  have hkeyword : '\n' ∉ "enum".toList := by decide
  exact bind_afterKeyword_newline hkeyword (by decide) classBody_ended cs

def Declaration.extend (rest : List Char) (d : Declaration) : Declaration :=
  { d with afterKeyword := d.afterKeyword ++ rest, afterName := d.afterName ++ rest }

theorem declaration?_append_newline (cs : List Char) :
    declaration? (cs ++ ['\n']) = (declaration? cs).map (Declaration.extend ['\n']) := by
  have hline : ∀ w ∈ declaringWords, '\n' ∉ w.toList := by decide
  unfold declaration?
  generalize declaringWords = words at hline
  induction words with
  | nil => rfl
  | cons w words ih =>
    have hname := bind_afterKeyword_newline (hline w (List.mem_cons_self ..)) (by decide)
      takeWord_ended cs
    rw [List.findSome?_cons, List.findSome?_cons, hname,
      ih fun w' hw' ↦ hline w' (List.mem_cons_of_mem w hw')]
    cases hcut : (afterKeyword w cs).bind takeWord with
    | none => rfl
    | some cut =>
      -- the declaring word stands before the line end
      obtain ⟨rest, hrest, -⟩ := Option.bind_eq_some_iff.1 hcut
      have hw : w.toList <+: cs :=
        List.isPrefixOf_iff_prefix.1 (Option.ite_none_right_eq_some.1 hrest).1
      have hlength : w.length ≤ cs.length := hw.length_le
      simp [Cut.extend, Declaration.extend, List.drop_append_of_le_length hlength]

theorem firstDeclaration_append_newline (inWord : Bool) (cs : List Char) :
    firstDeclaration inWord (cs ++ ['\n']) =
      (firstDeclaration inWord cs).map (Declaration.extend ['\n']) := by
  induction cs generalizing inWord with
  | nil => cases inWord <;> rfl
  | cons c cs ih =>
    have hbegin := declaration?_append_newline (c :: cs)
    rw [List.cons_append] at hbegin ⊢
    rw [firstDeclaration, firstDeclaration, hbegin, ih]
    cases inWord with
    | true => rfl
    | false => cases declaration? (c :: cs) <;> rfl

theorem declaredTypes_of_some {inWord : Bool} {cs : List Char} {d : Declaration}
    (h : firstDeclaration inWord cs = some d) :
    declaredTypes inWord cs =
      if declaringWords.contains d.name then declaredTypes true d.afterKeyword
      else d.name :: declaredTypes true d.afterName := by
  rw [declaredTypes]
  split
  · next h' =>
    obtain rfl := Option.some.inj (h'.symm.trans h)
    rfl
  · next h' => cases h'.symm.trans h

theorem declaredTypes_of_none {inWord : Bool} {cs : List Char}
    (h : firstDeclaration inWord cs = none) : declaredTypes inWord cs = [] := by
  rw [declaredTypes]
  split
  · next h' => cases h'.symm.trans h
  · rfl

theorem declaredTypes_append_newline (inWord : Bool) (cs : List Char) :
    declaredTypes inWord (cs ++ ['\n']) = declaredTypes inWord cs := by
  fun_induction declaredTypes inWord cs with
  | case1 inWord cs d h hname ih =>
    have hline := firstDeclaration_append_newline inWord cs
    rw [h, Option.map_some] at hline
    rw [declaredTypes_of_some hline]
    exact (if_pos hname).trans ih
  | case2 inWord cs d h hname ih =>
    have hline := firstDeclaration_append_newline inWord cs
    rw [h, Option.map_some] at hline
    rw [declaredTypes_of_some hline]
    exact (if_neg hname).trans (congrArg _ ih)
  | case3 inWord cs h =>
    exact declaredTypes_of_none (by rw [firstDeclaration_append_newline, h]; rfl)

theorem enumMembers_of_some {inWord : Bool} {c : Char} {cs body rest : List Char}
    (h : (if inWord then none else enumBody (c :: cs)) = some (body, rest)) :
    enumMembers inWord (c :: cs) = membersOf body ++ enumMembers false rest := by
  rw [enumMembers]
  split
  · next h' =>
    obtain ⟨rfl, rfl⟩ := Prod.mk.inj (Option.some.inj (h'.symm.trans h))
    rfl
  · next h' => cases h'.symm.trans h

theorem enumMembers_of_none {inWord : Bool} {c : Char} {cs : List Char}
    (h : (if inWord then none else enumBody (c :: cs)) = none) :
    enumMembers inWord (c :: cs) = enumMembers (isWord c) cs := by
  rw [enumMembers]
  split
  · next h' => cases h'.symm.trans h
  · rfl

theorem enumMembers_append_newline (inWord : Bool) (cs : List Char) :
    enumMembers inWord (cs ++ ['\n']) = enumMembers inWord cs := by
  have hbody (inWord : Bool) (c : Char) (cs : List Char) :
      (if inWord then none else enumBody (c :: (cs ++ ['\n']))) =
        (if inWord then none else enumBody (c :: cs)).map (Cut.extend ['\n']) := by
    cases inWord with
    | true => rfl
    | false => exact enumBody_append_newline (c :: cs)
  fun_induction enumMembers inWord cs with
  | case1 inWord =>
    have hnone : (if inWord then none else enumBody ['\n']) = none := by cases inWord <;> decide
    rw [List.nil_append, enumMembers_of_none hnone, enumMembers]
  | case2 inWord c cs body rest h ih =>
    rw [dite_eq_ite] at h
    rw [List.cons_append, enumMembers_of_some (by rw [hbody, h]; rfl), ih]
  | case3 inWord c cs h ih =>
    rw [dite_eq_ite] at h
    rw [List.cons_append, enumMembers_of_none (by rw [hbody, h]; rfl), ih]

theorem ofCode_append_newline (code : String) (l : Language) :
    Declared.ofCode (code ++ "\n") l = Declared.ofCode code l := by
  have htext : (code ++ "\n").toList = code.toList ++ ['\n'] := String.toList_append ..
  rw [Declared.ofCode, Declared.ofCode, htext, declaredTypes_append_newline,
    enumMembers_append_newline]

/-- No word runs up to the text after a line end. -/
theorem ofCode_newline_append (code : String) (l : Language) :
    Declared.ofCode ("\n" ++ code) l = Declared.ofCode code l := by
  have htext : ("\n" ++ code).toList = '\n' :: code.toList := String.toList_append ..
  have htypes : declaredTypes false ('\n' :: code.toList) = declaredTypes false code.toList := by
    have hfirst : firstDeclaration false ('\n' :: code.toList) =
        firstDeclaration false code.toList := rfl
    rw [declaredTypes, hfirst, declaredTypes]
  have hmembers : enumMembers false ('\n' :: code.toList) = enumMembers false code.toList :=
    enumMembers_of_none rfl
  rw [Declared.ofCode, Declared.ofCode, htext, htypes, hmembers]

end Folio.Code
