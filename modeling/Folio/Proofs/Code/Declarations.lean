import Folio.Proofs.Code.Searches

namespace Folio.Code

open Text

theorem isWord_declaringWords : ∀ w ∈ declaringWords, ∀ c ∈ w.toList, isWord c := by
  have hall : ∀ w ∈ declaringWords, w.toList.all isWord := by decide
  exact fun w hw ↦ List.all_eq_true.1 (hall w hw)

namespace Declaration

structure Stands (d : Declaration) (keyword : String) (gap cs : List Char) : Prop where
  eq : cs = keyword.toList ++ d.afterKeyword
  name : d.afterKeyword = gap ++ (d.name.toList ++ d.afterName)
  keyword : keyword ∈ declaringWords
  gap : IsGap gap
  whole : IsWholeWord d.name.toList d.afterName

variable {d : Declaration} {keyword : String} {gap cs : List Char}

theorem Stands.afterKeyword (h : d.Stands keyword gap cs) :
    Code.afterKeyword keyword cs = some (d.name.toList ++ d.afterName) :=
  afterKeyword_eq_some_iff.2 ⟨gap, by rw [h.eq, h.name], h.gap, h.whole.head_not_blank⟩

theorem Stands.takeWhile (h : d.Stands keyword gap cs) :
    cs.takeWhile isWord = keyword.toList :=
  (span_of_afterKeyword (isWord_declaringWords keyword h.keyword) h.afterKeyword).1

end Declaration

theorem declaration?_eq_some_iff {cs : List Char} {d : Declaration} :
    declaration? cs = some d ↔ ∃ keyword gap, d.Stands keyword gap cs := by
  have hby {keyword : String} (hk : keyword ∈ declaringWords) (d : Declaration) :
      ((afterKeyword keyword cs).bind takeWord).map
        (fun cut ↦ Declaration.mk (String.ofList cut.1) (cs.drop keyword.length) cut.2) = some d ↔
      ∃ gap, d.Stands keyword gap cs := by
    constructor
    · intro h
      obtain ⟨⟨name, after⟩, hname, rfl⟩ := Option.map_eq_some_iff.1 h
      obtain ⟨rest, hrest, hword⟩ := Option.bind_eq_some_iff.1 hname
      obtain ⟨gap, rfl, hgap, -⟩ := afterKeyword_eq_some_iff.1 hrest
      obtain ⟨rfl, hwhole⟩ := takeWord_eq_some_iff.1 hword
      have hdrop : (keyword.toList ++ (gap ++ (name ++ after))).drop keyword.length =
          gap ++ (name ++ after) := by
        rw [← String.length_toList, List.drop_left]
      exact ⟨gap, by rw [hdrop], by simp only [hdrop, String.toList_ofList], hk, hgap,
        by rwa [String.toList_ofList]⟩
    · rintro ⟨gap, h⟩
      have hdrop : cs.drop keyword.length = d.afterKeyword := by
        rw [h.eq, ← String.length_toList, List.drop_left]
      rw [h.afterKeyword, Option.bind_some, takeWord_eq_some_iff.2 ⟨rfl, h.whole⟩, Option.map_some,
        hdrop, String.ofList_toList]
  constructor
  · intro h
    obtain ⟨keyword, hk, h⟩ := List.exists_of_findSome?_eq_some h
    exact ⟨keyword, (hby hk d).1 h⟩
  · rintro ⟨keyword, gap, h⟩
    -- only one declaring word can stand there, so the order of the words does not matter
    cases hfound : declaration? cs with
    | none =>
      have hnone := List.findSome?_eq_none_iff.1 hfound keyword h.keyword
      exact nomatch hnone.symm.trans ((hby h.keyword d).2 ⟨gap, h⟩)
    | some d' =>
      obtain ⟨keyword', hk', hd'⟩ := List.exists_of_findSome?_eq_some hfound
      obtain ⟨gap', h'⟩ := (hby hk' d').1 hd'
      obtain rfl : keyword = keyword' := String.toList_inj.1 (h.takeWhile.symm.trans h'.takeWhile)
      exact hd'.symm.trans ((hby h.keyword d).2 ⟨gap, h⟩)

theorem declaration?_of_blank (c : Char) (cs : List Char) (hc : isBlank c) :
    declaration? (c :: cs) = none := by
  rw [Option.eq_none_iff_forall_ne_some]
  intro d hd
  obtain ⟨keyword, gap, h⟩ := declaration?_eq_some_iff.1 hd
  have hword := h.takeWhile
  rw [List.takeWhile_cons_of_neg (by simp [isWord_eq_false_of_isBlank hc])] at hword
  have hne : ∀ w ∈ declaringWords, w.toList ≠ [] := by decide
  exact hne keyword h.keyword hword.symm

/-- A name that is no declaring word begins no declaration. -/
theorem declaration?_of_name {name : String} {after : List Char}
    (h : IsWholeWord name.toList after) (hname : name ∉ declaringWords) :
    declaration? (name.toList ++ after) = none := by
  rw [Option.eq_none_iff_forall_ne_some]
  intro d hd
  obtain ⟨keyword, gap, hstands⟩ := declaration?_eq_some_iff.1 hd
  obtain rfl : name = keyword :=
    String.toList_inj.1 ((span_run h.word h.stop).1.symm.trans hstands.takeWhile)
  exact hname hstands.keyword

def Declares (inWord : Bool) (cs : List Char) (name : String) : Prop :=
  ∃ before d, Begins declaration? inWord cs before d ∧ d.name = name

theorem Clear.declares_iff {inWord : Bool} {cs rest : List Char}
    (h : Clear declaration? inWord cs rest) (name : String) :
    Declares inWord (cs ++ rest) name ↔ Declares (inWordAfter inWord cs) rest name := by
  constructor
  · rintro ⟨before, d, hbegins, hname⟩
    obtain ⟨tail, -, htail⟩ := h.begins_iff.1 hbegins
    exact ⟨tail, d, htail, hname⟩
  · rintro ⟨tail, d, htail, hname⟩
    exact ⟨cs ++ tail, d, h.begins_iff.2 ⟨tail, rfl, htail⟩, hname⟩

/-- No declaration begins within a declaring word. -/
theorem declares_of_declaration? {cs : List Char} {d : Declaration} (h : declaration? cs = some d)
    (name : String) :
    Declares false cs name ↔ d.name = name ∨ Declares true d.afterKeyword name := by
  obtain ⟨keyword, gap, hstands⟩ := declaration?_eq_some_iff.1 h
  have hne : ∀ w ∈ declaringWords, w.toList ≠ [] := by decide
  have hword := isWord_declaringWords keyword hstands.keyword
  obtain ⟨c, tail, htail⟩ := List.exists_cons_of_ne_nil (hne keyword hstands.keyword)
  rw [htail] at hword
  obtain ⟨hc, hword⟩ := List.forall_mem_cons.1 hword
  have hclear : Clear declaration? true tail d.afterKeyword := .of_word hword
  have hskip := hclear.declares_iff name
  rw [inWordAfter_word hword] at hskip
  have hcs : cs = c :: (tail ++ d.afterKeyword) := by rw [hstands.eq, htail, List.cons_append]
  rw [← hskip, hcs]
  constructor
  · rintro ⟨before, d', hbegins, rfl⟩
    rcases begins_cons.1 hbegins with ⟨-, -, hd'⟩ | ⟨before, -, hbegins⟩
    · rw [← hcs, h] at hd'
      exact .inl (congrArg Declaration.name (Option.some.inj hd'))
    · rw [hc] at hbegins
      exact .inr ⟨before, d', hbegins, rfl⟩
  · rintro (rfl | ⟨before, d', hbegins, rfl⟩)
    · exact ⟨[], d, begins_cons.2 (.inl ⟨rfl, rfl, hcs ▸ h⟩), rfl⟩
    · rw [← hc] at hbegins
      exact ⟨c :: before, d', begins_cons.2 (.inr ⟨before, rfl, hbegins⟩), rfl⟩

/-- Nor does one begin in the blanks behind it or within a name that is no declaring word. -/
theorem declares_afterKeyword {cs : List Char} {d : Declaration} (h : declaration? cs = some d)
    (hname : d.name ∉ declaringWords) (name : String) :
    Declares true d.afterKeyword name ↔ Declares true d.afterName name := by
  obtain ⟨keyword, gap, hstands⟩ := declaration?_eq_some_iff.1 h
  obtain ⟨c, tail, htail⟩ := List.exists_cons_of_ne_nil hstands.whole.ne_nil
  have hgap : Clear declaration? true gap (d.name.toList ++ d.afterName) :=
    .of_blanks declaration?_of_blank hstands.gap.blank
  have hskip : Clear declaration? false d.name.toList d.afterName :=
    .of_word_begin hstands.whole.word (declaration?_of_name hstands.whole hname)
  have hend : inWordAfter false d.name.toList = true := by
    have hword := hstands.whole.word
    rw [htail] at hword ⊢
    obtain ⟨hc, hword⟩ := List.forall_mem_cons.1 hword
    rw [inWordAfter, hc, inWordAfter_word hword]
  rw [hstands.name, hgap.declares_iff, inWordAfter_gap hstands.gap, hskip.declares_iff, hend]

theorem firstDeclaration_eq_some {inWord : Bool} {cs : List Char} {d : Declaration}
    (h : firstDeclaration inWord cs = some d) :
    ∃ before rest, cs = before ++ rest ∧ Clear declaration? inWord before rest ∧
      inWordAfter inWord before = false ∧ declaration? rest = some d := by
  fun_induction firstDeclaration inWord cs with
  | case1 => cases h
  | case2 inWord c cs d' hd =>
    obtain rfl := Option.some.inj h
    obtain ⟨hstart, hd⟩ := Option.ite_none_left_eq_some.1 hd
    exact ⟨[], c :: cs, rfl, trivial, Bool.eq_false_iff.2 hstart, hd⟩
  | case3 inWord c cs hnone ih =>
    obtain ⟨before, rest, rfl, hclear, hstart, hd⟩ := ih h
    refine ⟨c :: before, rest, rfl, ⟨?_, hclear⟩, hstart, hd⟩
    rintro rfl
    exact hnone

theorem firstDeclaration_eq_none {inWord : Bool} {cs : List Char}
    (h : firstDeclaration inWord cs = none) : Clear declaration? inWord cs [] := by
  fun_induction firstDeclaration inWord cs with
  | case1 => trivial
  | case2 inWord c cs d' hd => cases h
  | case3 inWord c cs hnone ih =>
    refine ⟨?_, ih h⟩
    rintro rfl
    rw [List.append_nil]
    exact hnone

theorem not_declares_nil (inWord : Bool) (name : String) : ¬Declares inWord [] name := by
  rintro ⟨before, d, ⟨after, hcs, -, hd⟩, -⟩
  obtain ⟨-, rfl⟩ := List.append_eq_nil_iff.1 hcs.symm
  cases hd

/-- What the scan finds from a place on are the names that are declared from there on. -/
theorem mem_declaredTypes_iff {inWord : Bool} {cs : List Char} {name : String} :
    name ∈ declaredTypes inWord cs ↔ name ∉ declaringWords ∧ Declares inWord cs name := by
  fun_induction declaredTypes inWord cs with
  | case1 inWord cs d h hname ih =>
    obtain ⟨before, rest, rfl, hclear, hstart, hd⟩ := firstDeclaration_eq_some h
    have hdeclaring := List.contains_iff_mem.1 hname
    rw [ih, hclear.declares_iff, hstart, declares_of_declaration? hd]
    refine and_congr_right fun hne ↦ (or_iff_right ?_).symm
    rintro rfl
    exact hne hdeclaring
  | case2 inWord cs d h hname ih =>
    obtain ⟨before, rest, rfl, hclear, hstart, hd⟩ := firstDeclaration_eq_some h
    have hplain : d.name ∉ declaringWords := mt List.contains_iff_mem.2 hname
    rw [List.mem_cons, ih, hclear.declares_iff, hstart, declares_of_declaration? hd,
      declares_afterKeyword hd hplain]
    constructor
    · rintro (rfl | ⟨hne, htail⟩)
      · exact ⟨hplain, .inl rfl⟩
      · exact ⟨hne, .inr htail⟩
    · rintro ⟨hne, rfl | htail⟩
      · exact .inl rfl
      · exact .inr ⟨hne, htail⟩
  | case3 inWord cs h =>
    have hnone := (firstDeclaration_eq_none h).declares_iff name
    rw [List.append_nil] at hnone
    have hnot : ¬Declares inWord cs name := mt hnone.1 (not_declares_nil _ name)
    exact iff_of_false List.not_mem_nil fun h ↦ hnot h.2

/-- A declaration of a type in a text: a word that declares types, blanks, and the name, which is
none of those words. -/
structure TypeDeclaration (code before : List Char) (keyword : String) (gap : List Char)
    (name : String) (after : List Char) : Prop where
  eq : code = before ++ (keyword.toList ++ (gap ++ (name.toList ++ after)))
  start : ∀ c ∈ before.getLast?, isWord c = false
  keyword : keyword ∈ ["class", "struct", "typename", "enum"]
  gap : IsGap gap
  whole : IsWholeWord name.toList after
  plain : name ∉ ["class", "struct", "typename", "enum"]

theorem mem_declaredTypes_iff_typeDeclaration {code : List Char} {name : String} :
    name ∈ declaredTypes false code ↔
      ∃ before keyword gap after, TypeDeclaration code before keyword gap name after := by
  rw [mem_declaredTypes_iff]
  constructor
  · rintro ⟨hplain, before, d, ⟨rest, rfl, hstart, hd⟩, rfl⟩
    obtain ⟨keyword, gap, h⟩ := declaration?_eq_some_iff.1 hd
    exact ⟨before, keyword, gap, d.afterName, by rw [h.eq, h.name],
      inWordAfter_false_iff.1 hstart, h.keyword, h.gap, h.whole, hplain⟩
  · rintro ⟨before, keyword, gap, after, h⟩
    let d : Declaration := ⟨name, gap ++ (name.toList ++ after), after⟩
    have hd : d.Stands keyword gap (keyword.toList ++ d.afterKeyword) :=
      ⟨rfl, rfl, h.keyword, h.gap, h.whole⟩
    exact ⟨h.plain, before, d, ⟨_, h.eq, inWordAfter_false_iff.2 h.start,
      declaration?_eq_some_iff.2 ⟨keyword, gap, hd⟩⟩, rfl⟩

/-- The types of a snippet are the built-in types of the language and the names that it declares.
The search for them ends: behind each declaration that it finds, less of the text is left. -/
theorem isType_ofCode_iff (code : String) (l : Language) :
    (∀ name, (Declared.ofCode code l).isType name ↔ name ∈ l.builtin ∨
      ∃ before keyword gap after,
        TypeDeclaration code.toList before keyword gap name after) ∧
      ∀ inWord cs d, firstDeclaration inWord cs = some d →
        d.afterKeyword.length < cs.length ∧ d.afterName.length < cs.length := by
  refine ⟨fun name ↦ ?_, fun _ _ _ ↦ firstDeclaration_length⟩
  rw [Declared.isType, Declared.ofCode, List.contains_iff_mem, List.mem_append,
    mem_declaredTypes_iff_typeDeclaration]

/-- A name behind three words that declare types. -/
theorem isType_ofCode_iff_of_chain :
    let code := "enum class struct X;"
    TypeDeclaration code.toList "enum class ".toList "struct" [' '] "X" [';'] ∧
      (Declared.ofCode code .cpp).isType "X" ∧
      ∃ d, firstDeclaration false code.toList = some d ∧ d.afterKeyword.length < code.length := by
  intro code
  have hgap : IsGap [' '] := ⟨by decide, List.all_eq_true.1 (by decide)⟩
  have hwhole : IsWholeWord "X".toList [';'] :=
    ⟨by decide, List.all_eq_true.1 (by decide), forall_head_cons (by decide) []⟩
  have hdeclared : TypeDeclaration code.toList "enum class ".toList "struct" [' '] "X" [';'] := by
    refine ⟨by decide +kernel, ?_, by decide, hgap, hwhole, by decide⟩
    rintro c ⟨⟩
    decide
  have hfirst : firstDeclaration false code.toList =
      some ⟨"class", " class struct X;".toList, " struct X;".toList⟩ := by decide +kernel
  exact ⟨hdeclared, ((isType_ofCode_iff code .cpp).1 "X").2 (.inr ⟨_, _, _, _, hdeclared⟩),
    _, hfirst, ((isType_ofCode_iff code .cpp).2 false _ _ hfirst).1⟩

example : declaredTypes false "struct class enum struct X_1;typename\n\tY\x7b\x7dmystruct Z".toList =
    ["X_1", "Y"] := by
  decide +kernel

end Folio.Code
