import Folio.Proofs.Code.Searches
import Folio.Proofs.Text.Pieces

namespace Folio.Code

open Text

structure IsName (name gap : List Char) : Prop where
  ne_nil : name ≠ []
  word : ∀ c ∈ name, isWord c
  blank : ∀ c ∈ gap, isBlank c

/-- What stands before the body of an enumeration, up to the brace that opens it. -/
inductive EnumHead : List Char → Prop
  | plain {gap name gap' : List Char} : IsGap gap → IsName name gap' →
      EnumHead ("enum".toList ++ (gap ++ (name ++ (gap' ++ ['\x7b']))))
  | ofClass {gap₀ gap name gap' : List Char} : IsGap gap₀ → IsGap gap → IsName name gap' →
      EnumHead ("enum".toList ++ (gap₀ ++ ("class".toList ++
        (gap ++ (name ++ (gap' ++ ['\x7b']))))))

theorem IsName.wholeWord {name gap : List Char} (h : IsName name gap) (rest : List Char) :
    IsWholeWord name (gap ++ '\x7b' :: rest) := by
  refine ⟨h.ne_nil, h.word, ?_⟩
  cases gap with
  | nil => exact forall_head_cons (by decide) rest
  | cons c gap =>
    exact forall_head_cons (isWord_eq_false_of_isBlank (h.blank c (List.mem_cons_self ..))) _

theorem bracedBody_eq_some_iff {cs body rest : List Char} :
    bracedBody cs = some (body, rest) ↔ ∃ name gap, IsName name gap ∧
      cs = name ++ (gap ++ '\x7b' :: (body ++ '\x7d' :: rest)) ∧ '\x7d' ∉ body := by
  constructor
  · intro h
    obtain ⟨⟨name, after⟩, hname, hbrace⟩ := Option.bind_eq_some_iff.1 h
    obtain ⟨rfl, hwhole⟩ := takeWord_eq_some_iff.1 hname
    obtain ⟨gap, hafter, hgap⟩ := exists_blanks_dropBlank after
    simp only at hbrace
    split at hbrace
    · next inner hinner =>
      obtain ⟨rfl, hbody⟩ := splitFirst_eq_some_iff.1 hbrace
      rw [hinner] at hafter
      exact ⟨name, gap, ⟨hwhole.ne_nil, hwhole.word, hgap⟩, by rw [hafter], hbody⟩
    · cases hbrace
  · rintro ⟨name, gap, hname, rfl, hbody⟩
    have hbrace : dropBlank (gap ++ '\x7b' :: (body ++ '\x7d' :: rest)) =
        '\x7b' :: (body ++ '\x7d' :: rest) :=
      dropBlank_append hname.blank (forall_head_cons (by decide) _)
    rw [bracedBody, takeWord_eq_some_iff.2 ⟨rfl, hname.wholeWord _⟩]
    simp only [Option.bind_eq_bind, Option.bind_some, hbrace]
    exact splitFirst_append hbody rest

/-- No body follows a word where another word comes before the brace. -/
theorem bracedBody_of_words {word gap name rest : List Char} (hword : ∀ c ∈ word, isWord c)
    (hgap : IsGap gap) (hname : IsWholeWord name rest) :
    bracedBody (word ++ (gap ++ (name ++ rest))) = none := by
  rw [Option.eq_none_iff_forall_ne_some]
  rintro ⟨body, behind⟩ h
  obtain ⟨name', gap', hname', heq, -⟩ := bracedBody_eq_some_iff.1 h
  have hstop := hgap.head_not_word (name ++ rest)
  have hstop' := (hname'.wholeWord (body ++ '\x7d' :: behind)).stop
  -- behind the first word and its blanks, one side has the other word and the other the brace
  have hbehind := congrArg (List.dropWhile isWord) heq
  rw [(span_run hword hstop).2, (span_run hname'.word hstop').2] at hbehind
  have hbrace := congrArg dropBlank hbehind
  rw [dropBlank_append hgap.blank hname.head_not_blank,
    dropBlank_append hname'.blank (forall_head_cons (by decide) _)] at hbrace
  obtain ⟨c, name, rfl⟩ := List.exists_cons_of_ne_nil hname.ne_nil
  obtain ⟨rfl, -⟩ := List.cons.inj hbrace
  exact absurd (hname.word _ (List.mem_cons_self ..)) (by decide)

theorem enumBody_eq_some_iff {cs body rest : List Char} :
    enumBody cs = some (body, rest) ↔
      ∃ head, EnumHead head ∧ cs = head ++ (body ++ '\x7d' :: rest) ∧ '\x7d' ∉ body := by
  constructor
  · intro h
    obtain ⟨after, hafter, hboth⟩ := Option.bind_eq_some_iff.1 h
    obtain ⟨gap, rfl, hgap, -⟩ := afterKeyword_eq_some_iff.1 hafter
    rcases Option.or_eq_some_iff.1 hboth with hplain | ⟨-, hclass⟩
    · obtain ⟨name, gap', hname, rfl, hbody⟩ := bracedBody_eq_some_iff.1 hplain
      exact ⟨_, .plain hgap hname, by simp, hbody⟩
    · obtain ⟨after', hafter', hinner⟩ := Option.bind_eq_some_iff.1 hclass
      obtain ⟨gap', rfl, hgap', -⟩ := afterKeyword_eq_some_iff.1 hafter'
      obtain ⟨name, gap'', hname, rfl, hbody⟩ := bracedBody_eq_some_iff.1 hinner
      exact ⟨_, .ofClass hgap hgap' hname, by simp, hbody⟩
  · rintro ⟨head, hhead, rfl, hbody⟩
    cases hhead with
    | @plain gap name gap' hgap hname =>
      have hwhole := hname.wholeWord (body ++ '\x7d' :: rest)
      have hafter := afterKeyword_append "enum" hgap hwhole.head_not_blank
      simp only [List.append_assoc, List.singleton_append]
      rw [enumBody, hafter, Option.bind_eq_bind, Option.bind_some,
        bracedBody_eq_some_iff.2 ⟨name, gap', hname, rfl, hbody⟩, Option.some_or]
    | @ofClass gap₀ gap name gap' hgap₀ hgap hname =>
      have hwhole := hname.wholeWord (body ++ '\x7d' :: rest)
      have hclass : ∀ c ∈ "class".toList, isWord c := List.all_eq_true.1 (by decide)
      have hkeyword : IsWholeWord "class".toList
          (gap ++ (name ++ (gap' ++ '\x7b' :: (body ++ '\x7d' :: rest)))) :=
        ⟨by decide, hclass, hgap.head_not_word _⟩
      have hscope := afterKeyword_append "class" hgap hwhole.head_not_blank
      have hafter := afterKeyword_append "enum" hgap₀ hkeyword.head_not_blank
      simp only [List.append_assoc, List.singleton_append]
      rw [enumBody, hafter, Option.bind_eq_bind, Option.bind_some,
        bracedBody_of_words hclass hgap hwhole, Option.none_or, hscope, Option.bind_some,
        bracedBody_eq_some_iff.2 ⟨name, gap', hname, rfl, hbody⟩]

/-- An enumeration begins with its keyword and another word. -/
theorem words_of_enumBody {cs : List Char} {cut : Cut} (h : enumBody cs = some cut) :
    cs.takeWhile isWord = "enum".toList ∧
      ∃ c ∈ (dropBlank (cs.dropWhile isWord)).head?, isWord c := by
  obtain ⟨after, hafter, hboth⟩ := Option.bind_eq_some_iff.1 h
  obtain ⟨htake, hdrop⟩ := span_of_afterKeyword (List.all_eq_true.1 (by decide)) hafter
  rw [htake, hdrop]
  refine ⟨rfl, ?_⟩
  rcases Option.or_eq_some_iff.1 hboth with hplain | ⟨-, hclass⟩
  · obtain ⟨⟨name, rest⟩, hname, -⟩ := Option.bind_eq_some_iff.1 hplain
    obtain ⟨rfl, hwhole⟩ := takeWord_eq_some_iff.1 hname
    obtain ⟨c, name, rfl⟩ := List.exists_cons_of_ne_nil hwhole.ne_nil
    exact ⟨c, rfl, hwhole.word c (List.mem_cons_self ..)⟩
  · obtain ⟨rest, hrest, -⟩ := Option.bind_eq_some_iff.1 hclass
    obtain ⟨gap, rfl, -⟩ := afterKeyword_eq_some_iff.1 hrest
    exact ⟨'c', rfl, by decide⟩

theorem enumBody_of_takeWhile {cs : List Char} (h : cs.takeWhile isWord ≠ "enum".toList) :
    enumBody cs = none := by
  cases hcut : enumBody cs with
  | none => rfl
  | some cut => exact absurd (words_of_enumBody hcut).1 h

theorem enumBody_of_not_word {c : Char} (hc : isWord c = false) (cs : List Char) :
    enumBody (c :: cs) = none := by
  refine enumBody_of_takeWhile ?_
  rw [List.takeWhile_cons_of_neg (by simp [hc])]
  decide

/-- No enumeration begins within the name before the brace and its blanks, be the name `enum`. -/
theorem IsName.clear {name gap : List Char} (h : IsName name gap) (rest : List Char) :
    Clear enumBody false (name ++ (gap ++ ['\x7b'])) rest := by
  have hwhole := h.wholeWord rest
  have hname : enumBody (name ++ (gap ++ '\x7b' :: rest)) = none := by
    cases hcut : enumBody (name ++ (gap ++ '\x7b' :: rest)) with
    | none => rfl
    | some cut =>
      obtain ⟨-, c, hc, hw⟩ := words_of_enumBody hcut
      rw [(span_run h.word hwhole.stop).2,
        dropBlank_append h.blank (forall_head_cons (by decide) rest)] at hc
      obtain rfl := Option.some.inj hc
      exact absurd hw (by decide)
  have hbrace : Clear enumBody (inWordAfter (inWordAfter false name) gap) ['\x7b'] rest :=
    ⟨fun _ ↦ enumBody_of_not_word (by decide) rest, trivial⟩
  refine .append (.of_word_begin h.word ?_) (.append (.of_blanks ?_ h.blank) hbrace)
  · simpa using hname
  · exact fun c cs hc ↦ enumBody_of_not_word (isWord_eq_false_of_isBlank hc) cs

/-- Nor behind the first letter of what stands before the body. -/
theorem EnumHead.clear {head : List Char} (h : EnumHead head) (rest : List Char) :
    ∃ first, head = 'e' :: (first ++ ['\x7b']) ∧ Clear enumBody true (first ++ ['\x7b']) rest := by
  have hblank (c : Char) (cs : List Char) (hc : isBlank c) : enumBody (c :: cs) = none :=
    enumBody_of_not_word (isWord_eq_false_of_isBlank hc) cs
  have hkeyword (rest : List Char) : Clear enumBody true ['n', 'u', 'm'] rest :=
    .of_word (List.all_eq_true.1 (by decide))
  cases h with
  | @plain gap name gap' hgap hname =>
    refine ⟨['n', 'u', 'm'] ++ (gap ++ (name ++ gap')), by simp, ?_⟩
    simp only [List.append_assoc]
    refine (hkeyword _).append (.append (.of_blanks hblank hgap.blank) ?_)
    rw [inWordAfter_gap hgap]
    exact hname.clear rest
  | @ofClass gap₀ gap name gap' hgap₀ hgap hname =>
    have hclass : ∀ c ∈ "class".toList, isWord c := List.all_eq_true.1 (by decide)
    refine ⟨['n', 'u', 'm'] ++ (gap₀ ++ ("class".toList ++ (gap ++ (name ++ gap')))), by simp, ?_⟩
    simp only [List.append_assoc]
    refine (hkeyword _).append (.append (.of_blanks hblank hgap₀.blank) ?_)
    rw [inWordAfter_gap hgap₀]
    refine .append (.of_word_begin hclass (enumBody_of_takeWhile ?_))
      (.append (.of_blanks hblank hgap.blank) ?_)
    · simp only [List.append_assoc]
      rw [(span_run hclass (hgap.head_not_word _)).1]
      decide
    · rw [inWordAfter_gap hgap]
      exact hname.clear rest

def ClosesBraces (cs : List Char) : Prop :=
  ∀ before after, cs = before ++ '\x7b' :: after → '\x7d' ∈ after

theorem ClosesBraces.of_append (cs : List Char) {ds : List Char} (h : ClosesBraces (cs ++ ds)) :
    ClosesBraces ds := by
  rintro before after rfl
  exact h (cs ++ before) after (List.append_assoc ..).symm

theorem closesBraces_cons_iff {c : Char} {cs : List Char} :
    ClosesBraces (c :: cs) ↔ (c = '\x7b' → '\x7d' ∈ cs) ∧ ClosesBraces cs := by
  constructor
  · intro h
    refine ⟨?_, h.of_append [c]⟩
    rintro rfl
    exact h [] cs rfl
  · rintro ⟨hc, hcs⟩ before after heq
    cases before with
    | nil =>
      obtain ⟨rfl, rfl⟩ := List.cons.inj heq
      exact hc rfl
    | cons d before => exact hcs before after (List.cons.inj heq).2

instance decidableClosesBraces : (cs : List Char) → Decidable (ClosesBraces cs)
  | [] => isTrue fun _ _ h ↦ by simp at h
  | _ :: cs =>
    have := decidableClosesBraces cs
    decidable_of_iff _ closesBraces_cons_iff.symm

/-- Behind an enumeration, another that begins later begins where the body is closed or after. -/
theorem begins_behind_body {cs body rest before : List Char} {c : Char} {cut : Cut}
    (h : enumBody (c :: cs) = some (body, rest))
    (hbegins : Begins enumBody (isWord c) cs before cut) (hclosed : ClosesBraces (c :: before)) :
    ∃ tail, Begins enumBody false rest tail cut ∧ ClosesBraces tail := by
  obtain ⟨head, hhead, heq, hbody⟩ := enumBody_eq_some_iff.1 h
  obtain ⟨first, rfl, hclear⟩ := hhead.clear (body ++ '\x7d' :: rest)
  obtain ⟨rfl, rfl⟩ := List.cons.inj heq
  obtain ⟨tail, rfl, after, hsplit, hstart, hcut⟩ := hclear.begins_iff.1 hbegins
  -- the brace before the body is opened in what stands before the other one
  have hclose : '\x7d' ∈ tail := hclosed ('e' :: first) tail (by simp)
  rcases List.append_eq_append_iff.1 hsplit with ⟨inner, rfl, hinner⟩ | ⟨inner, rfl, -⟩
  · cases inner with
    | nil => exact absurd (by simpa using hclose) hbody
    | cons d inner =>
      obtain ⟨rfl, rfl⟩ := List.cons.inj hinner
      refine ⟨inner, ⟨after, rfl, ?_, hcut⟩, ?_⟩
      · rw [inWordAfter_append] at hstart
        exact hstart
      · refine ClosesBraces.of_append ('e' :: (first ++ '\x7b' :: (body ++ ['\x7d']))) ?_
        simpa using hclosed
  · exact absurd (List.mem_append_left inner hclose) hbody

/-- The scan finds every enumeration before which the braces are closed. -/
theorem mem_enumMembers_of_begins {inWord : Bool} {cs before body rest : List Char}
    (h : Begins enumBody inWord cs before (body, rest)) (hclosed : ClosesBraces before)
    {name : String} (hname : name ∈ membersOf body) : name ∈ enumMembers inWord cs := by
  fun_induction enumMembers inWord cs generalizing before with
  | case1 =>
    obtain ⟨after, hnil, -, hcut⟩ := h
    obtain ⟨-, rfl⟩ := List.append_eq_nil_iff.1 hnil.symm
    cases hcut
  | case2 inWord c cs body' rest' hfound ih =>
    rw [dite_eq_ite] at hfound
    obtain ⟨-, hfound⟩ := Option.ite_none_left_eq_some.1 hfound
    rcases begins_cons.1 h with ⟨-, -, hcut⟩ | ⟨before, rfl, hbegins⟩
    · obtain ⟨rfl, -⟩ := Prod.mk.inj (Option.some.inj (hfound.symm.trans hcut))
      exact List.mem_append_left _ hname
    · obtain ⟨tail, htail, hclosed⟩ := begins_behind_body hfound hbegins hclosed
      exact List.mem_append_right _ (ih htail hclosed)
  | case3 inWord c cs hnone ih =>
    rw [dite_eq_ite] at hnone
    rcases begins_cons.1 h with ⟨-, rfl, hcut⟩ | ⟨before, rfl, hbegins⟩
    · cases hnone.symm.trans hcut
    · exact ih hbegins (closesBraces_cons_iff.1 hclosed).2

/-- The scan finds nothing but members of enumerations. -/
theorem exists_begins_of_mem_enumMembers {inWord : Bool} {cs : List Char} {name : String}
    (h : name ∈ enumMembers inWord cs) :
    ∃ before body rest, Begins enumBody inWord cs before (body, rest) ∧
      name ∈ membersOf body := by
  fun_induction enumMembers inWord cs with
  | case1 => cases h
  | case2 inWord c cs body rest hfound ih =>
    rw [dite_eq_ite] at hfound
    obtain ⟨hstart, hfound⟩ := Option.ite_none_left_eq_some.1 hfound
    rcases List.mem_append.1 h with h | h
    · exact ⟨[], body, rest, ⟨c :: cs, rfl, Bool.eq_false_iff.2 hstart, hfound⟩, h⟩
    · obtain ⟨before, body', rest', hbegins, hname⟩ := ih h
      obtain ⟨head, -, heq, -⟩ := enumBody_eq_some_iff.1 hfound
      have hcs : c :: cs = head ++ (body ++ ['\x7d']) ++ rest := by simp [heq]
      have hend : inWordAfter inWord (head ++ (body ++ ['\x7d'])) = false := by
        rw [inWordAfter_append, inWordAfter_append]
        rfl
      rw [← hend] at hbegins
      exact ⟨_, body', rest', hcs ▸ hbegins.append, hname⟩
  | case3 inWord c cs hnone ih =>
    obtain ⟨before, body, rest, hbegins, hname⟩ := ih h
    exact ⟨c :: before, body, rest, begins_cons.2 (.inr ⟨before, rfl, hbegins⟩), hname⟩

/-- A name among the members of a body: the word with which a piece between commas begins, once the
blanks around the piece are left out. -/
def IsMember (body : List Char) (name : String) : Prop :=
  ∃ left piece right rest, IsPiece ',' body left piece right ∧
    dropBlankEnd (dropBlank piece) = name.toList ++ rest ∧ IsWholeWord name.toList rest

theorem takeWord_dropBlankEnd {cs word : List Char} :
    (∃ rest, takeWord cs = some (word, rest)) ↔
      ∃ rest, takeWord (dropBlankEnd cs) = some (word, rest) := by
  obtain ⟨after, hcs, hafter⟩ := exists_blanks_dropBlankEnd cs
  have hstop : ∀ c ∈ after.head?, isWord c = false :=
    fun c hc ↦ isWord_eq_false_of_isBlank (hafter c (List.mem_of_mem_head? hc))
  have htake : cs.takeWhile isWord = (dropBlankEnd cs).takeWhile isWord := by
    rw [← (span_extend hstop (dropBlankEnd cs)).1, ← hcs]
  simp [takeWord, htake]

theorem mem_membersOf_iff {body : List Char} {name : String} :
    name ∈ membersOf body ↔ IsMember body name := by
  rw [membersOf, List.mem_filterMap]
  constructor
  · rintro ⟨piece, hpiece, hname⟩
    obtain ⟨left, right, hpiece⟩ := mem_splitOn_iff.1 hpiece
    obtain ⟨⟨word, rest⟩, hword, rfl⟩ := Option.map_eq_some_iff.1 hname
    obtain ⟨rest', hword'⟩ := takeWord_dropBlankEnd.1 ⟨rest, hword⟩
    obtain ⟨heq, hwhole⟩ := takeWord_eq_some_iff.1 hword'
    exact ⟨left, piece, right, rest', hpiece, by simpa using heq, by simpa using hwhole⟩
  · rintro ⟨left, piece, right, rest, hpiece, heq, hwhole⟩
    obtain ⟨rest', hword⟩ :=
      takeWord_dropBlankEnd.2 ⟨rest, takeWord_eq_some_iff.2 ⟨heq, hwhole⟩⟩
    exact ⟨piece, mem_splitOn_iff.2 ⟨left, right, hpiece⟩, by rw [hword]; simp⟩

/-- An enumeration in a text. Its body ends with the first brace that closes. -/
structure Enumeration (code before head body after : List Char) : Prop where
  eq : code = before ++ (head ++ (body ++ '\x7d' :: after))
  start : ∀ c ∈ before.getLast?, isWord c = false
  head : EnumHead head
  body : '\x7d' ∉ body

theorem exists_enumeration_iff {code before body : List Char} :
    (∃ after, Begins enumBody false code before (body, after)) ↔
      ∃ head after, Enumeration code before head body after := by
  constructor
  · rintro ⟨after, rest, rfl, hstart, hcut⟩
    obtain ⟨head, hhead, rfl, hbody⟩ := enumBody_eq_some_iff.1 hcut
    exact ⟨head, after, rfl, inWordAfter_false_iff.1 hstart, hhead, hbody⟩
  · rintro ⟨head, after, h⟩
    exact ⟨after, _, h.eq, inWordAfter_false_iff.2 h.start,
      enumBody_eq_some_iff.2 ⟨head, h.head, rfl, h.body⟩⟩

/-- The members that the scan finds are members of enumerations of the snippet, and every member of
an enumeration is found before which each brace that is opened is closed. -/
theorem isMember_ofCode (code : String) (l : Language) :
    (∀ name, (Declared.ofCode code l).isMember name → ∃ before head body after,
      Enumeration code.toList before head body after ∧ IsMember body name) ∧
      ∀ before head body after, Enumeration code.toList before head body after →
        ClosesBraces before → ∀ name, IsMember body name →
          (Declared.ofCode code l).isMember name := by
  simp only [Declared.isMember, Declared.ofCode, List.contains_iff_mem]
  constructor
  · intro name h
    obtain ⟨before, body, rest, hbegins, hname⟩ := exists_begins_of_mem_enumMembers h
    obtain ⟨head, after, henum⟩ := exists_enumeration_iff.1 ⟨rest, hbegins⟩
    exact ⟨before, head, body, after, henum, mem_membersOf_iff.1 hname⟩
  · intro before head body after henum hclosed name hname
    obtain ⟨after', hbegins⟩ := exists_enumeration_iff.2 ⟨head, after, henum⟩
    exact mem_enumMembers_of_begins hbegins hclosed (mem_membersOf_iff.2 hname)

/-- The second enumeration of a snippet, behind the braces of the first. -/
theorem isMember_ofCode_behind_body :
    let code := "enum A \x7bB\x7d enum class E\n\x7b C = 1, D \x7d;"
    Enumeration code.toList "enum A \x7bB\x7d ".toList "enum class E\n\x7b".toList
        " C = 1, D ".toList [';'] ∧
      ClosesBraces "enum A \x7bB\x7d ".toList ∧ IsMember " C = 1, D ".toList "D" ∧
      (Declared.ofCode code .cpp).isMember "D" := by
  intro code
  have henum : Enumeration code.toList "enum A \x7bB\x7d ".toList "enum class E\n\x7b".toList
      " C = 1, D ".toList [';'] := by
    have hgap : IsGap [' '] := ⟨by decide, List.all_eq_true.1 (by decide)⟩
    have hname : IsName ['E'] ['\n'] :=
      ⟨by decide, List.all_eq_true.1 (by decide), List.all_eq_true.1 (by decide)⟩
    refine ⟨by decide +kernel, ?_, .ofClass hgap hgap hname, by decide⟩
    rintro c ⟨⟩
    decide
  have hclosed : ClosesBraces "enum A \x7bB\x7d ".toList := by decide
  have hmember : IsMember " C = 1, D ".toList "D" := by
    refine ⟨" C = 1,".toList, " D ".toList, [], [], ⟨rfl, by decide, ?_, nofun⟩, rfl,
      by decide, List.all_eq_true.1 (by decide), nofun⟩
    rintro c ⟨⟩
    rfl
  exact ⟨henum, hclosed, hmember,
    (isMember_ofCode code .cpp).2 _ _ _ _ henum hclosed "D" hmember⟩

/-- The name of an enumeration may be a keyword, and one within the body of another is passed over. -/
example : enumMembers false
    "enum class\x7bA, b = 2,,\x7d enum class enum \x7bC enum D\x7bE\x7d enumF\x7bG\x7d".toList =
      ["A", "b", "C"] := by
  decide +kernel

end Folio.Code
