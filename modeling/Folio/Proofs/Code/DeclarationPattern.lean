import Folio.Code.Declared
import Folio.Proofs.Code.Pattern
import Folio.Proofs.Text.Classes
import Folio.Proofs.Text.Spans

namespace Folio.Code.Pattern

open Text

variable {a b k : Pattern} {before : Option Char} {c : Char} {cs : List Char}

def gap : Pattern :=
  many isBlank

/-- A declaring word and the name of a type. Both are groups. -/
def declaration : Pattern :=
  seq edge <| seq (group (anyOf (declaringWords.map (lit ·.toList)))) <| seq gap <|
    group (many isWord)

def braced : Pattern :=
  seq (many isWord) <| seq (star (one isBlank)) <| seq (one (· = '\x7b')) <|
    seq (group (star (one (· ≠ '\x7d')))) <| one (· = '\x7d')

/-- An enumeration. Its keywords are no group here: nothing reads what they are. -/
def enumeration : Pattern :=
  seq edge <| seq
    (alt (lit "enum".toList) (seq (lit "enum".toList) (seq gap (lit "class".toList)))) <|
    seq gap braced

def declarationOf (m : Match) : Declaration :=
  ⟨String.ofList (m.groups.getD 1 []), m.taken.drop (m.groups.getD 0 []).length ++ m.rest, m.rest⟩

theorem takeBlanks_eq : takeBlanks cs =
    if cs.takeWhile isBlank = [] then none else some (cs.dropWhile isBlank) := by
  cases cs with
  | nil => rfl
  | cons c cs =>
    rw [takeBlanks]
    by_cases hc : isBlank c
    · rw [if_pos hc, List.takeWhile_cons_of_pos hc, List.dropWhile_cons_of_pos hc,
        if_neg (List.cons_ne_nil _ _), dropBlank]
    · rw [if_neg hc, List.takeWhile_cons_of_neg hc, if_pos rfl]

theorem tries_anyOf_lit {words : List String} : (anyOf (words.map (lit ·.toList))).tries before cs =
    words.flatMap fun word ↦
      if word.toList.isPrefixOf cs then [⟨word.toList, cs.drop word.toList.length, []⟩] else [] := by
  induction words with
  | nil => cases cs <;> rfl
  | cons word words ih =>
    rw [List.map_cons, anyOf, tries_alt, ih, tries_lit]
    rfl

/-- What a name behind blanks takes. -/
theorem first_gap_word : first (seq gap (group (many isWord))) before cs =
    (takeBlanks cs).bind fun rest ↦ (takeWord rest).map fun (word, after) ↦
      ⟨cs.takeWhile isBlank ++ word, after, [word]⟩ := by
  have hgap : ∀ c d ds, isBlank c → isBlank d →
      (group (many isWord)).tries (some c) (d :: ds) = [] := by
    intro c d ds _ hd
    rw [tries, many, tries_one_seq_cons, if_neg (by simp [isWord_eq_false_of_isBlank hd])]
    rfl
  rw [first, gap, tries_many_seq hgap, takeBlanks_eq]
  split
  · rfl
  · rw [List.head?_map, tries, List.head?_map, ← first, first_many, Option.bind_some, takeWord]
    split
    · rfl
    · rfl

theorem first_group_seq {words : List String} :
    first (seq (group (anyOf (words.map (lit ·.toList)))) k) before cs =
      words.findSome? fun word ↦
        if word.toList.isPrefixOf cs then
          (first k (word.toList.getLast?.or before) (cs.drop word.toList.length)).map
            (Match.mk word.toList (cs.drop word.toList.length) [word.toList]).followedBy
        else none := by
  rw [first, tries_seq, tries, tries_anyOf_lit, List.flatMap_map, List.flatMap_assoc,
    List.head?_flatMap]
  congr 1
  funext word
  split
  · rw [List.flatMap_singleton, List.head?_map]
    rfl
  · rfl

theorem isWord_declaringWords : ∀ word ∈ declaringWords, word.toList.head?.any isWord := by
  decide

/-- A text that begins with no word has no word as a prefix. -/
theorem isPrefixOf_eq_false {text : List Char} (ht : text.head?.any isWord)
    (h : cs.head?.any isWord = false) : text.isPrefixOf cs = false := by
  rw [Bool.eq_false_iff]
  intro hp
  obtain ⟨ds, rfl⟩ := List.isPrefixOf_iff_prefix.1 hp
  cases text with
  | nil => cases ht
  | cons c text =>
    rw [List.cons_append, List.head?_cons] at h
    rw [List.head?_cons, h] at ht
    cases ht

theorem tries_group_seq_eq_nil {words : List String}
    (hwords : ∀ word ∈ words, word.toList.head?.any isWord) (h : cs.head?.any isWord = false) :
    (seq (group (anyOf (words.map (lit ·.toList)))) k).tries before cs = [] := by
  rw [tries_seq, tries, tries_anyOf_lit, List.flatMap_map, List.flatMap_eq_nil_iff]
  intro m hm
  obtain ⟨word, hword, hm⟩ := List.mem_flatMap.1 hm
  rw [isPrefixOf_eq_false (hwords word hword) h] at hm
  cases hm

theorem first_declaration : (first declaration before cs).map declarationOf =
    if before.any isWord then none else declaration? cs := by
  rw [first, declaration, tries_edge_seq (tries_group_seq_eq_nil isWord_declaringWords)]
  split
  · rfl
  · rw [← first, first_group_seq, List.map_findSome?, declaration?]
    congr 1
    funext word
    rw [Function.comp_apply, afterKeyword, ← String.length_toList]
    split
    · rw [first_gap_word, takeBlanks_eq]
      split
      · rfl
      · rw [Option.bind_some, Option.bind_some, takeWord]
        split
        · rfl
        · simp [declarationOf, Match.followedBy]
    · rfl

theorem find?_declaration : (find? declaration before cs).map declarationOf =
    firstDeclaration (before.any isWord) cs := by
  induction cs generalizing before with
  | nil =>
    rw [find?, first_declaration]
    exact ite_self none
  | cons c cs ih =>
    rw [find?, Option.map_or, first_declaration, ih, firstDeclaration]
    cases if before.any isWord then none else declaration? (c :: cs) <;> rfl

def found (m : Match) : List (List Char) × List Char :=
  (m.groups, m.rest)

/-- The pattern has one match at most, in which one group takes what `g` gives. -/
def Yields (a : Pattern) (g : List Char → Option (List Char × List Char)) : Prop :=
  ∀ before cs, (a.tries before cs).map found = ((g cs).map fun p ↦ ([p.1], p.2)).toList

section

variable {g : List Char → Option (List Char × List Char)}

theorem map_found_followedBy (taken rest : List Char) (ms : List Match) :
    (ms.map (Match.mk taken rest []).followedBy).map found = ms.map found := by
  rw [List.map_map]
  rfl

theorem Yields.tries_eq_nil (h : a.Yields g) (hg : g cs = none) : a.tries before cs = [] := by
  rw [← List.map_eq_nil_iff, h, hg]
  rfl

theorem Yields.one_seq (h : k.Yields g) (x : Char) : (seq (one (· = x)) k).Yields fun
    | c :: cs => if c = x then g cs else none
    | [] => none := by
  intro before cs
  cases cs with
  | nil => rfl
  | cons c cs =>
    rw [tries_one_seq_cons]
    by_cases hc : c = x
    · rw [if_pos (by simpa using hc), map_found_followedBy, h]
      dsimp only
      rw [if_pos hc]
    · rw [if_neg (by simpa using hc)]
      dsimp only
      rw [if_neg hc]
      rfl

theorem Yields.lit_seq (h : k.Yields g) (text : List Char) : (seq (lit text) k).Yields fun cs ↦
    if text.isPrefixOf cs then g (cs.drop text.length) else none := by
  intro before cs
  rw [tries_lit_seq]
  dsimp only
  split
  · rw [map_found_followedBy, h]
  · rfl

variable {p : Char → Bool}

theorem Yields.star_seq (h : k.Yields g) (hg : ∀ c cs, p c → g (c :: cs) = none) :
    (seq (star (one p)) k).Yields fun cs ↦ g (cs.dropWhile p) := by
  intro before cs
  rw [tries_star_one_seq (fun _ d ds _ hd ↦ h.tries_eq_nil (hg d ds hd))
    (fun d ds hd ↦ h.tries_eq_nil (hg d ds hd)), map_found_followedBy, h]

theorem Yields.many_seq (h : k.Yields g) (hg : ∀ c cs, p c → g (c :: cs) = none) :
    (seq (many p) k).Yields fun cs ↦
      if cs.takeWhile p = [] then none else g (cs.dropWhile p) := by
  intro before cs
  rw [tries_many_seq fun _ d ds _ hd ↦ h.tries_eq_nil (hg d ds hd)]
  dsimp only
  split
  · rfl
  · rw [map_found_followedBy, h]

end

theorem splitFirst_eq (sep : Char) (cs : List Char) : splitFirst sep cs =
    match cs.dropWhile (· ≠ sep) with
    | [] => none
    | _ :: rest => some (cs.takeWhile (· ≠ sep), rest) := by
  induction cs with
  | nil => rfl
  | cons c cs ih =>
    rw [splitFirst]
    by_cases hc : c = sep
    · rw [if_pos hc, List.takeWhile_cons_of_neg (by simpa using hc),
        List.dropWhile_cons_of_neg (by simpa using hc)]
    · rw [if_neg hc, ih, List.takeWhile_cons_of_pos (by simpa using hc),
        List.dropWhile_cons_of_pos (by simpa using hc)]
      cases cs.dropWhile (· ≠ sep) <;> rfl

/-- What stands up to a closing brace. -/
theorem body_yields :
    (seq (group (star (one (· ≠ '\x7d')))) (one (· = '\x7d'))).Yields (splitFirst '\x7d') := by
  intro before cs
  rw [tries_seq, tries, List.flatMap_map, flatMap_star_one]
  · rw [splitFirst_eq]
    have hstop := head_dropWhile (p := fun c ↦ decide (c ≠ '\x7d')) (l := cs)
    generalize cs.takeWhile (· ≠ '\x7d') = body
    generalize cs.dropWhile (· ≠ '\x7d') = rest at hstop
    cases rest with
    | nil => rfl
    | cons d rest =>
      obtain rfl : d = '\x7d' := by simpa using hstop d rfl
      simp [tries_one_cons, found, Match.followedBy]
  · intro taken d ds _ hd
    rw [tries_one_cons, if_neg (by simpa using hd)]
    rfl

theorem bracedBody_eq : bracedBody cs =
    if cs.takeWhile isWord = [] then none
    else match (cs.dropWhile isWord).dropWhile isBlank with
      | c :: rest => if c = '\x7b' then splitFirst '\x7d' rest else none
      | [] => none := by
  rw [bracedBody, takeWord]
  split
  · rfl
  · rw [Option.bind_eq_bind, Option.bind_some]
    dsimp only [dropBlank]
    cases (cs.dropWhile isWord).dropWhile isBlank with
    | nil => rfl
    | cons c rest => by_cases hc : c = '\x7b' <;> simp [hc]

theorem braced_yields : braced.Yields bracedBody := by
  intro before cs
  rw [bracedBody_eq, braced]
  refine Yields.many_seq ((body_yields.one_seq '\x7b').star_seq ?_) ?_ before cs
  · intro c cs hc
    dsimp only
    rw [if_neg]
    rintro rfl
    exact absurd hc (by decide)
  · intro c cs hc
    rw [List.dropWhile_cons_of_neg (by simp [isBlank_eq_false_of_isWord hc])]
    dsimp only
    rw [if_neg]
    rintro rfl
    exact absurd hc (by decide)

theorem bracedBody_of_blank (h : isBlank c) : bracedBody (c :: cs) = none := by
  rw [bracedBody_eq, List.takeWhile_cons_of_neg (by simp [isWord_eq_false_of_isBlank h]),
    if_pos rfl]

/-- A keyword and blanks. -/
theorem keyword_yields {g : List Char → Option (List Char × List Char)} (h : k.Yields g)
    (hg : ∀ c cs, isBlank c → g (c :: cs) = none) (keyword : String) :
    (seq (lit keyword.toList) (seq gap k)).Yields fun cs ↦ (afterKeyword keyword cs).bind g := by
  intro before cs
  rw [gap, (h.many_seq hg).lit_seq keyword.toList]
  dsimp only
  rw [afterKeyword, takeBlanks_eq, ← String.length_toList]
  split
  · split <;> rfl
  · rfl

theorem afterKeyword_eq_none {keyword : String} (hk : keyword.toList.head?.any isWord)
    (h : cs.head?.any isWord = false) : afterKeyword keyword cs = none := by
  rw [afterKeyword, isPrefixOf_eq_false hk h]
  rfl

theorem first_enumeration : (first enumeration before cs).map found =
    (if before.any isWord then none else enumBody cs).map fun p ↦ ([p.1], p.2) := by
  have hplain := keyword_yields braced_yields (fun _ _ ↦ bracedBody_of_blank) "enum"
  have hclass := keyword_yields braced_yields (fun _ _ ↦ bracedBody_of_blank) "class"
  have hblank : ∀ c cs, isBlank c → (afterKeyword "class" (c :: cs)).bind bracedBody = none := by
    intro c cs hc
    rw [afterKeyword_eq_none (by decide) (by simpa using isWord_eq_false_of_isBlank hc)]
    rfl
  have hscoped := keyword_yields hclass hblank "enum"
  have htries : (seq (alt (lit "enum".toList) (seq (lit "enum".toList) (seq gap (lit "class".toList))))
      (seq gap braced)).tries before cs =
      (seq (lit "enum".toList) (seq gap braced)).tries before cs ++
        (seq (lit "enum".toList) (seq gap (seq (lit "class".toList) (seq gap braced)))).tries
          before cs := by
    rw [tries_alt_seq, tries_seq_assoc, tries_lit_seq, tries_lit_seq, tries_seq_assoc,
      tries_lit_seq]
  rw [first, enumeration, tries_edge_seq, htries]
  · split
    · rfl
    · rw [← List.head?_map, List.map_append, List.head?_append, hplain, hscoped,
        Option.head?_toList, Option.head?_toList, ← Option.map_or, enumBody]
      dsimp only
      cases afterKeyword "enum" cs <;> rfl
  · intro hcs
    have hnone : afterKeyword "enum" cs = none := afterKeyword_eq_none (by decide) hcs
    rw [htries, hplain.tries_eq_nil (by rw [hnone]; rfl), hscoped.tries_eq_nil (by rw [hnone]; rfl)]
    rfl

def EndsWith (x : Char) (a : Pattern) : Prop :=
  ∀ before cs, ∀ m ∈ a.tries before cs, m.taken.getLast? = some x

theorem EndsWith.one (x : Char) : (one (· = x)).EndsWith x := by
  intro before cs m hm
  cases cs with
  | nil => simp [tries_one_nil] at hm
  | cons c cs =>
    obtain ⟨hc, hm⟩ := List.mem_ite_nil_right.1 hm
    obtain rfl := List.mem_singleton.1 hm
    rw [of_decide_eq_true hc]
    rfl

theorem EndsWith.seq {x : Char} (hk : k.EndsWith x) : (seq a k).EndsWith x := by
  intro before cs m hm
  obtain ⟨m₁, -, hm⟩ := List.mem_flatMap.1 hm
  obtain ⟨m₂, hm₂, rfl⟩ := List.mem_map.1 hm
  rw [Match.followedBy, List.getLast?_append, hk _ _ _ hm₂]
  rfl

theorem enumeration_endsWith : enumeration.EndsWith '\x7d' :=
  .seq (.seq (.seq (.seq (.seq (.seq (.seq (.one '\x7d')))))))

theorem EndsWith.takes {x : Char} (h : a.EndsWith x) : a.Takes := by
  intro before cs m hm hnil
  have := h before cs m hm
  rw [hnil] at this
  cases this

theorem enumMembers_eq : enumMembers (before.any isWord) cs =
    match find? enumeration before cs with
    | some m => m.groups.flatMap membersOf ++ enumMembers false m.rest
    | none => [] := by
  induction cs generalizing before with
  | nil =>
    have hfirst := @first_enumeration before []
    rw [show enumBody [] = none from rfl, ite_self, Option.map_none,
      Option.map_eq_none_iff] at hfirst
    rw [find?, hfirst, enumMembers]
  | cons c cs ih =>
    have hfirst := @first_enumeration before (c :: cs)
    rw [enumMembers, find?]
    split
    · next body rest h =>
      rw [h] at hfirst
      obtain ⟨m, hm, hfound⟩ := Option.map_eq_some_iff.1 hfirst
      obtain ⟨hgroups, hrest⟩ := Prod.mk.inj hfound
      rw [hm, Option.some_or]
      dsimp only
      rw [hgroups, hrest, List.flatMap_singleton]
    · next h =>
      rw [h, Option.map_none, Option.map_eq_none_iff] at hfirst
      rw [hfirst, Option.none_or]
      exact @ih (some c)

/-- The members of enumerations are what stands between the braces of the matches. -/
theorem flatMap_findAll_enumeration :
    ((findAll enumeration before cs).flatMap fun m ↦ m.groups.flatMap membersOf) =
      enumMembers (before.any isWord) cs := by
  have htakes := enumeration_endsWith.takes
  induction hn : cs.length using Nat.strong_induction_on generalizing before cs with
  | _ n ih =>
    rw [findAll_eq htakes, enumMembers_eq]
    cases hm : find? enumeration before cs with
    | none => rfl
    | some m =>
      obtain ⟨before', cs', -, hmem⟩ := exists_of_find? hm
      have hlast : (m.last? before).any isWord = false := by
        rw [Match.last?, enumeration_endsWith before' cs' m hmem, Option.some_or, Option.any_some]
        decide
      dsimp only
      rw [List.flatMap_cons, ih _ (hn ▸ htakes.length_find? hm) rfl, hlast]

end Folio.Code.Pattern
