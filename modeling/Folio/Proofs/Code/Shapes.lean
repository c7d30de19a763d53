import Folio.Proofs.Code.Declarations
import Folio.Proofs.Code.Enumerations
import Folio.Proofs.Code.Margins
import Folio.Proofs.Code.Operators
import Folio.Proofs.Code.Recognised
import Folio.Proofs.Code.Whole

namespace Folio.Code

open Text

section

variable {l : Language} {names : Declared} {text : String}

/-- No rule applies that stands before those for declared names. -/
structure IsUndecided (l : Language) (text : String) : Prop where
  slashes : ¬['/', '/'].isPrefixOf text.toList
  control : ¬l.isControl (leadingWord text.toList)
  type : ¬l.isType (leadingWord text.toList)
  literal : ¬(isWhole (cutQuoted '"') text.toList || isCharLiteral text.toList)
  number : ¬isNumber text.toList
  call : ¬isWhole cutCall text.toList
  directive : ¬isWhole cutInclude text.toList

/-- The rules in their order. Those for calls and for declared names come with what the rules before
them leave. -/
inductive Rule (l : Language) (names : Declared) (text : String) : Category → Prop
  | comment : ['/', '/'].isPrefixOf text.toList → Rule l names text .comment
  | controlKeyword : l.isControl (leadingWord text.toList) → Rule l names text .controlKeyword
  | typeKeyword : l.isType (leadingWord text.toList) → Rule l names text .typeKeyword
  | textLiteral : isWhole (cutQuoted '"') text.toList || isCharLiteral text.toList →
      Rule l names text .textLiteral
  | numericalLiteral : isNumber text.toList → Rule l names text .numericalLiteral
  | functionName : ¬l.isControl (leadingWord text.toList) → ¬l.isType (leadingWord text.toList) →
      isWhole cutCall text.toList → Rule l names text .functionName
  | include : isWhole cutInclude text.toList → Rule l names text .include
  | customType : IsUndecided l text → names.isType (leadingWord text.toList) →
      Rule l names text .customType
  | enumType : IsUndecided l text → ¬names.isType (leadingWord text.toList) →
      names.isMember (leadingWord text.toList) → Rule l names text .enumType
  | operator : l.isOperatorRun text → Rule l names text .operator
  | identifier : ¬l.isOperatorRun text → Rule l names text .identifier

theorem rule_categoryOf (l : Language) (names : Declared) (text : String) :
    Rule l names text (categoryOf l names text) := by
  unfold categoryOf
  dsimp only
  split
  · next h => exact .comment h
  next hslashes =>
  split
  · next h => exact .controlKeyword h
  next hcontrol =>
  split
  · next h => exact .typeKeyword h
  next htype =>
  split
  · next h => exact .textLiteral h
  next hliteral =>
  split
  · next h => exact .numericalLiteral h
  next hnumber =>
  split
  · next h => exact .functionName hcontrol htype h
  next hcall =>
  split
  · next h => exact .include h
  next hdirective =>
  have hundecided : IsUndecided l text :=
    ⟨hslashes, hcontrol, htype, hliteral, hnumber, hcall, hdirective⟩
  split
  · next h => exact .customType hundecided h
  next hname =>
  split
  · next h => exact .enumType hundecided hname h
  split
  · next h => exact .operator h
  · next h => exact .identifier h

theorem IsUndecided.categoryOf_eq (h : IsUndecided l text) (names : Declared) :
    categoryOf l names text = if names.isType (leadingWord text.toList) then .customType
      else if names.isMember (leadingWord text.toList) then .enumType
      else if l.isOperatorRun text then .operator else .identifier := by
  unfold categoryOf
  dsimp only
  rw [if_neg h.slashes, if_neg h.control, if_neg h.type, if_neg h.literal, if_neg h.number,
    if_neg h.call, if_neg h.directive]

end

/-- A lexeme that begins with a word is that word, a call or a number. -/
theorem Form.of_leadingWord {rest t : List Char} (h : Form rest t) (hw : t.takeWhile isWord ≠ []) :
    (∀ c ∈ t, isWord c) ∨ (∃ gap, IsCall t (t.takeWhile isWord) gap) ∨ IsNumeral t := by
  obtain ⟨c, hhead, hc⟩ : ∃ c, t.head? = some c ∧ isWord c := by
    cases t with
    | nil => exact absurd rfl hw
    | cons c t => exact ⟨c, rfl, by_contra fun hc ↦ hw (List.takeWhile_cons_of_neg hc)⟩
  have hmem := List.mem_of_head? hhead
  -- the first character of any other form is none of a word
  have hother {d : Char} (hd : isWord d = false) (heq : some d = some c) : False := by
    rw [← Option.some.inj heq, hd] at hc
    cases hc
  cases h with
  | word hword => exact .inl hword
  | blanks hblank =>
    have hcb := hblank c hmem
    rw [isBlank_eq_false_of_isWord hc] at hcb
    cases hcb
  | symbols hsymbol =>
    have hcs := hsymbol c hmem
    simp [isSymbol, hc] at hcs
  | literal hquote _ =>
    rcases hquote with rfl | rfl
    · exact (hother (by decide) hhead).elim
    · exact (hother (by decide) hhead).elim
  | fraction hwhole hpart hdigits hmark =>
    have hsplit := List.forall_mem_append.1 hdigits
    have hnumber := IsDecimalNumber.fraction hwhole hsplit.1 hpart hsplit.2 hmark
    exact .inr (.inr (.decimal (by simpa using hnumber)))
  | @call name gap hne hname hgap =>
    have hcall : IsCall (name ++ gap ++ ['(']) name gap :=
      ⟨List.append_assoc .., hne, hname, hgap⟩
    exact .inr (.inl ⟨gap, hcall.span.1.symm ▸ hcall⟩)
  | comment _ _ => exact (hother (by decide) hhead).elim
  | directive _ _ _ _ => exact (hother (by decide) hhead).elim

/-- The text of a comment is two slashes and what follows them on the line. -/
theorem comment_of_lexCode_eq {code t : List Char} {before after : List (List Char)}
    (h : lexCode code = before ++ t :: after) (hslashes : ['/', '/'].isPrefixOf t) :
    ∃ body, t = commentText body ∧ '\n' ∉ body ∧ ∀ c ∈ after.flatten.head?, c = '\n' := by
  obtain ⟨c, cs, hcs, hlexeme⟩ := lexeme_of_lexCode_eq h
  obtain ⟨u, rfl⟩ : ∃ u, t = '/' :: '/' :: u :=
    (List.isPrefixOf_iff_prefix.1 hslashes).imp fun _ hu ↦ hu.symm
  rw [List.cons_append, List.cons_append] at hcs
  obtain ⟨rfl, rfl⟩ := List.cons.inj hcs
  rw [lexeme_slashes] at hlexeme
  obtain ⟨htext, hrest⟩ := Prod.mk.inj hlexeme
  refine ⟨_, htext.symm, fun hn ↦ ?_, fun c hc ↦ ?_⟩
  · simpa using List.mem_takeWhile_imp hn
  · rw [← hrest] at hc
    simpa using head_dropWhile c hc

theorem toList_leadingWord (cs : List Char) : (leadingWord cs).toList = cs.takeWhile isWord :=
  String.toList_ofList ..

theorem leadingWord_of_word {text : String} (h : ∀ c ∈ text.toList, isWord c) :
    leadingWord text.toList = text := by
  rw [leadingWord, List.takeWhile_eq_self_iff.2 h, String.ofList_toList]

section

variable {l : Language} {names : Declared} {rest : List Char} {text : String}

inductive IsKeyword (table : List String) (text : String) : Prop
  | alone : text ∈ table → IsKeyword table text
  | call {word : String} {gap : List Char} : word ∈ table → IsCall text.toList word.toList gap →
      IsKeyword table text

theorem Form.isKeyword {table : List String}
    (htable : ∀ w ∈ table, ∃ c ∈ w.toList.head?, isDecimal c = false)
    (h : Form rest text.toList) (hword : leadingWord text.toList ∈ table) :
    IsKeyword table text := by
  obtain ⟨c, hc, hdigit⟩ := htable _ hword
  rw [toList_leadingWord, Option.mem_def] at hc
  have hne : text.toList.takeWhile isWord ≠ [] := by
    intro hnil
    rw [hnil] at hc
    cases hc
  rcases h.of_leadingWord hne with hall | ⟨gap, hcall⟩ | hnumeral
  · rw [leadingWord_of_word hall] at hword
    exact .alone hword
  · rw [← toList_leadingWord] at hcall
    exact .call hword hcall
  · -- a number begins with a digit, which no keyword does
    obtain ⟨d, ds, heq, hd⟩ := hnumeral.head_isDecimal
    rw [heq, List.takeWhile_cons_of_pos (isWord_of_isDecimal hd)] at hc
    rw [← Option.some.inj hc, hd] at hdigit
    cases hdigit

structure IsPlainWord (l : Language) (text : String) : Prop where
  ne_empty : text ≠ ""
  word : ∀ c ∈ text.toList, isWord c
  control : text ∉ l.control
  type : text ∉ l.types
  numeral : ¬IsNumeral text.toList

theorem IsUndecided.isPlainWord (h : IsUndecided l text) (hform : Form rest text.toList)
    (hne : leadingWord text.toList ≠ "") :
    IsPlainWord l text ∧ leadingWord text.toList = text := by
  have hword : text.toList.takeWhile isWord ≠ [] := by
    intro hnil
    rw [leadingWord, hnil] at hne
    exact hne rfl
  rcases hform.of_leadingWord hword with hall | ⟨gap, hcall⟩ | hnumeral
  · have hleading := leadingWord_of_word hall
    have hcontrol := h.control
    have htype := h.type
    rw [hleading] at hne
    rw [hleading, Language.isControl, List.contains_iff_mem] at hcontrol
    rw [hleading, Language.isType, List.contains_iff_mem] at htype
    exact ⟨⟨hne, hall, hcontrol, htype, mt isNumber_iff.2 h.number⟩, hleading⟩
  · exact absurd (isWhole_cutCall_iff.2 ⟨_, gap, hcall⟩) h.call
  · exact absurd (isNumber_iff.2 hnumeral) h.number

theorem IsPlainWord.isUndecided (h : IsPlainWord l text) : IsUndecided l text := by
  have hleading := leadingWord_of_word h.word
  obtain ⟨c, cs, hcs⟩ := List.exists_cons_of_ne_nil (String.toList_eq_nil_iff.not.2 h.ne_empty)
  have hne {d : Char} (hd : isWord d = false) : d ∉ text.toList := by
    intro hmem
    rw [h.word d hmem] at hd
    cases hd
  have hfirst {d : Char} (hd : isWord d = false) : c ≠ d := by
    rintro rfl
    exact hne hd (hcs ▸ List.mem_cons_self ..)
  constructor
  case slashes =>
    intro hslashes
    obtain ⟨u, hu⟩ := List.isPrefixOf_iff_prefix.1 hslashes
    exact hne (by decide) (hu ▸ List.mem_cons_self .. : '/' ∈ text.toList)
  case control =>
    rw [hleading]
    exact mt List.contains_iff_mem.1 h.control
  case type =>
    rw [hleading]
    exact mt List.contains_iff_mem.1 h.type
  case literal =>
    rw [hcs, isWhole_of_none (if_neg (hfirst (by decide))), isCharLiteral_of_ne (hfirst (by decide))]
    decide
  case number => exact mt isNumber_iff.1 h.numeral
  case call =>
    intro hwhole
    obtain ⟨word, gap, hcall⟩ := isWhole_cutCall_iff.1 hwhole
    exact hne (by decide) (hcall.eq ▸ by simp : '(' ∈ text.toList)
  case directive =>
    rw [hcs, isWhole_of_none (cutInclude_of_ne (hfirst (by decide)) cs)]
    decide

/-- A plain word has the category that its declaration gives it. -/
theorem IsPlainWord.categoryOf_eq (h : IsPlainWord l text) (names : Declared) :
    categoryOf l names text = if names.isType text then .customType
      else if names.isMember text then .enumType
      else if l.isOperatorRun text then .operator else .identifier := by
  rw [h.isUndecided.categoryOf_eq, leadingWord_of_word h.word]

end

/-- What the category of a token says about its text, and which texts have the categories of
declared names; `rest` is the code behind the token. -/
structure Token.Shaped (names : Declared) (rest : List Char) (t : Token) : Prop where
  comment : t.category = .comment →
    ∃ body, t.text.toList = commentText body ∧ '\n' ∉ body ∧ ∀ c ∈ rest.head?, c = '\n'
  controlKeyword : t.category = .controlKeyword → IsKeyword Language.cpp.control t.text
  typeKeyword : t.category = .typeKeyword → IsKeyword Language.cpp.types t.text
  functionName : t.category = .functionName → ∃ (word : String) (gap : List Char),
    IsCall t.text.toList word.toList gap ∧
      word ∉ Language.cpp.control ∧ word ∉ Language.cpp.types
  operator : t.category = .operator → ∃ run : List String, run ≠ [] ∧
    t.text = String.join run ∧ ∀ op ∈ run, op ∈ Language.cpp.operators
  customType : t.category = .customType ↔ IsPlainWord .cpp t.text ∧ names.isType t.text
  enumType : t.category = .enumType ↔
    IsPlainWord .cpp t.text ∧ names.isMember t.text ∧ ¬names.isType t.text

/-- The keywords are words that begin with no digit. -/
theorem isDecimal_keywords : ∀ w ∈ Language.cpp.control ++ Language.cpp.types,
    ∃ c ∈ w.toList.head?, isDecimal c = false := by
  have hall : ∀ w ∈ Language.cpp.control ++ Language.cpp.types,
      w.toList.head?.any (!isDecimal ·) := by decide +kernel
  intro w hw
  obtain ⟨c, hc, hd⟩ := (Option.any_eq_true _ _).1 (hall w hw)
  exact ⟨c, hc, by simpa using hd⟩

theorem shaped_of_form {names : Declared} (htypes : ¬names.isType "")
    (hmembers : ¬names.isMember "") {rest : List Char} {text : String} (hne : text ≠ "")
    (hform : Form rest text.toList)
    (hcomment : ['/', '/'].isPrefixOf text.toList →
      ∃ body, text.toList = commentText body ∧ '\n' ∉ body ∧ ∀ c ∈ rest.head?, c = '\n') :
    Token.Shaped names rest ⟨categoryOf .cpp names text, text⟩ := by
  obtain ⟨hcontrol, htype⟩ := List.forall_mem_append.1 isDecimal_keywords
  have hrule := rule_categoryOf .cpp names text
  generalize hk : categoryOf .cpp names text = k at hrule ⊢
  constructor
  case comment =>
    rintro rfl
    cases hrule with
    | comment h => exact hcomment h
  case controlKeyword =>
    rintro rfl
    cases hrule with
    | controlKeyword h => exact hform.isKeyword hcontrol (List.contains_iff_mem.1 h)
  case typeKeyword =>
    rintro rfl
    cases hrule with
    | typeKeyword h => exact hform.isKeyword htype (List.contains_iff_mem.1 h)
  case functionName =>
    rintro rfl
    cases hrule with
    | functionName hcontrol htype h =>
      obtain ⟨word, gap, hcall⟩ := isWhole_cutCall_iff.1 h
      have hword : (leadingWord text.toList).toList = word :=
        (toList_leadingWord _).trans hcall.span.1
      exact ⟨leadingWord text.toList, gap, hword ▸ hcall, mt List.contains_iff_mem.2 hcontrol,
        mt List.contains_iff_mem.2 htype⟩
  case operator =>
    rintro rfl
    cases hrule with
    | operator h =>
      obtain ⟨run, htext, hrun⟩ := (Language.isOperatorRun_iff _ hne).1 h
      refine ⟨run, ?_, htext, fun op hop ↦ (hrun op hop).1⟩
      rintro rfl
      exact hne htext
  case customType =>
    constructor
    · rintro rfl
      cases hrule with
      | customType hundecided h =>
        obtain ⟨hplain, hword⟩ := hundecided.isPlainWord hform fun hempty ↦ htypes (hempty ▸ h)
        exact ⟨hplain, hword ▸ h⟩
    · rintro ⟨hplain, htype⟩
      rw [← hk, hplain.categoryOf_eq, if_pos htype]
  case enumType =>
    constructor
    · rintro rfl
      cases hrule with
      | enumType hundecided htype h =>
        obtain ⟨hplain, hword⟩ := hundecided.isPlainWord hform fun hempty ↦ hmembers (hempty ▸ h)
        exact ⟨hplain, hword ▸ h, hword ▸ htype⟩
    · rintro ⟨hplain, hmember, htype⟩
      rw [← hk, hplain.categoryOf_eq, if_neg htype, if_pos hmember]

/-- No snippet declares the empty name. -/
theorem not_isType_empty (code : String) : ¬(Declared.ofCode code .cpp).isType "" := by
  rw [Declared.isType, Declared.ofCode, List.contains_iff_mem, List.mem_append,
    mem_declaredTypes_iff_typeDeclaration]
  rintro (h | ⟨before, keyword, gap, after, h⟩)
  · exact absurd h (by decide)
  · exact h.whole.ne_nil rfl

theorem not_isMember_empty (code : String) : ¬(Declared.ofCode code .cpp).isMember "" := by
  rw [Declared.isMember, Declared.ofCode, List.contains_iff_mem]
  intro h
  obtain ⟨before, body, rest, -, hname⟩ := exists_begins_of_mem_enumMembers h
  obtain ⟨left, piece, right, rest, -, -, hword⟩ := mem_membersOf_iff.1 hname
  exact hword.ne_nil rfl

/-- The category of a token tells the shape of its text. A declared name has the category of its
declaration wherever it stands as a word of its own, and nothing else has it. -/
theorem classify_shaped {code : String} {before after : List Token} {t : Token}
    (h : classify .cpp code = before ++ t :: after) :
    code.toList = codeText before ++ (t.text.toList ++ codeText after) ∧
      t.Shaped (Declared.ofCode code .cpp) (codeText after) := by
  constructor
  · rw [← codeText_classify .cpp code, h]
    simp [codeText]
  · rw [classify_eq, List.map_eq_append_iff] at h
    obtain ⟨before, tail, hcode, rfl, htail⟩ := h
    obtain ⟨u, after, rfl, rfl, rfl⟩ := List.map_eq_cons_iff.1 htail
    have hu : String.ofList u ≠ "" := by
      have hmem : u ∈ lexCode code.toList :=
        hcode ▸ List.mem_append_right before (List.mem_cons_self ..)
      simpa using lexCode_ne_nil hmem
    rw [codeText_map_tokenOf]
    refine shaped_of_form (not_isType_empty code) (not_isMember_empty code) hu ?_ ?_
    · rw [String.toList_ofList]
      exact form_of_lexCode_eq hcode
    · rw [String.toList_ofList]
      exact comment_of_lexCode_eq hcode

/-- The names are used before the snippet declares them, and one stands in a comment too. -/
theorem classify_shaped_of_use :
    let code := "P f (x); // P\nstruct P;"
    (classify .cpp code = [] ++ ⟨.customType, "P"⟩ :: (classify .cpp code).drop 1 ∧
        IsPlainWord .cpp "P" ∧ (Declared.ofCode code .cpp).isType "P") ∧
      (classify .cpp code =
          (classify .cpp code).take 6 ++ ⟨.comment, "// P"⟩ :: (classify .cpp code).drop 7 ∧
        ∃ body, "// P".toList = commentText body ∧ '\n' ∉ body ∧
          ∀ c ∈ (codeText ((classify .cpp code).drop 7)).head?, c = '\n') := by
  intro code
  have hname : classify .cpp code = [] ++ ⟨.customType, "P"⟩ :: (classify .cpp code).drop 1 := by
    decide +kernel
  have hcomment : classify .cpp code =
      (classify .cpp code).take 6 ++ ⟨.comment, "// P"⟩ :: (classify .cpp code).drop 7 := by
    decide +kernel
  exact ⟨⟨hname, (classify_shaped hname).2.customType.1 rfl⟩,
    hcomment, (classify_shaped hcomment).2.comment rfl⟩

end Folio.Code
