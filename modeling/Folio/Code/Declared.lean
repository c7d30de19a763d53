import Folio.Code.Language
import Folio.Text.Blank
import Folio.Text.Split
import Folio.Text.Word

namespace Folio.Code

open Text

def takeWord (cs : List Char) : Option (List Char × List Char) :=
  if cs.takeWhile isWord = [] then none else some (cs.takeWhile isWord, cs.dropWhile isWord)

def takeBlanks : List Char → Option (List Char)
  | [] => none
  | c :: cs => if isBlank c then some (dropBlank cs) else none

def afterKeyword (keyword : String) (cs : List Char) : Option (List Char) :=
  if keyword.toList.isPrefixOf cs then takeBlanks (cs.drop keyword.length) else none

def declaringWords : List String :=
  ["class", "struct", "typename", "enum"]

/-- A declaration of a type: its name, what stands behind the declaring word, and what stands
behind the name. -/
structure Declaration where
  name : String
  afterKeyword : List Char
  afterName : List Char
deriving DecidableEq, Repr

/-- The declaration that begins here. Its name may be a declaring word too. -/
def declaration? (cs : List Char) : Option Declaration :=
  declaringWords.findSome? fun keyword ↦
    ((afterKeyword keyword cs).bind takeWord).map fun (name, rest) ↦
      ⟨String.ofList name, cs.drop keyword.length, rest⟩

/-- The first declaration of a text; `inWord` tells whether a word runs up to it. -/
def firstDeclaration (inWord : Bool) : List Char → Option Declaration
  | [] => none
  | c :: cs =>
    match if inWord then none else declaration? (c :: cs) with
    | some d => some d
    | none => firstDeclaration (isWord c) cs

def bracedBody (cs : List Char) : Option (List Char × List Char) := do
  let (_, rest) ← takeWord cs
  match dropBlank rest with
  | '\x7b' :: rest => splitFirst '\x7d' rest
  | _ => none

def enumBody (cs : List Char) : Option (List Char × List Char) := do
  let rest ← afterKeyword "enum" cs
  (bracedBody rest).or ((afterKeyword "class" rest).bind bracedBody)

def membersOf (body : List Char) : List String :=
  (splitOn ',' body).filterMap fun piece ↦
    (takeWord (dropBlank piece)).map fun (word, _) ↦ String.ofList word

theorem dropBlank_length_le (cs : List Char) : (dropBlank cs).length ≤ cs.length :=
  (List.dropWhile_sublist isBlank).length_le

theorem takeWord_length {cs word rest : List Char} (h : takeWord cs = some (word, rest)) :
    rest.length ≤ cs.length := by
  simp only [takeWord, Option.ite_none_left_eq_some, Option.some.injEq, Prod.mk.injEq] at h
  exact h.2.2 ▸ (List.dropWhile_sublist isWord).length_le

theorem splitFirst_length {sep : Char} {cs before after : List Char}
    (h : splitFirst sep cs = some (before, after)) : after.length < cs.length := by
  induction cs generalizing before with
  | nil => simp [splitFirst] at h
  | cons c cs ih =>
    simp only [splitFirst] at h
    split at h
    · cases h
      exact Nat.lt_succ_self _
    · obtain ⟨p, hp, h⟩ := Option.map_eq_some_iff.1 h
      obtain ⟨-, rfl⟩ := Prod.mk.inj h
      exact Nat.lt_succ_of_lt (ih hp)

theorem bracedBody_length {cs body rest : List Char} (h : bracedBody cs = some (body, rest)) :
    rest.length < cs.length := by
  obtain ⟨⟨word, r⟩, hw, h⟩ := Option.bind_eq_some_iff.1 h
  simp only at h
  split at h
  · next r' hr =>
    have h₁ := splitFirst_length h
    have h₂ := dropBlank_length_le r
    have h₃ := takeWord_length hw
    rw [hr, List.length_cons] at h₂
    omega
  · simp at h

theorem afterKeyword_length {keyword : String} {cs rest : List Char}
    (h : afterKeyword keyword cs = some rest) : rest.length < cs.length := by
  simp only [afterKeyword, Option.ite_none_right_eq_some] at h
  have hd : (cs.drop keyword.length).length ≤ cs.length := by simp
  generalize cs.drop keyword.length = ds at h hd
  obtain ⟨-, h⟩ := h
  cases ds with
  | nil => simp [takeBlanks] at h
  | cons d ds =>
    simp only [takeBlanks, Option.ite_none_right_eq_some, Option.some.injEq] at h
    have := dropBlank_length_le ds
    rw [h.2] at this
    simp only [List.length_cons] at hd
    omega

theorem declaration?_length {cs : List Char} {d : Declaration} (h : declaration? cs = some d) :
    d.afterKeyword.length < cs.length ∧ d.afterName.length < cs.length := by
  obtain ⟨keyword, hk, h⟩ := List.exists_of_findSome?_eq_some h
  obtain ⟨⟨name, after⟩, hname, rfl⟩ := Option.map_eq_some_iff.1 h
  obtain ⟨rest, hrest, hname⟩ := Option.bind_eq_some_iff.1 hname
  have hlength := afterKeyword_length hrest
  have hpos : ∀ keyword ∈ declaringWords, 0 < keyword.length := by decide
  refine ⟨?_, Nat.lt_of_le_of_lt (takeWord_length hname) hlength⟩
  have := hpos keyword hk
  rw [List.length_drop]
  omega

theorem firstDeclaration_length {inWord : Bool} {cs : List Char} {d : Declaration}
    (h : firstDeclaration inWord cs = some d) :
    d.afterKeyword.length < cs.length ∧ d.afterName.length < cs.length := by
  fun_induction firstDeclaration inWord cs with
  | case1 => cases h
  | case2 inWord c cs d' hd =>
    obtain rfl := Option.some.inj h
    obtain ⟨-, hd⟩ := Option.ite_none_left_eq_some.1 hd
    exact declaration?_length hd
  | case3 inWord c cs _ ih =>
    have := ih h
    rw [List.length_cons]
    omega

/-- The types declared in a text. The search goes on behind each name, or behind the declaring word
where the name is one itself: what it declares comes after it. -/
def declaredTypes (inWord : Bool) (cs : List Char) : List String :=
  match _h : firstDeclaration inWord cs with
  | some d =>
    if declaringWords.contains d.name then declaredTypes true d.afterKeyword
    else d.name :: declaredTypes true d.afterName
  | none => []
termination_by cs.length
decreasing_by
  · exact (firstDeclaration_length _h).1
  · exact (firstDeclaration_length _h).2

theorem enumBody_length {cs body rest : List Char} (h : enumBody cs = some (body, rest)) :
    rest.length < cs.length := by
  obtain ⟨r, hr, h⟩ := Option.bind_eq_some_iff.1 h
  have hr := afterKeyword_length hr
  rcases Option.or_eq_some_iff.1 h with h | ⟨-, h⟩
  · exact Nat.lt_trans (bracedBody_length h) hr
  · obtain ⟨r', hr', h⟩ := Option.bind_eq_some_iff.1 h
    exact Nat.lt_trans (bracedBody_length h) (Nat.lt_trans (afterKeyword_length hr') hr)

/-- The members of the enumerations of a text. The search goes on after each body, so one that
begins inside another body is passed over. -/
def enumMembers (inWord : Bool) : List Char → List String
  | [] => []
  | c :: cs =>
    match _h : if inWord then none else enumBody (c :: cs) with
    | some (body, rest) => membersOf body ++ enumMembers false rest
    | none => enumMembers (isWord c) cs
termination_by cs => cs.length
decreasing_by
  · split at _h
    · simp at _h
    · exact enumBody_length _h
  · exact Nat.lt_succ_self _

structure Declared where
  types : List String
  members : List String

namespace Declared

def ofCode (code : String) (l : Language) : Declared where
  types := l.builtin ++ declaredTypes false code.toList
  members := enumMembers false code.toList

def isType (d : Declared) (word : String) : Bool :=
  d.types.contains word

def isMember (d : Declared) (word : String) : Bool :=
  d.members.contains word

end Declared

end Folio.Code
