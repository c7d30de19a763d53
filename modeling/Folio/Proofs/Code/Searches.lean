import Folio.Proofs.Code.Breaks
import Folio.Proofs.Text.Trimmed

namespace Folio.Code

open Text

structure IsGap (cs : List Char) : Prop where
  ne_nil : cs ≠ []
  blank : ∀ c ∈ cs, isBlank c

theorem IsGap.head_not_word {gap : List Char} (h : IsGap gap) (rest : List Char) :
    ∀ c ∈ (gap ++ rest).head?, isWord c = false := by
  obtain ⟨c, gap, rfl⟩ := List.exists_cons_of_ne_nil h.ne_nil
  exact forall_head_cons (isWord_eq_false_of_isBlank (h.blank c (List.mem_cons_self ..))) _

structure IsWholeWord (word rest : List Char) : Prop where
  ne_nil : word ≠ []
  word : ∀ c ∈ word, isWord c
  stop : ∀ c ∈ rest.head?, isWord c = false

theorem IsWholeWord.head_not_blank {word rest : List Char} (h : IsWholeWord word rest) :
    ∀ c ∈ (word ++ rest).head?, isBlank c = false := by
  obtain ⟨c, cs, rfl⟩ := List.exists_cons_of_ne_nil h.ne_nil
  exact forall_head_cons (isBlank_eq_false_of_isWord (h.word c (List.mem_cons_self ..))) _

theorem takeWord_eq_some_iff {cs word rest : List Char} :
    takeWord cs = some (word, rest) ↔ cs = word ++ rest ∧ IsWholeWord word rest := by
  constructor
  · intro h
    obtain ⟨hne, h⟩ := Option.ite_none_left_eq_some.1 h
    obtain ⟨rfl, rfl⟩ := Prod.mk.inj (Option.some.inj h)
    exact ⟨List.takeWhile_append_dropWhile.symm, hne, fun c hc ↦ List.mem_takeWhile_imp hc,
      head_dropWhile⟩
  · rintro ⟨rfl, h⟩
    obtain ⟨htake, hdrop⟩ := span_run h.word h.stop
    rw [takeWord, htake, hdrop, if_neg h.ne_nil]

theorem takeBlanks_eq_some_iff {cs rest : List Char} :
    takeBlanks cs = some rest ↔
      ∃ gap, cs = gap ++ rest ∧ IsGap gap ∧ ∀ c ∈ rest.head?, isBlank c = false := by
  constructor
  · intro h
    cases cs with
    | nil => cases h
    | cons c cs =>
      obtain ⟨hc, h⟩ := Option.ite_none_right_eq_some.1 h
      obtain rfl := Option.some.inj h
      refine ⟨c :: cs.takeWhile isBlank, ?_, ⟨List.cons_ne_nil _ _, ?_⟩, head_dropWhile⟩
      · rw [List.cons_append, dropBlank, List.takeWhile_append_dropWhile]
      · exact List.forall_mem_cons.2 ⟨hc, fun d hd ↦ List.mem_takeWhile_imp hd⟩
  · rintro ⟨gap, rfl, hgap, hrest⟩
    obtain ⟨c, gap, rfl⟩ := List.exists_cons_of_ne_nil hgap.ne_nil
    obtain ⟨hc, hblank⟩ := List.forall_mem_cons.1 hgap.blank
    rw [List.cons_append, takeBlanks, if_pos hc, dropBlank, (span_run hblank hrest).2]

theorem afterKeyword_eq_some_iff {keyword : String} {cs rest : List Char} :
    afterKeyword keyword cs = some rest ↔
      ∃ gap, cs = keyword.toList ++ (gap ++ rest) ∧ IsGap gap ∧
        ∀ c ∈ rest.head?, isBlank c = false := by
  have hdrop (ds : List Char) : (keyword.toList ++ ds).drop keyword.length = ds := by
    rw [← String.length_toList, List.drop_left]
  constructor
  · intro h
    obtain ⟨hk, h⟩ := Option.ite_none_right_eq_some.1 h
    obtain ⟨ds, rfl⟩ := List.isPrefixOf_iff_prefix.1 hk
    rw [hdrop] at h
    obtain ⟨gap, rfl, hgap, hrest⟩ := takeBlanks_eq_some_iff.1 h
    exact ⟨gap, rfl, hgap, hrest⟩
  · rintro ⟨gap, rfl, hgap, hrest⟩
    rw [afterKeyword, if_pos (List.isPrefixOf_iff_prefix.2 (List.prefix_append ..)), hdrop]
    exact takeBlanks_eq_some_iff.2 ⟨gap, rfl, hgap, hrest⟩

theorem afterKeyword_append (keyword : String) {gap rest : List Char} (hgap : IsGap gap)
    (hrest : ∀ c ∈ rest.head?, isBlank c = false) :
    afterKeyword keyword (keyword.toList ++ (gap ++ rest)) = some rest :=
  afterKeyword_eq_some_iff.2 ⟨gap, rfl, hgap, hrest⟩

/-- A keyword that is a word is the word that the text begins with. -/
theorem span_of_afterKeyword {keyword : String} {cs rest : List Char}
    (hk : ∀ c ∈ keyword.toList, isWord c) (h : afterKeyword keyword cs = some rest) :
    cs.takeWhile isWord = keyword.toList ∧ dropBlank (cs.dropWhile isWord) = rest := by
  obtain ⟨gap, rfl, hgap, hrest⟩ := afterKeyword_eq_some_iff.1 h
  obtain ⟨htake, hdrop⟩ := span_run hk (hgap.head_not_word rest)
  rw [htake, hdrop]
  exact ⟨rfl, dropBlank_append hgap.blank hrest⟩

/-- Whether a word runs up to the end of a text; `inWord` tells whether one runs up to its
beginning. -/
def inWordAfter (inWord : Bool) : List Char → Bool
  | [] => inWord
  | c :: cs => inWordAfter (isWord c) cs

theorem inWordAfter_append (inWord : Bool) (cs ds : List Char) :
    inWordAfter inWord (cs ++ ds) = inWordAfter (inWordAfter inWord cs) ds := by
  induction cs generalizing inWord with
  | nil => rfl
  | cons c cs ih => exact ih (isWord c)

theorem inWordAfter_false_iff {cs : List Char} :
    inWordAfter false cs = false ↔ ∀ c ∈ cs.getLast?, isWord c = false := by
  rcases List.eq_nil_or_concat cs with rfl | ⟨first, c, rfl⟩
  · simp [inWordAfter]
  · simp [inWordAfter_append, inWordAfter]

theorem inWordAfter_word {word : List Char} (h : ∀ c ∈ word, isWord c) :
    inWordAfter true word = true := by
  induction word with
  | nil => rfl
  | cons c word ih =>
    obtain ⟨hc, hword⟩ := List.forall_mem_cons.1 h
    rw [inWordAfter, hc, ih hword]

theorem inWordAfter_gap {gap : List Char} (h : IsGap gap) (inWord : Bool) :
    inWordAfter inWord gap = false := by
  obtain ⟨c, gap, rfl⟩ := List.exists_cons_of_ne_nil h.ne_nil
  obtain ⟨hc, hgap⟩ := List.forall_mem_cons.1 h.blank
  have hblank : ∀ ds : List Char, (∀ d ∈ ds, isBlank d) → inWordAfter false ds = false := by
    intro ds hds
    induction ds with
    | nil => rfl
    | cons d ds ih =>
      obtain ⟨hd, hds⟩ := List.forall_mem_cons.1 hds
      rw [inWordAfter, isWord_eq_false_of_isBlank hd, ih hds]
  rw [inWordAfter, isWord_eq_false_of_isBlank hc, hblank gap hgap]

section

variable {α : Type} (f : List Char → Option α)

/-- Behind `before`, where no word goes on, `f` finds `a`. -/
def Begins (inWord : Bool) (cs before : List Char) (a : α) : Prop :=
  ∃ after, cs = before ++ after ∧ inWordAfter inWord before = false ∧ f after = some a

/-- Within the text, before `rest`, `f` finds nothing where a word begins. -/
def Clear (inWord : Bool) : List Char → List Char → Prop
  | [], _ => True
  | c :: cs, rest =>
    (inWord = false → f (c :: (cs ++ rest)) = none) ∧ Clear (isWord c) cs rest

variable {f} {inWord : Bool} {cs rest : List Char}

theorem begins_cons {c : Char} {before : List Char} {a : α} :
    Begins f inWord (c :: cs) before a ↔
      before = [] ∧ inWord = false ∧ f (c :: cs) = some a ∨
        ∃ tail, before = c :: tail ∧ Begins f (isWord c) cs tail a := by
  constructor
  · rintro ⟨after, hcs, hstart, ha⟩
    cases before with
    | nil =>
      obtain rfl : c :: cs = after := hcs
      exact .inl ⟨rfl, hstart, ha⟩
    | cons d before =>
      obtain ⟨rfl, rfl⟩ := List.cons.inj hcs
      exact .inr ⟨before, rfl, after, rfl, hstart, ha⟩
  · rintro (⟨rfl, hstart, ha⟩ | ⟨tail, rfl, after, rfl, hstart, ha⟩)
    · exact ⟨c :: cs, rfl, hstart, ha⟩
    · exact ⟨after, rfl, hstart, ha⟩

theorem Begins.append {before : List Char} {a : α}
    (h : Begins f (inWordAfter inWord cs) rest before a) :
    Begins f inWord (cs ++ rest) (cs ++ before) a := by
  obtain ⟨after, rfl, hstart, ha⟩ := h
  exact ⟨after, (List.append_assoc ..).symm, by rwa [inWordAfter_append], ha⟩

namespace Clear

theorem append {ds : List Char} (h : Clear f inWord cs (ds ++ rest))
    (h' : Clear f (inWordAfter inWord cs) ds rest) : Clear f inWord (cs ++ ds) rest := by
  induction cs generalizing inWord with
  | nil => exact h'
  | cons c cs ih =>
    obtain ⟨hc, hcs⟩ := h
    rw [List.cons_append]
    refine ⟨fun hstart ↦ ?_, ih hcs h'⟩
    rw [List.append_assoc]
    exact hc hstart

/-- What begins in the text begins behind the stretch in which nothing does. -/
theorem begins_iff (h : Clear f inWord cs rest) {before : List Char} {a : α} :
    Begins f inWord (cs ++ rest) before a ↔
      ∃ tail, before = cs ++ tail ∧ Begins f (inWordAfter inWord cs) rest tail a := by
  induction cs generalizing inWord before with
  | nil => simp [inWordAfter]
  | cons c cs ih =>
    obtain ⟨hc, hcs⟩ := h
    constructor
    · intro h
      rcases begins_cons.1 h with ⟨-, hstart, ha⟩ | ⟨before, rfl, hbegins⟩
      · cases (hc hstart).symm.trans ha
      · obtain ⟨tail, rfl, htail⟩ := (ih hcs).1 hbegins
        exact ⟨tail, rfl, htail⟩
    · rintro ⟨tail, rfl, htail⟩
      exact htail.append

theorem of_word (h : ∀ c ∈ cs, isWord c) : Clear f true cs rest := by
  induction cs with
  | nil => trivial
  | cons c cs ih =>
    obtain ⟨hc, hcs⟩ := List.forall_mem_cons.1 h
    refine ⟨nofun, ?_⟩
    rw [hc]
    exact ih hcs

/-- Where nothing begins with a word, nothing begins within it. -/
theorem of_word_begin (h : ∀ c ∈ cs, isWord c) (hf : f (cs ++ rest) = none) :
    Clear f inWord cs rest := by
  cases cs with
  | nil => trivial
  | cons c cs =>
    obtain ⟨hc, hcs⟩ := List.forall_mem_cons.1 h
    refine ⟨fun _ ↦ hf, ?_⟩
    rw [hc]
    exact of_word hcs

theorem of_blanks (hf : ∀ c cs, isBlank c → f (c :: cs) = none) (h : ∀ c ∈ cs, isBlank c) :
    Clear f inWord cs rest := by
  induction cs generalizing inWord with
  | nil => trivial
  | cons c cs ih =>
    obtain ⟨hc, hcs⟩ := List.forall_mem_cons.1 h
    exact ⟨fun _ ↦ hf c _ hc, ih hcs⟩

end Clear

end

end Folio.Code
