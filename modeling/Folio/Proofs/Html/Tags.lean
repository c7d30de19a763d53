import Folio.Html.Escape
import Folio.Text.Blank

namespace Folio.Html

/-- A place in markup: what was read of the tag that begins before it, if one does, and the names
of the elements that are open, innermost first. -/
structure Place where
  tag : Option (List Char)
  opened : List (List Char)
deriving DecidableEq

/-- The open elements after a tag. An end tag closes the innermost one, whose name it must have; an
image stands alone. -/
def afterTag (opened : List (List Char)) (tag : List Char) : Option (List (List Char)) :=
  match tag with
  | '/' :: name =>
    match opened with
    | [] => none
    | innermost :: outer => if innermost = name then some outer else none
  | _ =>
    let name := tag.takeWhile (· ≠ ' ')
    if name = [] then none
    else if name = ['i', 'm', 'g'] then some opened
    else some (name :: opened)

/-- Reads one character. Neither text nor a tag may hold an angle bracket of its own. -/
def Place.step (p : Place) (c : Char) : Option Place :=
  match p.tag with
  | none =>
    if c = '<' then some ⟨some [], p.opened⟩
    else if c = '>' then none
    else some p
  | some tag =>
    if c = '<' then none
    else if c = '>' then (afterTag p.opened tag).map fun opened ↦ ⟨none, opened⟩
    else some ⟨some (tag ++ [c]), p.opened⟩

def Place.read (p : Place) (cs : List Char) : Option Place :=
  cs.foldlM Place.step p

/-- Text and complete tags, every element closed in its turn. -/
def WellFormed (s : String) : Prop :=
  Place.read ⟨none, []⟩ s.toList = some ⟨none, []⟩

instance (s : String) : Decidable (WellFormed s) :=
  inferInstanceAs (Decidable (_ = _))

def Nests (s : String) : Prop :=
  ∀ opened, Place.read ⟨none, opened⟩ s.toList = some ⟨none, opened⟩

def Opens (name : List Char) (s : String) : Prop :=
  ∀ opened, Place.read ⟨none, opened⟩ s.toList = some ⟨none, name :: opened⟩

def Closes (name : List Char) (s : String) : Prop :=
  ∀ opened, Place.read ⟨none, name :: opened⟩ s.toList = some ⟨none, opened⟩

def AngleFree (cs : List Char) : Prop :=
  ∀ c ∈ cs, c ≠ '<' ∧ c ≠ '>'

instance (cs : List Char) : Decidable (AngleFree cs) :=
  List.decidableBAll (fun c ↦ c ≠ '<' ∧ c ≠ '>') cs

theorem AngleFree.append {cs ds : List Char} (h : AngleFree cs) (h' : AngleFree ds) :
    AngleFree (cs ++ ds) := by
  intro c hc
  rcases List.mem_append.1 hc with hc | hc
  · exact h c hc
  · exact h' c hc

namespace Place

theorem read_nil (p : Place) : p.read [] = some p := rfl

theorem read_cons (p : Place) (c : Char) (cs : List Char) :
    p.read (c :: cs) = (p.step c).bind fun q ↦ q.read cs :=
  List.foldlM_cons ..

theorem read_append (p : Place) (cs ds : List Char) :
    p.read (cs ++ ds) = (p.read cs).bind fun q ↦ q.read ds :=
  List.foldlM_append

theorem read_toList_append (p : Place) (s t : String) :
    p.read (s ++ t).toList = (p.read s.toList).bind fun q ↦ q.read t.toList := by
  rw [String.toList_append, read_append]

theorem step_text {c : Char} (h : c ≠ '<' ∧ c ≠ '>') (opened : List (List Char)) :
    step ⟨none, opened⟩ c = some ⟨none, opened⟩ := by
  simp [step, h]

theorem step_inside {c : Char} (h : c ≠ '<' ∧ c ≠ '>') (tag : List Char)
    (opened : List (List Char)) :
    step ⟨some tag, opened⟩ c = some ⟨some (tag ++ [c]), opened⟩ := by
  simp [step, h]

theorem read_text {cs : List Char} (h : AngleFree cs) (opened : List (List Char)) :
    read ⟨none, opened⟩ cs = some ⟨none, opened⟩ := by
  induction cs with
  | nil => rfl
  | cons c cs ih =>
    rw [read_cons, step_text (h c (List.mem_cons_self ..))]
    exact ih fun d hd ↦ h d (List.mem_cons_of_mem c hd)

theorem read_inside {cs : List Char} (h : AngleFree cs) (tag : List Char)
    (opened : List (List Char)) :
    read ⟨some tag, opened⟩ cs = some ⟨some (tag ++ cs), opened⟩ := by
  induction cs generalizing tag with
  | nil => simp [read_nil]
  | cons c cs ih =>
    have hcs := ih (fun d hd ↦ h d (List.mem_cons_of_mem c hd)) (tag ++ [c])
    rw [List.append_assoc, List.singleton_append] at hcs
    rw [read_cons, step_inside (h c (List.mem_cons_self ..)), Option.bind_some, hcs]

theorem read_tag {tag : List Char} (h : AngleFree tag) (opened : List (List Char)) :
    read ⟨none, opened⟩ ('<' :: (tag ++ ['>'])) =
      (afterTag opened tag).map fun opened ↦ ⟨none, opened⟩ := by
  have hopen : step ⟨none, opened⟩ '<' = some ⟨some [], opened⟩ := rfl
  have hclose : step ⟨some tag, opened⟩ '>' =
      (afterTag opened tag).map fun opened ↦ ⟨none, opened⟩ := rfl
  rw [read_cons, hopen, Option.bind_some, read_append, read_inside h, Option.bind_some,
    List.nil_append, read_cons, hclose]
  cases afterTag opened tag <;> rfl

/-- Where reading stands between tags after some text, it stood there before. -/
theorem eq_of_read_text {cs : List Char} (h : AngleFree cs) {p : Place}
    {opened : List (List Char)} (hp : p.read cs = some ⟨none, opened⟩) : p = ⟨none, opened⟩ := by
  obtain ⟨tag, opened'⟩ := p
  cases tag with
  | none =>
    rw [read_text h] at hp
    exact Option.some.inj hp
  | some tag =>
    rw [read_inside h] at hp
    cases Option.some.inj hp

end Place

theorem Nests.wellFormed {s : String} (h : Nests s) : WellFormed s :=
  h []

example : WellFormed "a<p class=\"x\"><img src=\"y\"><b>c</b></p>" := by decide

example : ¬WellFormed "<i><b>a</i></b>" := by decide

theorem Nests.text {s : String} (h : AngleFree s.toList) : Nests s :=
  Place.read_text h

theorem Nests.empty : Nests "" :=
  fun _ ↦ rfl

theorem Nests.append {s t : String} (hs : Nests s) (ht : Nests t) : Nests (s ++ t) := by
  intro opened
  rw [Place.read_toList_append, hs opened, Option.bind_some, ht opened]

theorem Nests.join {l : List String} (h : ∀ s ∈ l, Nests s) : Nests (String.join l) := by
  induction l with
  | nil => exact .empty
  | cons s l ih =>
    rw [String.join_cons]
    exact (h s (List.mem_cons_self ..)).append (ih fun t ht ↦ h t (List.mem_cons_of_mem s ht))

theorem Nests.element {name : List Char} {first s last : String} (ho : Opens name first)
    (hs : Nests s) (hc : Closes name last) : Nests (first ++ s ++ last) := by
  intro opened
  rw [Place.read_toList_append, Place.read_toList_append, ho opened, Option.bind_some, hs,
    Option.bind_some, hc opened]

def IsTag (s : String) (tag : List Char) : Prop :=
  s.toList = '<' :: (tag ++ ['>']) ∧ AngleFree tag

theorem IsTag.attribute {first value : String} (tag : String)
    (hfirst : first.toList = '<' :: tag.toList) (ht : AngleFree tag.toList)
    (hv : AngleFree value.toList) :
    IsTag (first ++ value ++ "\">") (tag.toList ++ (value.toList ++ ['\"'])) :=
  ⟨by simp [hfirst], ht.append (hv.append (by decide))⟩

theorem Opens.of_tag {name tag : List Char} {s : String} (h : IsTag s tag)
    (hname : ∀ opened, afterTag opened tag = some (name :: opened)) : Opens name s := by
  intro opened
  rw [h.1, Place.read_tag h.2, hname]
  rfl

theorem Nests.of_tag {tag : List Char} {s : String} (h : IsTag s tag)
    (hname : ∀ opened, afterTag opened tag = some opened) : Nests s := by
  intro opened
  rw [h.1, Place.read_tag h.2, hname]
  rfl

theorem angleFree_of_isBlank {cs : List Char} (h : ∀ c ∈ cs, Text.isBlank c) : AngleFree cs := by
  intro c hc
  have hblank := h c hc
  constructor <;>
    · rintro rfl
      revert hblank
      decide

/-- Blanks around markup are text, so what stands between them nests by itself. -/
theorem Nests.of_blanks {s t : String} {before after : List Char} (h : Nests s)
    (hs : s.toList = before ++ (t.toList ++ after)) (hb : ∀ c ∈ before, Text.isBlank c)
    (ha : ∀ c ∈ after, Text.isBlank c) : Nests t := by
  intro opened
  have hread := h opened
  rw [hs, Place.read_append, Place.read_text (angleFree_of_isBlank hb), Option.bind_some,
    Place.read_append] at hread
  obtain ⟨p, hp, hafter⟩ := Option.bind_eq_some_iff.1 hread
  rw [hp, Place.eq_of_read_text (angleFree_of_isBlank ha) hafter]

theorem Nests.trim {s : String} (h : Nests s) : Nests (Text.trim s) := by
  obtain ⟨before, hs, hb⟩ := Text.exists_blanks_dropBlank s.toList
  obtain ⟨after, ht, ha⟩ := Text.exists_blanks_dropBlankEnd (Text.dropBlank s.toList)
  refine h.of_blanks ?_ hb ha
  rw [Text.toList_trim, ← ht, ← hs]

/-- The characters of a text that is written character by character. -/
theorem mem_join_map_iff {write : Char → String} {s : String} {d : Char} :
    d ∈ (String.join (s.toList.map write)).toList ↔ ∃ c ∈ s.toList, d ∈ (write c).toList := by
  rw [String.toList_join, List.flatMap_map, List.mem_flatMap]

theorem angleFree_join_map {write : Char → String} (h : ∀ c, AngleFree (write c).toList)
    (s : String) : AngleFree (String.join (s.toList.map write)).toList := by
  intro d hd
  obtain ⟨c, -, hc⟩ := mem_join_map_iff.1 hd
  exact h c d hc

theorem angleFree_escapeChar (c : Char) : AngleFree (escapeChar c).toList := by
  unfold escapeChar
  split
  · decide
  · decide
  · decide
  · next hlt hgt =>
    intro d hd
    obtain rfl : d = c := by simpa using hd
    exact ⟨hlt, hgt⟩

theorem angleFree_escapeAttributeChar (c : Char) : AngleFree (escapeAttributeChar c).toList := by
  unfold escapeAttributeChar
  split
  · decide
  · exact angleFree_escapeChar _

theorem angleFree_escape (s : String) : AngleFree (escape s).toList :=
  angleFree_join_map angleFree_escapeChar s

theorem angleFree_escapeAttribute (s : String) : AngleFree (escapeAttribute s).toList :=
  angleFree_join_map angleFree_escapeAttributeChar s

end Folio.Html
