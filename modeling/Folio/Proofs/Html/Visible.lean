import Folio.Proofs.Html.Tags

namespace Folio.Html

/-- The characters outside tags; `inside` tells whether a tag was begun before. -/
def outsideTags (inside : Bool) : List Char → List Char
  | [] => []
  | c :: cs =>
    if inside then outsideTags (c ≠ '>') cs
    else if c = '<' then outsideTags true cs
    else c :: outsideTags false cs

def decode : List Char → List Char
  | '&' :: 'l' :: 't' :: ';' :: cs => '<' :: decode cs
  | '&' :: 'g' :: 't' :: ';' :: cs => '>' :: decode cs
  | '&' :: 'a' :: 'm' :: 'p' :: ';' :: cs => '&' :: decode cs
  | c :: cs => c :: decode cs
  | [] => []

def visible (s : String) : List Char :=
  decode (outsideTags false s.toList)

theorem outsideTags_text {cs : List Char} (h : AngleFree cs) (rest : List Char) :
    outsideTags false (cs ++ rest) = cs ++ outsideTags false rest := by
  induction cs with
  | nil => rfl
  | cons c cs ih =>
    have hc : c ≠ '<' := (h c (List.mem_cons_self ..)).1
    have hcs := ih fun d hd ↦ h d (List.mem_cons_of_mem c hd)
    simp [outsideTags, hc, hcs]

theorem outsideTags_inside {tag : List Char} (h : AngleFree tag) (rest : List Char) :
    outsideTags true (tag ++ '>' :: rest) = outsideTags false rest := by
  induction tag with
  | nil => rfl
  | cons c tag ih =>
    have hc : c ≠ '>' := (h c (List.mem_cons_self ..)).2
    have htag := ih fun d hd ↦ h d (List.mem_cons_of_mem c hd)
    simp [outsideTags, hc, htag]

theorem IsTag.outsideTags {s : String} {tag : List Char} (h : IsTag s tag) (rest : List Char) :
    outsideTags false (s.toList ++ rest) = outsideTags false rest := by
  rw [h.1, List.cons_append, List.append_assoc]
  exact outsideTags_inside h.2 rest

theorem decode_cons {c : Char} (h : c ≠ '&') (cs : List Char) : decode (c :: cs) = c :: decode cs := by
  rw [decode] <;> simp_all

/-- A reader of entities takes a character of text from what it was written as. -/
theorem read_escapeChar_append {read : List Char → List Char}
    (hlt : ∀ cs, read ("&lt;".toList ++ cs) = '<' :: read cs)
    (hgt : ∀ cs, read ("&gt;".toList ++ cs) = '>' :: read cs)
    (hamp : ∀ cs, read ("&amp;".toList ++ cs) = '&' :: read cs)
    (hself : ∀ {c}, c ≠ '&' → ∀ cs, read (c :: cs) = c :: read cs) (c : Char) (rest : List Char) :
    read ((escapeChar c).toList ++ rest) = c :: read rest := by
  unfold escapeChar
  split
  · exact hamp rest
  · exact hlt rest
  · exact hgt rest
  · next hne _ _ =>
    have hc : c.toString.toList = [c] := by simp
    rw [hc]
    exact hself hne rest

theorem decode_escapeChar_append (c : Char) (rest : List Char) :
    decode ((escapeChar c).toList ++ rest) = c :: decode rest :=
  read_escapeChar_append (fun _ ↦ rfl) (fun _ ↦ rfl) (fun _ ↦ rfl) decode_cons c rest

/-- A reader that takes each character from what it was written as takes a text back whole. -/
theorem read_escaped {read : List Char → List Char} {write : Char → String}
    (h : ∀ c rest, read ((write c).toList ++ rest) = c :: read rest) (s : String)
    (rest : List Char) :
    read ((String.join (s.toList.map write)).toList ++ rest) = s.toList ++ read rest := by
  induction s.toList with
  | nil => rfl
  | cons c cs ih =>
    rw [List.map_cons, String.join_cons, String.toList_append, List.append_assoc, h, ih]
    rfl

theorem decode_escape_append (s : String) (rest : List Char) :
    decode ((escape s).toList ++ rest) = s.toList ++ decode rest :=
  read_escaped decode_escapeChar_append s rest

end Folio.Html
