import Folio.Html.Fragment
import Folio.Proofs.Html.Values
import Folio.Proofs.Text.Spans
import Mathlib.Data.List.Basic

namespace Folio.Html

/-- Blanks at the start of a text stand before its first attribute. -/
theorem trimStart_written (before after : String) (a : Attribute) :
    Text.trimStart (before ++ a.written ++ after) =
      Text.trimStart before ++ a.written ++ after := by
  have hhead : ∀ c ∈ (a.written.toList ++ after.toList).head?, Text.isBlank c = false := by
    rw [List.head?_append_of_ne_nil _ (by simpa using a.written_ne_empty)]
    exact a.head_written
  apply String.toList_inj.1
  simp only [Text.toList_trimStart, String.toList_append, List.append_assoc, Text.dropBlank]
  exact (Text.span_extend hhead before.toList).2

theorem trimEnd_written (before after : String) (a : Attribute) :
    Text.trimEnd (before ++ a.written ++ after) = before ++ a.written ++ Text.trimEnd after := by
  have hlast : ∀ c ∈ (before ++ a.written).toList.reverse.head?, Text.isBlank c = false := by
    rw [List.head?_reverse, String.toList_append, List.getLast?_append, a.getLast_written]
    rintro c ⟨⟩
    decide
  have hdrop : Text.dropBlankEnd ((before ++ a.written).toList ++ after.toList) =
      (before ++ a.written).toList ++ Text.dropBlankEnd after.toList := by
    rw [Text.dropBlankEnd, Text.dropBlank, List.reverse_append,
      (Text.span_extend hlast after.toList.reverse).2, List.reverse_append, List.reverse_reverse]
    rfl
  apply String.toList_inj.1
  rw [Text.toList_trimEnd, String.toList_append, hdrop, String.toList_append (t := Text.trimEnd _),
    Text.toList_trimEnd]

inductive Template
  | text (s : String)
  | hole (before : String) (k : Slot) (after : Template)

namespace Template

def append : Template → Template → Template
  | text s, text t => text (s ++ t)
  | text s, hole before k after => hole (s ++ before) k after
  | hole before k after, t => hole before k (append after t)

def wrap (first : String) (t : Template) (last : String) : Template :=
  (text first).append (t.append (text last))

def join : List Template → Template
  | [] => text ""
  | t :: ts => t.append (join ts)

def elements {α : Type} (first last : String) (f : α → Template) (xs : List α) : Template :=
  (join (xs.map f)).wrap first last

theorem elements_map {α β : Type} (first last : String) (f : β → Template) (g : α → β)
    (xs : List α) : elements first last f (xs.map g) = elements first last (fun x ↦ f (g x)) xs := by
  rw [elements, List.map_map]
  rfl

def trimEnd : Template → Template
  | text s => text (Text.trimEnd s)
  | hole before k after => hole before k after.trimEnd

def trim : Template → Template
  | text s => text (Text.trim s)
  | hole before k after => hole (Text.trimStart before) k after.trimEnd

/-- A block of text, or nothing where the template is blank and leaves no attribute open. -/
def block (t : Template) : Template :=
  match t.trim with
  | text s => text (if s.isEmpty then "" else "<div class=\"text\">" ++ s ++ "</div>")
  | hole before k after => wrap "<div class=\"text\">" (hole before k after) "</div>"

end Template

/-- A text is the template with the attributes written in its places, in order. -/
inductive Fits : Template → List Attribute → String → Prop
  | text (s : String) : Fits (.text s) [] s
  | hole (before : String) (a : Attribute) {t : Template} {as : List Attribute} {s : String} :
      Fits t as s → Fits (.hole before a.slot t) (a :: as) (before ++ a.written ++ s)

namespace Fits

variable {t u : Template} {as bs : List Attribute} {s r : String}

theorem append (h : Fits t as s) (h' : Fits u bs r) : Fits (t.append u) (as ++ bs) (s ++ r) := by
  induction h with
  | text s =>
    cases h' with
    | text r => exact .text (s ++ r)
    | hole before a h' =>
      rw [← String.append_assoc, ← String.append_assoc]
      exact .hole (s ++ before) a h'
  | hole before a _ ih =>
    rw [String.append_assoc]
    exact .hole before a ih

theorem wrap (first last : String) (h : Fits t as s) :
    Fits (t.wrap first last) as (first ++ s ++ last) := by
  have hfits := (Fits.text first).append (h.append (.text last))
  rwa [List.nil_append, List.append_nil, ← String.append_assoc] at hfits

theorem join {α : Type} {f : α → Template} {g : α → List Attribute} {write : α → String}
    (h : ∀ x, Fits (f x) (g x) (write x)) (xs : List α) :
    Fits (.join (xs.map f)) (xs.flatMap g) (String.join (xs.map write)) := by
  induction xs with
  | nil => exact .text ""
  | cons x xs ih =>
    rw [List.map_cons, List.map_cons, String.join_cons, List.flatMap_cons]
    exact (h x).append ih

theorem elements {α : Type} {f : α → Template} {g : α → List Attribute} {write : α → String}
    (first last : String) (h : ∀ x, Fits (f x) (g x) (write x)) (xs : List α) :
    Fits (.elements first last f xs) (xs.flatMap g)
      (first ++ String.join (xs.map write) ++ last) :=
  (Fits.join h xs).wrap first last

theorem trimEnd (h : Fits t as s) : Fits t.trimEnd as (Text.trimEnd s) := by
  induction h with
  | text s => exact .text _
  | hole before a _ ih =>
    rw [trimEnd_written]
    exact .hole before a ih

theorem trim (h : Fits t as s) : Fits t.trim as (Text.trim s) := by
  cases h with
  | text s => exact .text _
  | hole before a h =>
    rw [Text.trim, trimStart_written, trimEnd_written]
    exact .hole _ a h.trimEnd

theorem block (h : Fits t as s) : Fits t.block as (textBlock s) := by
  have htrim := h.trim
  have hblock (s : String) : textBlock s =
      if (Text.trim s).isEmpty then "" else "<div class=\"text\">" ++ Text.trim s ++ "</div>" := rfl
  rw [Template.block, hblock]
  generalize Text.trim s = trimmed at htrim ⊢
  generalize t.trim = u at htrim ⊢
  cases htrim with
  | text s => exact .text _
  | hole before a hrest =>
    rw [if_neg (by simp [a.written_ne_empty])]
    exact (Fits.hole before a hrest).wrap "<div class=\"text\">" "</div>"

end Fits

end Folio.Html
