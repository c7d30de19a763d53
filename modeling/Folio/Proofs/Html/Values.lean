import Folio.Proofs.Html.Visible

namespace Folio.Html

def decodeValue : List Char → List Char
  | '&' :: 'q' :: 'u' :: 'o' :: 't' :: ';' :: cs => '"' :: decodeValue cs
  | '&' :: 'l' :: 't' :: ';' :: cs => '<' :: decodeValue cs
  | '&' :: 'g' :: 't' :: ';' :: cs => '>' :: decodeValue cs
  | '&' :: 'a' :: 'm' :: 'p' :: ';' :: cs => '&' :: decodeValue cs
  | c :: cs => c :: decodeValue cs
  | [] => []

theorem decodeValue_cons {c : Char} (h : c ≠ '&') (cs : List Char) :
    decodeValue (c :: cs) = c :: decodeValue cs := by
  rw [decodeValue] <;> simp_all

theorem decodeValue_escapeChar_append (c : Char) (rest : List Char) :
    decodeValue ((escapeChar c).toList ++ rest) = c :: decodeValue rest :=
  read_escapeChar_append (fun _ ↦ rfl) (fun _ ↦ rfl) (fun _ ↦ rfl) decodeValue_cons c rest

theorem decodeValue_escapeAttributeChar_append (c : Char) (rest : List Char) :
    decodeValue ((escapeAttributeChar c).toList ++ rest) = c :: decodeValue rest := by
  unfold escapeAttributeChar
  split
  · rfl
  · exact decodeValue_escapeChar_append c rest

theorem quote_mem_escapeChar_iff (c : Char) : '"' ∈ (escapeChar c).toList ↔ c = '"' := by
  unfold escapeChar
  split
  · decide
  · decide
  · decide
  · simp [eq_comm]

theorem quote_notMem_escapeAttributeChar (c : Char) : '"' ∉ (escapeAttributeChar c).toList := by
  unfold escapeAttributeChar
  split
  · decide
  · next h => simpa [quote_mem_escapeChar_iff] using h

theorem quote_mem_escape_iff (s : String) : '"' ∈ (escape s).toList ↔ '"' ∈ s.toList := by
  rw [escape, mem_join_map_iff]
  simp [quote_mem_escapeChar_iff]

theorem quote_notMem_escapeAttribute (s : String) : '"' ∉ (escapeAttribute s).toList := by
  rw [escapeAttribute, mem_join_map_iff]
  simp [quote_notMem_escapeAttributeChar]

/-- The attributes that are filled with data: where a link leads, where an image comes from and
what stands in for it, the language of fenced code, and the stylesheet of a page. -/
inductive Slot
  | address
  | source
  | alternative
  | language
  | stylesheet
deriving DecidableEq

namespace Slot

def name : Slot → String
  | address => "href"
  | source => "src"
  | alternative => "alt"
  | language => "data-language"
  | stylesheet => "href"

def write : Slot → String → String
  | address | source | alternative => escapeAttribute
  | language | stylesheet => escape

end Slot

structure Attribute where
  slot : Slot
  data : String
deriving DecidableEq

namespace Attribute

def value (a : Attribute) : String :=
  a.slot.write a.data

def written (a : Attribute) : String :=
  a.slot.name ++ "=\"" ++ a.value ++ "\""

theorem head_written (a : Attribute) : ∀ c ∈ a.written.toList.head?, Text.isBlank c = false := by
  have hname : ∀ k : Slot, ∃ c cs, k.name.toList = c :: cs ∧ Text.isBlank c = false := by
    intro k
    cases k with
    | address | stylesheet => exact ⟨'h', ['r', 'e', 'f'], rfl, by decide⟩
    | source => exact ⟨'s', ['r', 'c'], rfl, by decide⟩
    | alternative => exact ⟨'a', ['l', 't'], rfl, by decide⟩
    | language => exact ⟨'d', "ata-language".toList, rfl, by decide⟩
  obtain ⟨c, cs, hcons, hblank⟩ := hname a.slot
  intro d hd
  rw [written, String.append_assoc, String.append_assoc, String.toList_append, hcons] at hd
  obtain rfl : c = d := by simpa using hd
  exact hblank

theorem getLast_written (a : Attribute) : a.written.toList.getLast? = some '"' := by
  rw [written, String.toList_append]
  exact List.getLast?_concat

theorem written_ne_empty (a : Attribute) : a.written ≠ "" := by
  intro h
  have hlast := a.getLast_written
  rw [h] at hlast
  cases hlast

theorem angleFree_value (a : Attribute) : AngleFree a.value.toList := by
  obtain ⟨slot, data⟩ := a
  cases slot with
  | address | source | alternative => exact angleFree_escapeAttribute data
  | language | stylesheet => exact angleFree_escape data

theorem decodeValue_value (a : Attribute) : decodeValue a.value.toList = a.data.toList := by
  obtain ⟨slot, data⟩ := a
  have hescape := read_escaped decodeValue_escapeChar_append data []
  have hattribute := read_escaped decodeValue_escapeAttributeChar_append data []
  rw [List.append_nil, decodeValue, List.append_nil] at hescape hattribute
  cases slot with
  | address | source | alternative => exact hattribute
  | language | stylesheet => exact hescape

theorem quote_mem_value_iff (a : Attribute) :
    '"' ∈ a.value.toList ↔ (a.slot = .language ∨ a.slot = .stylesheet) ∧ '"' ∈ a.data.toList := by
  obtain ⟨slot, data⟩ := a
  cases slot with
  | address | source | alternative => simp [value, Slot.write, quote_notMem_escapeAttribute]
  | language | stylesheet => simp [value, Slot.write, quote_mem_escape_iff]

end Attribute

end Folio.Html
