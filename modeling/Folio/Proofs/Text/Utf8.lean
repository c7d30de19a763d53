import Folio.Text.Utf8
import Mathlib.Data.String.Basic

namespace Folio.Text

open String

theorem bytes_eq (s : String) : bytes s = s.toList.flatMap utf8EncodeChar := by
  rw [bytes, toUTF8_eq_toByteArray, ← utf8Encode_toList, List.utf8Encode,
    List.toList_data_toByteArray]

theorem bytes_append (s t : String) : bytes (s ++ t) = bytes s ++ bytes t := by
  rw [bytes_eq, bytes_eq, bytes_eq, toList_append, List.flatMap_append]

theorem toByteArray_bytes (s : String) : (bytes s).toByteArray = s.toByteArray :=
  ByteArray.ext (Array.toList_inj.1 List.toList_data_toByteArray)

theorem ofBytes?_eq_some_iff {bs : List UInt8} {s : String} :
    ofBytes? bs = some s ↔ bs = bytes s := by
  unfold ofBytes? fromUTF8?
  constructor
  · intro h
    split at h
    · obtain rfl := Option.some.inj h
      exact List.toList_data_toByteArray.symm
    · cases h
  · rintro rfl
    have hvalid : (bytes s).toByteArray.IsValidUTF8 := toByteArray_bytes s ▸ s.isValidUTF8
    rw [dif_pos hvalid, Option.some_inj, ← toByteArray_inj]
    exact toByteArray_bytes s

theorem ofBytes?_bytes (s : String) : ofBytes? (bytes s) = some s :=
  ofBytes?_eq_some_iff.2 rfl

theorem bytes_inj {s t : String} : bytes s = bytes t ↔ s = t := by
  constructor
  · intro h
    exact Option.some.inj (by rw [← ofBytes?_bytes s, h, ofBytes?_bytes])
  · exact congrArg bytes

theorem lossyChars_flatMap (cs : List Char) : lossyChars (cs.flatMap utf8EncodeChar) = cs := by
  induction cs with
  | nil =>
    rw [List.flatMap_nil, lossyChars]
    rfl
  | cons c cs ih =>
    have hne : utf8EncodeChar c ++ cs.flatMap utf8EncodeChar ≠ [] := by
      simp [utf8EncodeChar_ne_nil]
    have hdecode : (utf8EncodeChar c ++ cs.flatMap utf8EncodeChar).toByteArray.utf8DecodeChar? 0 =
        some c := by
      rw [List.toByteArray_append]
      exact ByteArray.utf8DecodeChar?_utf8EncodeChar_append
    rw [List.flatMap_cons, lossyChars, dif_neg hne, hdecode]
    dsimp only
    rw [← length_utf8EncodeChar, List.drop_left, ih]

/-- Only what is no text is shown with signs of replacement. -/
theorem lossy_bytes (s : String) : lossy (bytes s) = s := by
  rw [lossy, bytes_eq, lossyChars_flatMap, ofList_toList]

end Folio.Text
