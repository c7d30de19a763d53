import Folio.Files.Path
import Folio.Proofs.Text.Pieces

namespace Folio.Files

open Text

/-- A name cut at its last dot. A dot that begins the name hides the file and cuts nothing. -/
structure IsCut (n : Name) (stem extension : List UInt8) : Prop where
  eq : n.bytes = stem ++ dot :: extension
  last : dot ∉ extension
  shown : stem ≠ []

variable {n : Name} {front extension : List UInt8}

theorem splitName_eq_iff : splitName n = (front, some extension) ↔ IsCut n front extension := by
  unfold splitName
  constructor
  · intro h
    split at h
    · cases h
    · next hsplit =>
      split at h
      · cases h
      · next hshown =>
        obtain ⟨rfl, hextension⟩ := Prod.mk.inj h
        obtain rfl := Option.some.inj hextension
        obtain ⟨hname, hlast⟩ := splitFirst_eq_some_iff.1 hsplit
        refine ⟨?_, by simpa using hlast, by simpa using hshown⟩
        simpa using congrArg List.reverse hname
  · rintro ⟨hname, hlast, hshown⟩
    have hsplit : splitFirst dot n.bytes.reverse = some (extension.reverse, front.reverse) := by
      rw [splitFirst_eq_some_iff]
      exact ⟨by simp [hname], by simpa using hlast⟩
    rw [hsplit]
    dsimp only
    rw [if_neg (by simpa using hshown), List.reverse_reverse, List.reverse_reverse]

theorem extension?_eq_some_iff :
    extension? n = some extension ↔ ∃ front, IsCut n front extension := by
  simp only [← splitName_eq_iff, extension?]
  constructor
  · intro h
    exact ⟨(splitName n).1, Prod.ext rfl h⟩
  · rintro ⟨front, h⟩
    rw [h]

theorem IsCut.stem_eq (h : IsCut n front extension) : stem n = front := by
  rw [stem, splitName_eq_iff.2 h]

theorem IsCut.name_inj {n' : Name} (h : IsCut n front extension) (h' : IsCut n' front extension) :
    n = n' := by
  obtain ⟨bs, hbs⟩ := n
  obtain ⟨bs', hbs'⟩ := n'
  obtain rfl : bs = bs' := h.eq.trans h'.eq.symm
  rfl

end Folio.Files
