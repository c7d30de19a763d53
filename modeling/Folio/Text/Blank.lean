namespace Folio.Text

def inRanges (ranges : List (Nat × Nat)) (c : Char) : Bool :=
  ranges.any fun r ↦ r.1 ≤ c.toNat && c.toNat ≤ r.2

def blankRanges : List (Nat × Nat) :=
  [(0x09, 0x0d), (0x20, 0x20), (0x85, 0x85), (0xa0, 0xa0), (0x1680, 0x1680), (0x2000, 0x200a),
   (0x2028, 0x2029), (0x202f, 0x202f), (0x205f, 0x205f), (0x3000, 0x3000)]

/-- The Unicode property White_Space. -/
def isBlank (c : Char) : Bool :=
  inRanges blankRanges c

def dropBlank (cs : List Char) : List Char :=
  cs.dropWhile isBlank

def dropBlankEnd (cs : List Char) : List Char :=
  (dropBlank cs.reverse).reverse

def trimStart (s : String) : String :=
  String.ofList (dropBlank s.toList)

def trimEnd (s : String) : String :=
  String.ofList (dropBlankEnd s.toList)

def trim (s : String) : String :=
  trimEnd (trimStart s)

def isBlankText (s : String) : Bool :=
  s.toList.all isBlank

theorem exists_blanks_dropBlank (cs : List Char) :
    ∃ before, cs = before ++ dropBlank cs ∧ ∀ c ∈ before, isBlank c :=
  ⟨cs.takeWhile isBlank, List.takeWhile_append_dropWhile.symm,
    fun c hc ↦ List.all_eq_true.1 List.all_takeWhile c hc⟩

theorem exists_blanks_dropBlankEnd (cs : List Char) :
    ∃ after, cs = dropBlankEnd cs ++ after ∧ ∀ c ∈ after, isBlank c := by
  obtain ⟨before, hcs, hb⟩ := exists_blanks_dropBlank cs.reverse
  refine ⟨before.reverse, ?_, fun c hc ↦ hb c (List.mem_reverse.1 hc)⟩
  rw [dropBlankEnd, ← List.reverse_append, ← hcs, List.reverse_reverse]

@[simp] theorem toList_trimStart (s : String) : (trimStart s).toList = dropBlank s.toList := by
  simp [trimStart]

@[simp] theorem toList_trimEnd (s : String) : (trimEnd s).toList = dropBlankEnd s.toList := by
  simp [trimEnd]

@[simp] theorem toList_trim (s : String) :
    (trim s).toList = dropBlankEnd (dropBlank s.toList) := by
  simp [trim]

end Folio.Text
