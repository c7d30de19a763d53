namespace Folio.Text

def bytes (s : String) : List UInt8 :=
  s.toUTF8.data.toList

def ofBytes? (bs : List UInt8) : Option String :=
  String.fromUTF8? bs.toByteArray

def continues (b : UInt8) : Bool :=
  0x80 ≤ b && b ≤ 0xBF

def mayFollow (lead next : UInt8) : Bool :=
  if lead = 0xE0 then 0xA0 ≤ next && next ≤ 0xBF
  else if lead = 0xED then 0x80 ≤ next && next ≤ 0x9F
  else if lead = 0xF0 then 0x90 ≤ next && next ≤ 0xBF
  else if lead = 0xF4 then 0x80 ≤ next && next ≤ 0x8F
  else 0xE1 ≤ lead && lead ≤ 0xF3 && continues next

/-- How many bytes at the front, where no character stands, could begin one. A byte that could not
counts as well. -/
def brokenLength : List UInt8 → Nat
  | lead :: next :: rest =>
    if !mayFollow lead next then 1
    else if 0xF0 ≤ lead && rest.head?.any continues then 3
    else 2
  | _ => 1

theorem brokenLength_pos (bs : List UInt8) : 0 < brokenLength bs := by
  unfold brokenLength
  split
  · split
    · exact Nat.one_pos
    · split <;> exact Nat.succ_pos _
  · exact Nat.one_pos

def lossyChars (bs : List UInt8) : List Char :=
  if h : bs = [] then []
  else
    match bs.toByteArray.utf8DecodeChar? 0 with
    | some c =>
      have := c.utf8Size_pos
      have := List.length_pos_iff.2 h
      c :: lossyChars (bs.drop c.utf8Size)
    | none =>
      have := brokenLength_pos bs
      have := List.length_pos_iff.2 h
      '\uFFFD' :: lossyChars (bs.drop (brokenLength bs))
termination_by bs.length
decreasing_by
  all_goals
    rw [List.length_drop]
    omega

def lossy (bs : List UInt8) : String :=
  String.ofList (lossyChars bs)

end Folio.Text
