import Folio.Markup.Document
import Folio.Markup.Inline.Run

namespace Folio.Markup

def dropNewline : List Token → List Token
  | ⟨.newline, _⟩ :: ts => ts
  | ts => ts

theorem dropNewline_suffix (ts : List Token) : dropNewline ts <:+ ts := by
  unfold dropNewline
  split
  · exact List.suffix_cons ..
  · exact List.suffix_refl _

/-- How lines of one kind are read: those that begin with a mark, each from behind it. -/
structure LineReader (α : Type) where
  mark : Kind
  read : List Token → Except Failure (α × List Token)
  read_suffix {ts rest : List Token} {a : α} : read ts = .ok (a, rest) → rest <:+ ts

namespace LineReader

variable {α : Type} {r : LineReader α} {t : Token} {ts rest : List Token} {as : List α}

def lines (r : LineReader α) : List Token → Except Failure (List α × List Token)
  | [] => .ok ([], [])
  | t :: ts =>
    if t.kind = r.mark then
      match _h : r.read ts with
      | .error f => .error f
      | .ok (a, rest) => (lines r (dropNewline rest)).map fun (as, rest) ↦ (a :: as, rest)
    else .ok ([], t :: ts)
termination_by ts => ts.length
decreasing_by
  exact Nat.lt_succ_of_le ((dropNewline_suffix _).trans (r.read_suffix ‹_›)).length_le

theorem lines_mark (ht : t.kind = r.mark) (ts : List Token) :
    r.lines (t :: ts) = r.read ts >>= fun p ↦
      (r.lines (dropNewline p.2)).map fun q ↦ (p.1 :: q.1, q.2) := by
  rw [lines, if_pos ht]
  split <;> next h => rw [h]; rfl

theorem lines_of_head (h : ∀ t ∈ ts.head?, t.kind ≠ r.mark) : r.lines ts = .ok ([], ts) := by
  cases ts with
  | nil => rw [lines]
  | cons t ts => rw [lines, if_neg (h t rfl)]

theorem lines_suffix (h : r.lines ts = .ok (as, rest)) : rest <:+ ts := by
  fun_induction lines r ts generalizing as with
  | case1 | case4 =>
    obtain ⟨-, rfl⟩ := Prod.mk.inj (Except.ok.inj h)
    exact List.suffix_refl _
  | case2 => simp at h
  | case3 t ts ht a left hr ih =>
    obtain ⟨p, hp, h⟩ := map_eq_ok_iff.1 h
    obtain ⟨-, rfl⟩ := Prod.mk.inj h
    exact (ih hp).trans ((dropNewline_suffix _).trans
      ((r.read_suffix hr).trans (List.suffix_cons ..)))

theorem lines_mark_suffix (ht : t.kind = r.mark) (h : r.lines (t :: ts) = .ok (as, rest)) :
    rest <:+ ts := by
  rw [lines_mark ht] at h
  obtain ⟨⟨a, left⟩, hr, h⟩ := bind_eq_ok_iff.1 h
  obtain ⟨p, hp, h⟩ := map_eq_ok_iff.1 h
  obtain ⟨-, rfl⟩ := Prod.mk.inj h
  exact (lines_suffix hp).trans ((dropNewline_suffix _).trans (r.read_suffix hr))

/-- What comes of a line was read at some place. -/
theorem exists_read_of_mem (h : r.lines ts = .ok (as, rest)) {a : α} (ha : a ∈ as) :
    ∃ us left, us <:+ ts ∧ r.read us = .ok (a, left) := by
  fun_induction lines r ts generalizing as with
  | case1 | case4 =>
    obtain ⟨rfl, -⟩ := Prod.mk.inj (Except.ok.inj h)
    cases ha
  | case2 => simp at h
  | case3 t ts ht b left hr ih =>
    obtain ⟨p, hp, h⟩ := map_eq_ok_iff.1 h
    obtain ⟨rfl, rfl⟩ := Prod.mk.inj h
    rcases List.mem_cons.1 ha with rfl | ha
    · exact ⟨ts, left, List.suffix_cons .., hr⟩
    · obtain ⟨us, left', hus, hread⟩ := ih hp ha
      have hleft := (dropNewline_suffix left).trans (r.read_suffix hr)
      exact ⟨us, left', hus.trans (hleft.trans (List.suffix_cons ..)), hread⟩

end LineReader

def itemLines : LineReader Run where
  mark := .dash
  read ts := (readRun .line [] ts).map fun (run, rest) ↦ (Run.trim run, rest)
  read_suffix h := by
    obtain ⟨p, hp, h⟩ := map_eq_ok_iff.1 h
    obtain ⟨-, rfl⟩ := Prod.mk.inj h
    exact readRun_suffix hp

def readItems (ts : List Token) : Except Failure (List Run × List Token) :=
  itemLines.lines ts

theorem readItems_dash (v : String) (ts : List Token) :
    readItems (⟨.dash, v⟩ :: ts) = readRun .line [] ts >>= fun p ↦
      (readItems (dropNewline p.2)).map fun q ↦ (Run.trim p.1 :: q.1, q.2) := by
  have hmark : Token.kind ⟨.dash, v⟩ = itemLines.mark := rfl
  rw [readItems, LineReader.lines_mark hmark]
  cases h : readRun .line [] ts <;> simp only [itemLines, h] <;> rfl

/-- The cells of a row after its first pipe. A cell that is empty at the end of the line is what
follows the last pipe of the row, and no cell. -/
def readCells (ts : List Token) : Except Failure (List Run × List Token) :=
  match _h : readRun .cell [] ts with
  | .error f => .error f
  | .ok (run, ⟨.pipe, _⟩ :: rest) =>
    if (Run.trim run).isEmpty && rest.head?.all (·.kind == .newline) then .ok ([], rest)
    else (readCells rest).map fun (cells, rest) ↦ (Run.trim run :: cells, rest)
  | .ok (run, rest) => .ok (if (Run.trim run).isEmpty then [] else [Run.trim run], rest)
termination_by ts.length
decreasing_by
  have h : (_ :: rest).length ≤ ts.length := (readRun_suffix ‹_›).length_le
  exact h

theorem readCells_eq (ts : List Token) :
    readCells ts = readRun .cell [] ts >>= fun p ↦
      match p.2 with
      | ⟨.pipe, _⟩ :: rest =>
        if (Run.trim p.1).isEmpty && rest.head?.all (·.kind == .newline) then .ok ([], rest)
        else (readCells rest).map fun q ↦ (Run.trim p.1 :: q.1, q.2)
      | rest => .ok (if (Run.trim p.1).isEmpty then [] else [Run.trim p.1], rest) := by
  rw [readCells]
  split
  · next h => rw [h]; rfl
  · next h => rw [h]; rfl
  · next h => simp only [h, bind, Except.bind]

theorem readCells_suffix {ts rest : List Token} {cells : List Run}
    (h : readCells ts = .ok (cells, rest)) : rest <:+ ts := by
  fun_induction readCells ts generalizing cells with
  | case1 => simp at h
  | case2 ts run v r hr =>
    obtain ⟨-, rfl⟩ := Prod.mk.inj (Except.ok.inj h)
    exact (List.suffix_cons ..).trans (readRun_suffix hr)
  | case3 ts run v r hr _ ih =>
    obtain ⟨p, hp, h⟩ := map_eq_ok_iff.1 h
    obtain ⟨-, rfl⟩ := Prod.mk.inj h
    exact (ih hp).trans ((List.suffix_cons ..).trans (readRun_suffix hr))
  | case4 ts run r _ hr =>
    obtain ⟨-, rfl⟩ := Prod.mk.inj (Except.ok.inj h)
    exact readRun_suffix hr

def rowLines : LineReader (List Run) where
  mark := .pipe
  read := readCells
  read_suffix := readCells_suffix

/-- A row without cells is left out. -/
def readRows (ts : List Token) : Except Failure (List (List Run) × List Token) :=
  (rowLines.lines ts).map fun (rows, rest) ↦ (rows.filter (!·.isEmpty), rest)

theorem readRows_pipe (v : String) (ts : List Token) :
    readRows (⟨.pipe, v⟩ :: ts) = readCells ts >>= fun p ↦
      (readRows (dropNewline p.2)).map fun q ↦
        (if p.1.isEmpty then q.1 else p.1 :: q.1, q.2) := by
  have hmark : Token.kind ⟨.pipe, v⟩ = rowLines.mark := rfl
  have hread : rowLines.read ts = readCells ts := rfl
  rw [readRows, LineReader.lines_mark hmark, hread]
  rcases readCells ts with f | ⟨cells, rest⟩
  · rfl
  · simp only [bind, Except.bind, readRows]
    rcases rowLines.lines (dropNewline rest) with f | ⟨rows, left⟩
    · rfl
    · cases cells <;> rfl

/-- A line of inlines; a blank one is no block. -/
def readParagraph (ts : List Token) : Except Failure (Option Block × List Token) :=
  (readRun .line [] ts).map fun (run, rest) ↦
    (if (Run.trim run).isEmpty then none else some (.paragraph (Run.trim run)), dropNewline rest)

/-- The block that begins here and is no segment. Lines that show nothing give none. -/
def readLeaf (ts : List Token) : Except Failure (Option Block × List Token) :=
  match ts with
  | ⟨.dash, _⟩ :: _ => (readItems ts).map fun (items, rest) ↦ (some (.list items), rest)
  | ⟨.pipe, _⟩ :: _ => (readRows ts).map fun (rows, rest) ↦
      (if rows.isEmpty then none else some (.table rows), rest)
  | _ => readParagraph ts

theorem readLeaf_of_other {t : Token} (hd : t.kind ≠ .dash) (hp : t.kind ≠ .pipe)
    (ts : List Token) : readLeaf (t :: ts) = readParagraph (t :: ts) := by
  unfold readLeaf
  split
  · next h => exact absurd (congrArg Token.kind (List.cons.inj h).1) hd
  · next h => exact absurd (congrArg Token.kind (List.cons.inj h).1) hp
  · rfl

theorem readParagraph_suffix {t : Token} {ts rest : List Token} {b : Option Block}
    (h : readParagraph (t :: ts) = .ok (b, rest)) : rest <:+ ts := by
  obtain ⟨⟨run, r⟩, hr, h⟩ := map_eq_ok_iff.1 h
  obtain ⟨-, rfl⟩ := Prod.mk.inj h
  rw [readRun] at hr
  split at hr
  · next ht =>
    obtain ⟨-, rfl⟩ := Prod.mk.inj (Except.ok.inj hr)
    obtain ⟨k, v⟩ := t
    have hk : k = .newline := by simpa [Context.endsAt] using ht
    subst hk
    exact List.suffix_refl _
  · split at hr
    · simp at hr
    · next hn => exact (dropNewline_suffix _).trans ((readRun_suffix hr).trans (readInline_suffix hn))

theorem readLeaf_suffix {t : Token} {ts rest : List Token} {b : Option Block}
    (h : readLeaf (t :: ts) = .ok (b, rest)) : rest <:+ ts := by
  unfold readLeaf at h
  split at h
  · next heq =>
    obtain ⟨rfl, rfl⟩ := List.cons.inj heq
    obtain ⟨p, hp, h⟩ := map_eq_ok_iff.1 h
    obtain ⟨-, rfl⟩ := Prod.mk.inj h
    exact LineReader.lines_mark_suffix rfl hp
  · next heq =>
    obtain ⟨rfl, rfl⟩ := List.cons.inj heq
    obtain ⟨p, hp, h⟩ := map_eq_ok_iff.1 h
    obtain ⟨q, hq, rfl⟩ := map_eq_ok_iff.1 hp
    obtain ⟨-, rfl⟩ := Prod.mk.inj h
    exact LineReader.lines_mark_suffix rfl hq
  · exact readParagraph_suffix h

end Folio.Markup
