import Folio.Dump
import Folio.Proofs.Html.Listing
import Mathlib.Data.List.Basic

namespace Folio.Dump

open Markup Html

/-- What is written for a value tells the value and where the rest begins. -/
def SelfDelimiting {α : Type} (write : α → String) : Prop :=
  ∀ a b r s, write a ++ r = write b ++ s → a = b ∧ r = s

/-- What is written for a value never begins with `mark`. -/
def Avoids {α : Type} (mark : String) (write : α → String) : Prop :=
  ∀ a r s, write a ++ r ≠ mark ++ s

/-- A list is written up to `mark`, which ends it. -/
theorem SelfDelimiting.list {α : Type} {write : α → String} (h : SelfDelimiting write)
    {mark : String} (hmark : Avoids mark write) :
    SelfDelimiting fun as : List α ↦ String.join (as.map write) ++ mark := by
  intro as bs r s heq
  induction as generalizing bs with
  | nil =>
    cases bs with
    | nil => simpa using heq
    | cons b bs =>
      simp only [List.map_nil, String.join_nil, String.empty_append, List.map_cons,
        String.join_cons, String.append_assoc] at heq
      exact absurd heq.symm (hmark b _ _)
  | cons a as ih =>
    cases bs with
    | nil =>
      simp only [List.map_nil, String.join_nil, String.empty_append, List.map_cons,
        String.join_cons, String.append_assoc] at heq
      exact absurd heq (hmark a _ _)
    | cons b bs =>
      simp only [List.map_cons, String.join_cons, String.append_assoc] at heq
      obtain ⟨rfl, hrest⟩ := h a b _ _ heq
      obtain ⟨rfl, rfl⟩ := ih bs (by simpa only [String.append_assoc] using hrest)
      exact ⟨rfl, rfl⟩

/-- An element that holds a list, from its start tag to its end tag. -/
theorem SelfDelimiting.element {α : Type} {write : α → String} (h : SelfDelimiting write)
    {first last : String} (hlast : Avoids last write) :
    SelfDelimiting fun as : List α ↦ first ++ String.join (as.map write) ++ last := by
  intro as bs r s heq
  simp only [String.append_assoc, String.append_right_inj] at heq
  exact h.list hlast as bs r s (by simpa only [String.append_assoc] using heq)

/-- Texts that begin with different characters stay different whatever follows. -/
theorem append_ne_append {x y : String} (hx : x ≠ "") (hy : y ≠ "")
    (h : x.toList.head? ≠ y.toList.head?) (r s : String) : x ++ r ≠ y ++ s := by
  intro heq
  refine h ?_
  have hhead := congrArg (fun u : String ↦ u.toList.head?) heq
  simp only [String.toList_append] at hhead
  rwa [List.head?_append_of_ne_nil _ (String.toList_eq_nil_iff.not.2 hx),
    List.head?_append_of_ne_nil _ (String.toList_eq_nil_iff.not.2 hy)] at hhead

theorem angleFree_escapeXmlChar (c : Char) : AngleFree (escapeXmlChar c).toList := by
  unfold escapeXmlChar
  split
  · decide
  · exact angleFree_escapeAttributeChar _

theorem angleFree_escapeXml (s : String) : AngleFree (escapeXml s).toList :=
  angleFree_join_map angleFree_escapeXmlChar s

def readXmlChar : List Char → Option (Char × List Char)
  | '&' :: 'a' :: 'm' :: 'p' :: ';' :: cs => some ('&', cs)
  | '&' :: 'l' :: 't' :: ';' :: cs => some ('<', cs)
  | '&' :: 'g' :: 't' :: ';' :: cs => some ('>', cs)
  | '&' :: 'q' :: 'u' :: 'o' :: 't' :: ';' :: cs => some ('"', cs)
  | '&' :: 'a' :: 'p' :: 'o' :: 's' :: ';' :: cs => some ('\x27', cs)
  | c :: cs => some (c, cs)
  | [] => none

theorem readXmlChar_escapeXmlChar (c : Char) (rest : List Char) :
    readXmlChar ((escapeXmlChar c).toList ++ rest) = some (c, rest) := by
  unfold escapeXmlChar
  split
  · rfl
  · unfold escapeAttributeChar
    split
    · rfl
    · unfold escapeChar
      split
      · rfl
      · rfl
      · rfl
      · next hamp _ _ =>
        have hc : c.toString.toList = [c] := by simp
        rw [hc, List.singleton_append]
        unfold readXmlChar
        split <;> simp_all

theorem escapeXmlChar_selfDelimiting : SelfDelimiting escapeXmlChar := by
  intro c d r s h
  have hread := congrArg (fun u : String ↦ readXmlChar u.toList) h
  simp only [String.toList_append, readXmlChar_escapeXmlChar, Option.some.injEq, Prod.mk.injEq,
    String.toList_inj] at hread
  exact hread

theorem escapeXmlChar_avoids : Avoids "<" escapeXmlChar := by
  intro c r s
  have hne : escapeXmlChar c ≠ "" := by
    intro h
    have hread := readXmlChar_escapeXmlChar c []
    rw [h] at hread
    cases hread
  refine append_ne_append hne (by decide) ?_ r s
  intro h
  have hmem : '<' ∈ (escapeXmlChar c).toList := List.mem_of_mem_head? (Option.mem_def.2 h)
  exact (angleFree_escapeXmlChar c _ hmem).1 rfl

theorem escapeXml_inj {s t : String} : escapeXml s = escapeXml t ↔ s = t := by
  refine ⟨fun h ↦ ?_, fun h ↦ h ▸ rfl⟩
  have hlist := escapeXmlChar_selfDelimiting.list escapeXmlChar_avoids
  have heq := (hlist s.toList t.toList "" "" (congrArg (fun u ↦ u ++ "<" ++ "") h)).1
  exact String.toList_inj.1 heq

theorem angleFree_attributes (n : Inline) : AngleFree (attributes n).toList := by
  have hquoted : ∀ {first : String} (value : String), AngleFree first.toList →
      AngleFree (first ++ escapeXml value ++ "\"").toList := by
    intro first value hfirst
    rw [String.toList_append, String.toList_append]
    exact (hfirst.append (angleFree_escapeXml value)).append (by decide)
  cases n with
  | heading level title =>
    rw [attributes, String.toList_append, String.toList_append]
    exact ((by decide : AngleFree " level=\"".toList).append (Code.angleFree_toString level)).append
      (by decide)
  | codeBlock language body =>
    cases language with
    | none => exact (by decide : AngleFree "".toList)
    | some language => exact hquoted language (by decide)
  | link label address => exact hquoted address (by decide)
  | image alt source => exact hquoted source (by decide)
  | view label address => exact hquoted address (by decide)
  | _ => exact (by decide : AngleFree "".toList)

/-- The attributes of an element, if it has any, are set off from its name by a blank. -/
theorem head_attributes (n : Inline) : ∀ c ∈ (attributes n).toList.head?, c = ' ' := by
  cases n with
  | codeBlock language body => cases language <;> simp [attributes]
  | _ => simp [attributes]

theorem eq_of_repr_eq {k l : Nat} (h : k.repr = l.repr) : k = l := by
  calc k = Nat.ofDigitChars 10 k.repr.toList 0 := by
        rw [Nat.toList_repr, Nat.ofDigitChars_ten_toDigits]
    _ = l := by rw [h, Nat.toList_repr, Nat.ofDigitChars_ten_toDigits]

/-- The name of an element, its attributes and its text make up the node. -/
theorem eq_of_parts {n m : Inline} (ht : n.type = m.type) (ha : attributes n = attributes m)
    (hc : content n = content m) : n = m := by
  -- nodes of different constructors have different names
  cases n <;> cases m <;> simp [Inline.type] at ht
  case text.text => exact congrArg Inline.text hc
  case bold.bold => exact congrArg Inline.bold hc
  case italic.italic => exact congrArg Inline.italic hc
  case code.code => exact congrArg Inline.code hc
  case heading.heading level title level' title' =>
    have hlevel : level = level' := eq_of_repr_eq (by simpa [attributes] using ha)
    exact congrArg₂ Inline.heading hlevel hc
  case codeBlock.codeBlock language body language' body' =>
    have hlanguage : language = language' := by
      cases language <;> cases language' <;> simp_all [attributes, escapeXml_inj]
    exact congrArg₂ Inline.codeBlock hlanguage hc
  case link.link label address label' address' =>
    have haddress : address = address' := by simpa [attributes, escapeXml_inj] using ha
    exact congrArg₂ Inline.link hc haddress
  case image.image alt source alt' source' =>
    have hsource : source = source' := by simpa [attributes, escapeXml_inj] using ha
    exact congrArg₂ Inline.image hc hsource
  case view.view label address label' address' =>
    have haddress : address = address' := by simpa [attributes, escapeXml_inj] using ha
    exact congrArg₂ Inline.view hc haddress

theorem angleFree_type (n : Inline) : AngleFree n.type.toList := by
  cases n <;> simp only [Inline.type] <;> decide

/-- The name of an element ends where its attributes begin. -/
theorem takeWhile_tag (n : Inline) :
    (n.type ++ attributes n).toList.takeWhile (· ≠ ' ') = n.type.toList := by
  have hname : ∀ c ∈ n.type.toList, decide (c ≠ ' ') = true := by
    cases n <;> simp [Inline.type]
  have hattributes : (attributes n).toList.takeWhile (· ≠ ' ') = [] := by
    cases h : (attributes n).toList with
    | nil => rfl
    | cons c cs =>
      have hc : c = ' ' := head_attributes n c (by rw [h]; rfl)
      simp [hc]
  rw [String.toList_append, List.takeWhile_append_of_pos hname, hattributes, List.append_nil]

/-- The first `sep` ends what holds none. -/
theorem eq_of_append_cons {sep : Char} {x y r s : List Char} (hx : sep ∉ x) (hy : sep ∉ y)
    (h : x ++ sep :: r = y ++ sep :: s) : x = y ∧ r = s := by
  have hcut := Text.splitFirst_append hx r
  rw [h, Text.splitFirst_append hy s] at hcut
  obtain ⟨rfl, rfl⟩ := Prod.mk.inj (Option.some.inj hcut)
  exact ⟨rfl, rfl⟩

theorem inline_selfDelimiting : SelfDelimiting inline := by
  intro n m r s h
  have hlist : ∀ (n : Inline) (r : String), (inline n ++ r).toList =
      '<' :: ((n.type ++ attributes n).toList ++ '>' ::
        ((escapeXml (content n)).toList ++ '<' :: ("/" ++ n.type ++ ">" ++ r).toList)) := by
    intro n r
    simp [inline]
  have htag : ∀ n : Inline, '>' ∉ (n.type ++ attributes n).toList := by
    intro n hn
    rw [String.toList_append] at hn
    exact ((angleFree_type n).append (angleFree_attributes n) _ hn).2 rfl
  have htext : ∀ n : Inline, '<' ∉ (escapeXml (content n)).toList :=
    fun n hn ↦ (angleFree_escapeXml _ _ hn).1 rfl
  have hlists := congrArg String.toList h
  rw [hlist, hlist] at hlists
  -- the tag ends at its bracket, and the text where the next tag begins
  obtain ⟨htags, hbehind⟩ := eq_of_append_cons (htag n) (htag m) (List.cons.inj hlists).2
  obtain ⟨htexts, hend⟩ := eq_of_append_cons (htext n) (htext m) hbehind
  have htype : n.type = m.type := by
    rw [← String.toList_inj, ← takeWhile_tag n, htags, takeWhile_tag]
  have hattributes : attributes n = attributes m := by
    rw [String.toList_inj, htype, String.append_right_inj] at htags
    exact htags
  rw [String.toList_inj, htype, String.append_right_inj] at hend
  exact ⟨eq_of_parts htype hattributes (escapeXml_inj.1 (String.toList_inj.1 htexts)), hend⟩

/-- No node begins with an end tag. -/
theorem inline_avoids {last : String} {name : List Char} (h : last.toList = '<' :: '/' :: name) :
    Avoids last inline := by
  intro n r s heq
  have hlists := congrArg String.toList heq
  cases n <;> simp [inline, Inline.type, h] at hlists

theorem run_selfDelimiting {first last : String} {name : List Char}
    (h : last.toList = '<' :: '/' :: name) : SelfDelimiting fun r ↦ first ++ run r ++ last :=
  inline_selfDelimiting.element (inline_avoids h)

theorem item_selfDelimiting (depth : Nat) : SelfDelimiting (item depth) :=
  run_selfDelimiting rfl

theorem row_selfDelimiting (depth : Nat) : SelfDelimiting (row depth) := by
  have hcell : SelfDelimiting fun r : Run ↦ "<cell>" ++ run r ++ "</cell>" :=
    run_selfDelimiting rfl
  refine hcell.element fun r s t heq ↦ ?_
  have hlists := congrArg String.toList heq
  simp at hlists

theorem indent_succ (depth : Nat) : indent (depth + 1) = indent depth ++ "  " := by
  simp [indent, List.replicate_succ']

/-- What is indented further than an end tag does not begin with it. -/
theorem avoids_end {α : Type} {write : α → String} {depth : Nat} {last : String}
    {name : List Char} (hlast : last.toList = '<' :: '/' :: name)
    (h : ∀ a, ∃ rest, write a = indent (depth + 1) ++ rest) :
    Avoids (indent depth ++ last) write := by
  intro a r s heq
  obtain ⟨rest, hrest⟩ := h a
  simp only [hrest, indent_succ, String.append_assoc, String.append_right_inj] at heq
  have hlists := congrArg String.toList heq
  simp [hlast] at hlists

def behindTag (depth : Nat) : Block → String
  | .paragraph r => run r ++ "</paragraph>\n"
  | .list items =>
    "\n" ++ String.join (items.map (item (depth + 1))) ++ (indent depth ++ "</list>\n")
  | .table rows =>
    "\n" ++ String.join (rows.map (row (depth + 1))) ++ (indent depth ++ "</table>\n")
  | .segment [] => "</segment>\n"
  | .segment (b :: bs) => "\n" ++ (blocks (depth + 1) (b :: bs) ++ (indent depth ++ "</segment>\n"))

theorem block_eq (depth : Nat) (b : Block) :
    block depth b = indent depth ++ ("<" ++ b.type ++ ">" ++ behindTag depth b) := by
  rw [← String.toList_inj]
  cases b with
  | segment bs => cases bs <;> simp [block, blocks, behindTag, Block.type]
  | _ => simp [block, behindTag, Block.type]

/-- The start tag of a block tells its type. -/
theorem behindTag_of_block {depth : Nat} {b b' : Block} {r s : String}
    (h : block depth b ++ r = block depth b' ++ s) :
    b.type = b'.type ∧ behindTag depth b ++ r = behindTag depth b' ++ s := by
  have htype : ∀ b : Block, '>' ∉ b.type.toList := by
    intro b
    cases b <;> simp only [Block.type] <;> decide
  simp only [block_eq, String.append_assoc, String.append_right_inj] at h
  have hlists := congrArg String.toList h
  simp only [String.toList_append] at hlists
  obtain ⟨ht, hbehind⟩ := eq_of_append_cons (htype b) (htype b') hlists
  rw [← String.toList_append, ← String.toList_append] at hbehind
  exact ⟨String.toList_inj.1 ht, String.toList_inj.1 hbehind⟩

theorem block_avoids (depth : Nat) {last : String} {name : List Char}
    (hlast : last.toList = '<' :: '/' :: name) :
    Avoids (indent depth ++ last) (block (depth + 1)) :=
  avoids_end hlast fun b ↦ ⟨_, block_eq (depth + 1) b⟩

theorem list_selfDelimiting (depth : Nat) : SelfDelimiting fun items : List Run ↦
    "\n" ++ String.join (items.map (item (depth + 1))) ++ (indent depth ++ "</list>\n") :=
  (item_selfDelimiting _).element <| avoids_end rfl fun r ↦
    ⟨"<item>" ++ run r ++ "</item>\n", by simp only [item, String.append_assoc]⟩

theorem table_selfDelimiting (depth : Nat) : SelfDelimiting fun rows : List (List Run) ↦
    "\n" ++ String.join (rows.map (row (depth + 1))) ++ (indent depth ++ "</table>\n") :=
  (row_selfDelimiting _).element <| avoids_end rfl fun cells ↦
    ⟨"<row>" ++ String.join (cells.map fun r ↦ "<cell>" ++ run r ++ "</cell>") ++ "</row>\n",
      by simp only [row, String.append_assoc]⟩

mutual

theorem block_selfDelimiting (depth : Nat) : ∀ b b' : Block, ∀ r s : String,
    block depth b ++ r = block depth b' ++ s → b = b' ∧ r = s
  | .paragraph content, b', r, s, h => by
    obtain ⟨htype, hbehind⟩ := behindTag_of_block h
    cases b' <;> simp [Block.type] at htype
    case paragraph content' =>
      have hrun : SelfDelimiting fun r : Run ↦ String.join (r.map inline) ++ "</paragraph>\n" :=
        inline_selfDelimiting.list (inline_avoids rfl)
      obtain ⟨rfl, rfl⟩ := hrun content content' r s hbehind
      exact ⟨rfl, rfl⟩
  | .list items, b', r, s, h => by
    obtain ⟨htype, hbehind⟩ := behindTag_of_block h
    cases b' <;> simp [Block.type] at htype
    case list items' =>
      obtain ⟨rfl, rfl⟩ := list_selfDelimiting depth items items' r s hbehind
      exact ⟨rfl, rfl⟩
  | .table rows, b', r, s, h => by
    obtain ⟨htype, hbehind⟩ := behindTag_of_block h
    cases b' <;> simp [Block.type] at htype
    case table rows' =>
      obtain ⟨rfl, rfl⟩ := table_selfDelimiting depth rows rows' r s hbehind
      exact ⟨rfl, rfl⟩
  | .segment [], b', r, s, h => by
    obtain ⟨htype, hbehind⟩ := behindTag_of_block h
    cases b' <;> simp [Block.type] at htype
    case segment bs' =>
      cases bs' with
      | nil => exact ⟨rfl, (String.append_right_inj _).1 hbehind⟩
      | cons b bs =>
        have hlists := congrArg String.toList hbehind
        simp [behindTag] at hlists
  | .segment (b :: bs), b', r, s, h => by
    obtain ⟨htype, hbehind⟩ := behindTag_of_block h
    cases b' <;> simp [Block.type] at htype
    case segment bs' =>
      cases bs' with
      | nil =>
        have hlists := congrArg String.toList hbehind
        simp [behindTag] at hlists
      | cons b' bs' =>
        simp only [behindTag, blocks, String.append_assoc, String.append_right_inj] at hbehind
        obtain ⟨rfl, hrest⟩ := block_selfDelimiting (depth + 1) b b' _ _ hbehind
        obtain ⟨rfl, rfl⟩ := blocks_selfDelimiting depth rfl bs bs' r s hrest
        exact ⟨rfl, rfl⟩

theorem blocks_selfDelimiting (depth : Nat) {last : String} {name : List Char}
    (hlast : last.toList = '<' :: '/' :: name) : ∀ bs bs' : List Block, ∀ r s : String,
    blocks (depth + 1) bs ++ (indent depth ++ (last ++ r)) =
      blocks (depth + 1) bs' ++ (indent depth ++ (last ++ s)) → bs = bs' ∧ r = s
  | [], [], r, s, h => by simpa [blocks] using h
  | [], b :: bs, r, s, h => by
    simp only [blocks, String.empty_append, String.append_assoc] at h
    exact absurd (by simpa only [String.append_assoc] using h.symm)
      (block_avoids depth hlast b (blocks (depth + 1) bs ++ (indent depth ++ (last ++ s))) r)
  | b :: bs, [], r, s, h => by
    simp only [blocks, String.empty_append, String.append_assoc] at h
    exact absurd (by simpa only [String.append_assoc] using h)
      (block_avoids depth hlast b (blocks (depth + 1) bs ++ (indent depth ++ (last ++ r))) s)
  | b :: bs, b' :: bs', r, s, h => by
    simp only [blocks, String.append_assoc] at h
    obtain ⟨rfl, hrest⟩ := block_selfDelimiting (depth + 1) b b' _ _ h
    obtain ⟨rfl, rfl⟩ := blocks_selfDelimiting depth hlast bs bs' r s hrest
    exact ⟨rfl, rfl⟩

end

/-- Documents with the same dump are the same document. -/
theorem document_inj {d d' : Document} : document d = document d' ↔ d = d' := by
  refine ⟨fun h ↦ ?_, fun h ↦ h ▸ rfl⟩
  have hlast : "</document>" = indent 0 ++ ("</document>" ++ "") := by simp [indent]
  rw [document, document, String.append_assoc, String.append_assoc, String.append_right_inj,
    hlast] at h
  exact congrArg Document.mk (blocks_selfDelimiting 0 rfl d.blocks d'.blocks "" "" h).1

end Folio.Dump
