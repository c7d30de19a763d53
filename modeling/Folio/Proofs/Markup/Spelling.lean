import Folio.Markup.Document.Reader
import Folio.Proofs.Markup.Conservation
import Folio.Proofs.Markup.Lexing
import Folio.Proofs.Markup.Span

namespace Folio.Markup

def isInk (c : Char) : Bool :=
  !Text.isBlank c && c != '|'

/-- A text without its blanks and pipes. -/
def ink (s : String) : List Char :=
  s.toList.filter isInk

def Inline.spelling : Inline → String
  | text s => s
  | heading level title => String.ofList (List.replicate level '#') ++ title
  | bold s => "**" ++ s ++ "**"
  | italic s => "*" ++ s ++ "*"
  | code s => "\x60" ++ s ++ "\x60"
  | codeBlock language body => "\x60\x60\x60" ++ language.getD "" ++ body ++ "\x60\x60\x60"
  | link label address => "[" ++ label ++ "](" ++ address ++ ")"
  | view label address => "$[" ++ label ++ "](" ++ address ++ ")"
  | image alt source => "![" ++ alt ++ "](" ++ source ++ ")"

def Run.spelling (run : Run) : String :=
  String.join (run.map Inline.spelling)

mutual

def Block.spelling : Block → String
  | .paragraph content => Run.spelling content
  | .list items => String.join (items.map fun item ↦ "-" ++ Run.spelling item)
  | .table rows => String.join (rows.flatten.map Run.spelling)
  | .segment blocks => "\x7b" ++ Block.spellingAll blocks ++ "\x7d"

def Block.spellingAll : List Block → String
  | [] => ""
  | b :: bs => b.spelling ++ Block.spellingAll bs

end

def Document.spelling (d : Document) : String :=
  Block.spellingAll d.blocks

@[simp] theorem ink_append (s t : String) : ink (s ++ t) = ink s ++ ink t := by
  simp [ink]

@[simp] theorem ink_empty : ink "" = [] := rfl

theorem filter_isInk_dropBlank (cs : List Char) :
    (Text.dropBlank cs).filter isInk = cs.filter isInk := by
  have h : (cs.takeWhile Text.isBlank).filter isInk = [] := by
    rw [List.filter_eq_nil_iff]
    intro c hc
    simp [isInk, List.mem_takeWhile_imp hc]
  calc (Text.dropBlank cs).filter isInk
      = (cs.takeWhile Text.isBlank ++ cs.dropWhile Text.isBlank).filter isInk := by
        rw [List.filter_append, h, List.nil_append, Text.dropBlank]
    _ = cs.filter isInk := by rw [List.takeWhile_append_dropWhile]

theorem filter_isInk_dropBlankEnd (cs : List Char) :
    (Text.dropBlankEnd cs).filter isInk = cs.filter isInk := by
  rw [Text.dropBlankEnd, List.filter_reverse, filter_isInk_dropBlank, List.filter_reverse,
    List.reverse_reverse]

@[simp] theorem ink_trimStart (s : String) : ink (Text.trimStart s) = ink s := by
  rw [ink, Text.toList_trimStart, filter_isInk_dropBlank, ink]

@[simp] theorem ink_trimEnd (s : String) : ink (Text.trimEnd s) = ink s := by
  rw [ink, Text.toList_trimEnd, filter_isInk_dropBlankEnd, ink]

@[simp] theorem ink_trim (s : String) : ink (Text.trim s) = ink s := by
  rw [Text.trim, ink_trimEnd, ink_trimStart]

namespace Run

@[simp] theorem spelling_nil : spelling [] = "" := rfl

@[simp] theorem spelling_cons (n : Inline) (run : Run) :
    spelling (n :: run) = n.spelling ++ spelling run := by
  simp [spelling]

theorem spelling_of_isEmptyText {n : Inline} (h : n.isEmptyText) : n.spelling = "" := by
  cases n with
  | text s => simpa [Inline.isEmptyText, Inline.spelling] using h
  | _ => simp [Inline.isEmptyText] at h

theorem spelling_push (run : Run) (n : Inline) :
    (push run n).spelling = run.spelling ++ n.spelling := by
  fun_induction push run n with
  | case1 n h => simp [spelling_of_isEmptyText h]
  | case2 n h => simp
  | case3 s t => simp [Inline.spelling]
  | case4 m run n _ ih => simp [ih, String.append_assoc]

theorem spelling_foldl_push (ns : List Inline) (run : Run) :
    (ns.foldl push run).spelling = run.spelling ++ spelling ns := by
  induction ns generalizing run with
  | nil => simp
  | cons n ns ih => simp [ih, spelling_push, String.append_assoc]

theorem ink_mapLast {f : Inline → Inline} (hf : ∀ n, ink (f n).spelling = ink n.spelling)
    (run : Run) : ink (mapLast f run).spelling = ink run.spelling := by
  fun_induction mapLast f run with
  | case1 => rfl
  | case2 n => simp [hf]
  | case3 n m run ih => rw [spelling_cons, ink_append, ih, spelling_cons n, ink_append]

theorem spelling_filter (run : Run) :
    spelling (run.filter fun n ↦ !n.isEmptyText) = run.spelling := by
  induction run with
  | nil => rfl
  | cons n run ih =>
    by_cases h : n.isEmptyText
    · rw [List.filter_cons_of_neg (by simpa using h), ih, spelling_cons,
        spelling_of_isEmptyText h, String.empty_append]
    · rw [List.filter_cons_of_pos (by simpa using h), spelling_cons, ih, spelling_cons]

theorem ink_trim_run (run : Run) : ink (trim run).spelling = ink run.spelling := by
  have hend : ∀ n : Inline, ink n.trimEnd.spelling = ink n.spelling := by
    intro n
    cases n <;> simp [Inline.trimEnd, Inline.spelling]
  have hstart : ink (spelling (run.modifyHead Inline.trimStart)) = ink run.spelling := by
    cases run with
    | nil => rfl
    | cons n run => cases n <;> simp [Inline.trimStart, Inline.spelling]
  rw [trim, spelling_filter, ink_mapLast hend, hstart]

end Run

/-- Marks that cover their own characters spell them. -/
theorem spell_of_kinds {m : List Token} {ks : List Kind} {s : String}
    (hf : AllFaithful m) (hk : m.map Token.kind = ks)
    (hs : ks.map Kind.char? = s.toList.map some) : Token.spell m = s := by
  suffices h : ∀ cs : List Char, ks.map Kind.char? = cs.map some →
      (Token.spell m).toList = cs from String.toList_inj.1 (h _ hs)
  clear hs
  subst hk
  induction m with
  | nil =>
    intro cs h
    simpa using h.symm
  | cons t m ih =>
    intro cs h
    cases cs with
    | nil => simp at h
    | cons c cs =>
      simp only [List.map_cons, List.cons.injEq] at h
      have ht := hf t (by simp) c h.1
      have hm := ih (hf.of_subset (List.subset_cons_self ..)) cs h.2
      simp [ht, hm]

theorem value_of_kind {t : Token} {k : Kind} {s : String} (hf : t.Faithful) (hk : t.kind = k)
    (hs : [k.char?] = s.toList.map some) : t.value = s := by
  have hf' : AllFaithful [t] := by simpa [AllFaithful] using hf
  have h : Token.spell [t] = s := spell_of_kinds hf' (congrArg (fun k ↦ [k]) hk) hs
  simpa using h

theorem ink_codeBlockOf (raw : String) :
    ink (codeBlockOf raw).spelling = ink ("\x60\x60\x60" ++ raw ++ "\x60\x60\x60") := by
  unfold codeBlockOf
  split
  · simp [Inline.spelling]
  · next first rest h =>
    dsimp only
    split
    · have hraw : ink raw = first.filter isInk ++ rest.filter isInk := by
        have hn : isInk '\n' = false := by decide
        rw [ink, Text.append_of_splitFirst h, List.filter_append,
          List.filter_cons_of_neg (by simp [hn])]
      have htag : ink (String.ofList first) = first.filter isInk := by simp [ink]
      have hrest : ink (String.ofList rest) = rest.filter isInk := by simp [ink]
      simp [Inline.spelling, hraw, htag, hrest]
    · simp [Inline.spelling]

theorem LinkSpans.ink_spelling {span : List Token} {label address : String}
    (h : LinkSpans span label address) (hf : AllFaithful span) :
    ink (Token.spell span) = ink (label ++ "](" ++ address ++ ")") := by
  cases h with
  | @mk label address b p c hl hb hp ha hc =>
    have hb' : b.value = "]" := value_of_kind (hf b (by simp)) hb rfl
    have hp' : p.value = "(" := value_of_kind (hf p (by simp)) hp rfl
    have hc' : c.value = ")" := value_of_kind (hf c (by simp)) hc rfl
    have hcut : ink "](" = ink "]" ++ ink "(" := rfl
    simp [hb', hp', hc', hcut]

theorem Spans.ink_spelling {ctx : Context} {span : List Token} {n : Inline}
    (h : Spans ctx span n) (hf : AllFaithful span) :
    ink (Token.spell span) = ink n.spelling := by
  cases h with
  | @heading h prose hh hp hl =>
    have hh' : h.value = "#" := value_of_kind (hf h (by simp)) hh rfl
    simp [Inline.spelling, hh']
  | @subheading h h' marks prose hh hh' hm hp hl =>
    have ho : h.value = "#" := value_of_kind (hf h (by simp)) hh rfl
    have ho' : h'.value = "#" := value_of_kind (hf h' (by simp)) hh' rfl
    have hcut : ink "##" = ink "#" ++ ink "#" := rfl
    simp [Inline.spelling, ho, ho', hcut]
  | @bold o body m ho hm hb =>
    have ho' := spell_of_kinds (hf.of_subset (by simp)) ho (s := "**") rfl
    have hm' := spell_of_kinds (hf.of_subset (by simp)) hm.kinds (s := "**") rfl
    simp [Inline.spelling, ho', hm']
  | @italic o body m ho hm hb hne =>
    have ho' := spell_of_kinds (hf.of_subset (by simp)) ho (s := "*") rfl
    have hm' := spell_of_kinds (hf.of_subset (by simp)) hm.kinds (s := "*") rfl
    simp [Inline.spelling, ho', hm']
  | @code o body m ho hm hb =>
    have ho' := spell_of_kinds (hf.of_subset (by simp)) ho (s := "\x60") rfl
    have hm' := spell_of_kinds (hf.of_subset (by simp)) hm.kinds (s := "\x60") rfl
    simp [Inline.spelling, ho', hm']
  | @codeBlock o body m ho hm =>
    have ho' := spell_of_kinds (hf.of_subset (by simp)) ho (s := "\x60\x60\x60") rfl
    have hm' := spell_of_kinds (hf.of_subset (by simp)) hm.kinds (s := "\x60\x60\x60") rfl
    rw [ink_codeBlockOf, Token.spell_append, Token.spell_append, ho', hm']
  | @link o span label address ho hs =>
    have ho' : o.value = "[" := value_of_kind (hf o (by simp)) ho rfl
    have hs' := hs.ink_spelling (hf.of_subset (by simp))
    simp [Inline.spelling, ho', hs']
  | @view d o span label address hd ho hs =>
    have hd' : d.value = "$" := value_of_kind (hf d (by simp)) hd rfl
    have ho' : o.value = "[" := value_of_kind (hf o (by simp)) ho rfl
    have hs' := hs.ink_spelling (hf.of_subset (by simp))
    have hcut : ink "$[" = ink "$" ++ ink "[" := rfl
    simp [Inline.spelling, hd', ho', hs', hcut]
  | @image b o span alt source hb ho hs =>
    have hb' : b.value = "!" := value_of_kind (hf b (by simp)) hb rfl
    have ho' : o.value = "[" := value_of_kind (hf o (by simp)) ho rfl
    have hs' := hs.ink_spelling (hf.of_subset (by simp))
    have hcut : ink "![" = ink "!" ++ ink "[" := rfl
    simp [Inline.spelling, hb', ho', hs', hcut]
  | @stars s s' hs hs' =>
    have h : s.value = "*" := value_of_kind (hf s (by simp)) hs rfl
    have h' : s'.value = "*" := value_of_kind (hf s' (by simp)) hs' rfl
    simp [Inline.spelling, h, h']
  | @mark t c s ht hc hs =>
    have h : t.value = s := value_of_kind (hf t (by simp)) rfl (by simp [hc, hs])
    simp [Inline.spelling, h]
  | @bang b t hb ht =>
    have hb' : b.value = "!" := value_of_kind (hf b (by simp)) hb rfl
    simp [Inline.spelling, hb']
  | @token t ht => simp [Inline.spelling]

theorem RunSpans.ink_spelling {ctx : Context} {spans : List Token} {ns : List Inline}
    (h : RunSpans ctx spans ns) (hf : AllFaithful spans) :
    ink (Token.spell spans) = ink (Run.spelling ns) := by
  induction h with
  | nil => rfl
  | cons hn hs ih =>
    have h := hn.ink_spelling (hf.of_subset (List.subset_append_left ..))
    have h' := ih (hf.of_subset (List.subset_append_right ..))
    simp [h, h']

theorem ink_readRun {ctx : Context} {ts rest : List Token} {run : Run}
    (hf : AllFaithful ts) (h : readRun ctx [] ts = .ok (run, rest)) :
    ink (Token.spell ts) = ink (Run.spelling (Run.trim run)) ++ ink (Token.spell rest) := by
  obtain ⟨spans, ns, rfl, hs, rfl, -⟩ := readRun_spans h
  have hink := hs.ink_spelling (hf.of_subset (List.subset_append_left ..))
  simp [Run.ink_trim_run, Run.spelling_foldl_push, hink]

theorem ink_dropNewline {ts : List Token} (hf : AllFaithful ts) :
    ink (Token.spell (dropNewline ts)) = ink (Token.spell ts) := by
  unfold dropNewline
  split
  · next v ts =>
    obtain rfl : v = "\n" := value_of_kind (hf _ (List.mem_cons_self ..)) rfl rfl
    have hn : ink "\n" = [] := by decide
    simp [hn]
  · rfl

theorem ink_spell_pipe {v : String} {ts : List Token} (hf : Token.Faithful ⟨.pipe, v⟩) :
    ink (Token.spell (⟨.pipe, v⟩ :: ts)) = ink (Token.spell ts) := by
  obtain rfl : v = "|" := value_of_kind hf rfl rfl
  have h : ink "|" = [] := by decide
  simp [h]

/-- Lines hold what each of them holds. -/
theorem ink_lines {α : Type} {r : LineReader α} {shown : α → String}
    (hr : ∀ {t ts rest a}, AllFaithful (t :: ts) → t.kind = r.mark → r.read ts = .ok (a, rest) →
      ink (Token.spell (t :: ts)) = ink (shown a) ++ ink (Token.spell rest))
    {ts rest : List Token} {as : List α} (hf : AllFaithful ts) (h : r.lines ts = .ok (as, rest)) :
    ink (Token.spell ts) = ink (String.join (as.map shown)) ++ ink (Token.spell rest) := by
  fun_induction LineReader.lines r ts generalizing as with
  | case1 | case4 =>
    obtain ⟨rfl, rfl⟩ := Prod.mk.inj (Except.ok.inj h)
    rfl
  | case2 => simp at h
  | case3 t ts ht a left hread ih =>
    obtain ⟨⟨as, rest⟩, hp, h⟩ := map_eq_ok_iff.1 h
    obtain ⟨rfl, rfl⟩ := Prod.mk.inj h
    have hleft : AllFaithful left :=
      hf.of_subset ((r.read_suffix hread).trans (List.suffix_cons ..)).subset
    have hih := ih (hleft.of_subset (dropNewline_suffix left).subset) hp
    rw [ink_dropNewline hleft] at hih
    rw [hr hf ht hread, hih, List.map_cons, String.join_cons, ink_append, List.append_assoc]

theorem ink_readItems {ts rest : List Token} {items : List Run} (hf : AllFaithful ts)
    (h : readItems ts = .ok (items, rest)) :
    ink (Token.spell ts) = ink (Block.spelling (.list items)) ++ ink (Token.spell rest) := by
  have hread : ∀ {t ts rest} {item : Run}, AllFaithful (t :: ts) → t.kind = itemLines.mark →
      itemLines.read ts = .ok (item, rest) →
      ink (Token.spell (t :: ts)) = ink ("-" ++ Run.spelling item) ++ ink (Token.spell rest) := by
    intro t ts rest item hf ht hread
    obtain ⟨⟨run, left⟩, hr, hread⟩ := map_eq_ok_iff.1 hread
    obtain ⟨rfl, rfl⟩ := Prod.mk.inj hread
    have hdash : t.value = "-" := value_of_kind (hf t List.mem_cons_self) ht rfl
    simp [hdash, ink_readRun (hf.of_subset (List.subset_cons_self ..)) hr]
  exact ink_lines hread hf h

theorem ink_readCells {ts rest : List Token} {cells : List Run} (hf : AllFaithful ts)
    (h : readCells ts = .ok (cells, rest)) :
    ink (Token.spell ts) =
      ink (String.join (cells.map Run.spelling)) ++ ink (Token.spell rest) := by
  fun_induction readCells ts generalizing cells with
  | case1 => simp at h
  | case2 ts run v r hr hempty =>
    obtain ⟨rfl, rfl⟩ := Prod.mk.inj (Except.ok.inj h)
    have hpipe := hf _ ((readRun_suffix hr).subset (List.mem_cons_self ..))
    have hnil : Run.trim run = [] := by
      rw [Bool.and_eq_true, List.isEmpty_iff] at hempty
      exact hempty.1
    rw [ink_readRun hf hr, ink_spell_pipe hpipe, hnil]
    simp
  | case3 ts run v r hr hfull ih =>
    obtain ⟨⟨cells, rest⟩, hp, h⟩ := map_eq_ok_iff.1 h
    obtain ⟨rfl, rfl⟩ := Prod.mk.inj h
    have hrest : AllFaithful (⟨.pipe, v⟩ :: r) := hf.of_subset (readRun_suffix hr).subset
    have hih := ih (hrest.of_subset (List.subset_cons_self ..)) hp
    rw [ink_readRun hf hr, ink_spell_pipe (hrest _ (List.mem_cons_self ..)), hih]
    simp
  | case4 ts run r hne hr =>
    obtain ⟨rfl, rfl⟩ := Prod.mk.inj (Except.ok.inj h)
    rw [ink_readRun hf hr]
    split
    · next hempty => simp [List.isEmpty_iff.1 hempty]
    · simp

theorem join_flatten (rows : List (List String)) :
    String.join rows.flatten = String.join (rows.map String.join) := by
  induction rows with
  | nil => rfl
  | cons cells rows ih => rw [List.flatten_cons, String.join_append, ih, List.map_cons,
      String.join_cons]

theorem ink_readRows {ts rest : List Token} {rows : List (List Run)}
    (hf : AllFaithful ts) (h : readRows ts = .ok (rows, rest)) :
    ink (Token.spell ts) = ink (Block.spelling (.table rows)) ++ ink (Token.spell rest) := by
  have hread : ∀ {t ts rest} {cells : List Run}, AllFaithful (t :: ts) → t.kind = rowLines.mark →
      rowLines.read ts = .ok (cells, rest) → ink (Token.spell (t :: ts)) =
        ink (String.join (cells.map Run.spelling)) ++ ink (Token.spell rest) := by
    intro t ts rest cells hf ht hread
    obtain ⟨k, v⟩ := t
    obtain rfl : k = .pipe := ht
    rw [ink_spell_pipe (hf _ List.mem_cons_self),
      ink_readCells (hf.of_subset (List.subset_cons_self ..)) hread]
  obtain ⟨⟨all, left⟩, hlines, h⟩ := map_eq_ok_iff.1 h
  obtain ⟨rfl, rfl⟩ := Prod.mk.inj h
  rw [ink_lines hread hf hlines, Block.spelling, List.flatten_filter_not_isEmpty, List.map_flatten,
    join_flatten, List.map_map]
  rfl

theorem ink_readParagraph {ts rest : List Token} {b : Option Block}
    (hf : AllFaithful ts) (h : readParagraph ts = .ok (b, rest)) :
    ink (Token.spell ts) = ink (Block.spellingAll b.toList) ++ ink (Token.spell rest) := by
  obtain ⟨⟨run, r⟩, hr, h⟩ := map_eq_ok_iff.1 h
  obtain ⟨rfl, rfl⟩ := Prod.mk.inj h
  rw [ink_dropNewline (hf.of_subset (readRun_suffix hr).subset), ink_readRun hf hr]
  split
  · next hempty => simp [List.isEmpty_iff.1 hempty, Block.spellingAll]
  · simp [Block.spellingAll, Block.spelling]

theorem ink_readLeaf {ts rest : List Token} {b : Option Block} (hf : AllFaithful ts)
    (h : readLeaf ts = .ok (b, rest)) :
    ink (Token.spell ts) = ink (Block.spellingAll b.toList) ++ ink (Token.spell rest) := by
  unfold readLeaf at h
  split at h
  · obtain ⟨⟨items, r⟩, hr, h⟩ := map_eq_ok_iff.1 h
    obtain ⟨rfl, rfl⟩ := Prod.mk.inj h
    rw [ink_readItems hf hr]
    simp [Block.spellingAll]
  · obtain ⟨⟨rows, r⟩, hr, h⟩ := map_eq_ok_iff.1 h
    obtain ⟨rfl, rfl⟩ := Prod.mk.inj h
    rw [ink_readRows hf hr]
    cases rows <;> simp [Block.spellingAll, Block.spelling]
  · exact ink_readParagraph hf h

theorem spellingAll_append (bs cs : List Block) :
    Block.spellingAll (bs ++ cs) = Block.spellingAll bs ++ Block.spellingAll cs := by
  induction bs with
  | nil => simp [Block.spellingAll]
  | cons b bs ih => simp [Block.spellingAll, ih, String.append_assoc]

def inkAccount : Account AllFaithful where
  blocks bs := ink (Block.spellingAll bs)
  tokens ts := ink (Token.spell ts)
  blocks_append bs cs := by rw [spellingAll_append, ink_append]
  blocks_segment bs := by
    have hopen : ink "\x7b" = ['\x7b'] := by decide
    have hclose : ink "\x7d" = ['\x7d'] := by decide
    simp [Block.spellingAll, Block.spelling, hopen, hclose]
  tokens_nil := rfl
  suffix hf hs := hf.of_subset hs.subset
  tokens_open {t ts} hf hk := by
    have ht : t.value = "\x7b" := value_of_kind (hf t (by simp)) hk rfl
    have hopen : ink "\x7b" = ['\x7b'] := by decide
    simp [ht, hopen]
  tokens_close {t ts} hf hk := by
    have ht : t.value = "\x7d" := value_of_kind (hf t (by simp)) hk rfl
    have hclose : ink "\x7d" = ['\x7d'] := by decide
    simp [ht, hclose]
  leaf hf _ _ h := ink_readLeaf hf h

theorem filter_isInk_dropReturns (s : String) : (dropReturns s).filter isInk = ink s := by
  rw [dropReturns, List.filter_filter]
  refine List.filter_congr fun c _ ↦ ?_
  by_cases hc : c = '\r'
  · subst hc
    decide
  · simp [hc]

theorem ink_endLine (s : String) : (dropReturns (endLine s)).filter isInk = ink s := by
  have hn : ['\n'].filter isInk = [] := by decide
  rw [← filter_isInk_dropReturns]
  rcases dropReturns_endLine s with h | h
  · rw [h]
  · rw [h, List.filter_append, hn, List.append_nil]

/-- Nothing of a text is lost, doubled or moved when it is read. -/
theorem ink_spelling_parse {source : String} {d : Document} (h : Document.parse source = .ok d) :
    ink d.spelling = ink source := by
  have hf : AllFaithful (lex source) := allFaithful_lexChars _
  have htokens : ink (Token.spell (lex source)) = ink (Block.spellingAll d.blocks) :=
    inkAccount.readAll hf (Document.ofTokens_eq_ok_iff.1 h)
  rw [Document.spelling, ← htokens, ink, lex, tokenize, toList_spell_lexChars, ink_endLine]

theorem ink_spelling_parse_segment :
    ink (Document.spelling ⟨[.segment [.paragraph [.heading 2 "", .code "x", .text " ",
        .link "l" "a"], .table [[[.text "*q"]]]], .paragraph [.text "!$ **"],
        .paragraph [.codeBlock (some "c") "1"]]⟩) =
      ink "\x7b\r\n## \x60x\x60 [l]( a )\n|*q| |\n\x7d !$ **\n\x60\x60\x60c\n1\x60\x60\x60" :=
  ink_spelling_parse (by decide +kernel)

end Folio.Markup
