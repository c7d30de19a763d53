import Folio.Html.Fragment
import Folio.Proofs.Markup.Locality

namespace Folio.Markup

def placeBelow (bs : List Block) : List OpenSegment → List Block → Outline
  | [], blocks => ⟨[], blocks ++ bs⟩
  | s :: outer, blocks =>
    let o := placeBelow bs outer s.before
    ⟨⟨s.opening, o.blocks⟩ :: o.opened, blocks⟩

def Outline.below (bs : List Block) (o : Outline) : Outline :=
  placeBelow bs o.opened o.blocks

theorem placeBelow_append (bs : List Block) (opened : List OpenSegment) (cs blocks : List Block) :
    placeBelow bs opened (cs ++ blocks) =
      ⟨(placeBelow bs opened blocks).opened, cs ++ (placeBelow bs opened blocks).blocks⟩ := by
  cases opened with
  | nil => simp [placeBelow]
  | cons s outer => rfl

theorem step_below (bs : List Block) (o : Outline) (t : Token) (ts : List Token) :
    (o.below bs).step t ts = (o.step t ts).map fun p ↦ (p.1.below bs, p.2) := by
  unfold Outline.step
  split
  · rfl
  · obtain ⟨opened, blocks⟩ := o
    cases opened with
    | nil => rfl
    | cons s outer =>
      have h := placeBelow_append bs outer [.segment blocks.reverse] s.before
      exact congrArg (fun o ↦ Except.ok (o, ts)) h.symm
  · rcases readLeaf (t :: ts) with f | ⟨b, rest⟩
    · rfl
    · simp only [Except.map, Outline.below]
      rw [placeBelow_append]

theorem run_below (bs : List Block) (o : Outline) (ts : List Token) :
    (o.below bs).run (fun _ ↦ false) ts =
      (o.run (fun _ ↦ false) ts).map fun p ↦ (p.1.below bs, p.2) := by
  fun_induction Outline.run (fun _ ↦ false) o ts with
  | case1 o ts hs => simp at hs
  | case2 o hs ho =>
    obtain ⟨opened, blocks⟩ := o
    obtain rfl : opened = [] := ho
    simp [Outline.below, placeBelow, Outline.run, Except.map]
  | case3 o hs s outer ho =>
    obtain ⟨opened, blocks⟩ := o
    obtain rfl : opened = s :: outer := ho
    simp [Outline.below, placeBelow, Outline.run, Except.map]
  | case4 o hs t ts f hf =>
    rw [Outline.run_cons, if_neg (by simp), step_below, hf]
    rfl
  | case5 o hs t ts o' r hn ih =>
    rw [Outline.run_cons, if_neg (by simp), step_below, hn]
    exact ih

/-- Blocks that stand above all that is still to be read come out in front. -/
theorem readAll_of_below {bs : List Block} {ts us : List Token}
    (h : Outline.start.run (fun _ ↦ false) ts =
      (Outline.start.below bs).run (fun _ ↦ false) us) :
    readAll ts = (readAll us).map (bs.reverse ++ ·) := by
  rw [readAll_eq, readAll_eq]
  rw [h, run_below]
  cases hus : Outline.start.run (fun _ ↦ false) us with
  | error f => rfl
  | ok p =>
    obtain ⟨⟨opened, blocks⟩, rest⟩ := p
    obtain ⟨rfl, rfl⟩ := Outline.run_to_end hus
    simp [Except.map, Outline.below, placeBelow]

theorem readAll_append {ts us : List Token} {bs : List Block} (hl : EndsLine ts)
    (hu : ∀ u ∈ us.head?, u.kind ≠ .dash ∧ u.kind ≠ .pipe) (h : readAll ts = .ok bs) :
    readAll (ts ++ us) = (readAll us).map (bs ++ ·) := by
  obtain ⟨⟨opened, blocks⟩, rest, hrun, rfl⟩ := readAll_eq_ok_iff.1 h
  obtain ⟨rfl, rfl⟩ := Outline.run_to_end hrun
  have hts := run_append hl hu (by rw [hrun]; exact known_ok)
  rw [hrun] at hts
  -- nothing is open at the seam, so the blocks read so far only stand above
  have hseam : Outline.mk [] blocks = Outline.start.below blocks := rfl
  refine readAll_of_below ?_
  rw [← hseam]
  exact hts

theorem readAll_append_error {ts us : List Token} {f : Failure} (hl : EndsLine ts)
    (hu : ∀ u ∈ us.head?, u.kind ≠ .dash ∧ u.kind ≠ .pipe) (h : readAll ts = .error f)
    (hf : f.unread ≠ []) : readAll (ts ++ us) = .error (f.append us) := by
  have hrun := readAll_eq_error_iff.1 h
  have hts := run_append hl hu (by rw [hrun]; exact known_error.2 hf)
  rw [hrun] at hts
  exact readAll_eq_error_iff.2 hts

def ParseError.shift (tokens lines : Nat) : ParseError → ParseError
  | unexpected k found p l => .unexpected k found (p + tokens) (l + lines)
  | unmatched k found p l => .unmatched k found (p + tokens) (l + lines)

theorem Fault.rest_suffix {ts : List Token} {f : Failure} (h : Fault ts f) : f.rest <:+ ts := by
  cases h with
  | line h =>
    obtain ⟨before, hts, -⟩ := h
    exact ⟨before, hts.symm⟩
  | unopened _ hs => exact hs
  | unclosed _ hs => exact hs

theorem Fault.unread_ne_nil {ts : List Token} {f : Failure} (h : Fault ts f)
    (hf : (f.locate ts).found ≠ none) : f.unread ≠ [] := by
  intro hnil
  cases f with
  | missing k rest =>
    obtain rfl : rest = [] := hnil
    exact hf rfl
  | unclosed rest => exact hf rfl
  | unopened rest =>
    obtain rfl : rest = [] := hnil
    cases h with
    | line h =>
      obtain ⟨_, _, he⟩ := h
      cases he

theorem lineAt_append_left {ts : List Token} {p : Nat} (hp : p ≤ ts.length) (us : List Token) :
    lineAt (ts ++ us) p = lineAt ts p := by
  rw [lineAt, lineAt, List.take_append_of_le_length hp]

theorem lineAt_append_right (ts us : List Token) (p : Nat) :
    lineAt (ts ++ us) (p + ts.length) = lineAt us p + ts.countP (·.kind == .newline) := by
  have htake : (ts ++ us).take (p + ts.length) = ts ++ us.take p := by
    rw [Nat.add_comm, List.take_length_add_append]
  rw [lineAt, lineAt, htake, List.countP_append]
  omega

theorem locate_append_left {ts : List Token} {f : Failure} (hf : f.unread ≠ [])
    (us : List Token) : (f.append us).locate (ts ++ us) = f.locate ts := by
  have hlen : ∀ rest : List Token,
      (ts ++ us).length - (rest ++ us).length = ts.length - rest.length := by
    intro rest
    rw [List.length_append, List.length_append]
    omega
  have hline : ∀ rest : List Token,
      lineAt (ts ++ us) (ts.length - rest.length) = lineAt ts (ts.length - rest.length) :=
    fun rest ↦ lineAt_append_left (Nat.sub_le ..) us
  cases f with
  | missing k rest =>
    have hhead : (rest ++ us).head? = rest.head? := List.head?_append_of_ne_nil rest hf
    simp only [Failure.append, Failure.locate, Failure.rest, hlen, hline, hhead]
  | unclosed rest => exact absurd rfl hf
  | unopened rest => simp only [Failure.append, Failure.locate, Failure.rest, hlen, hline]

theorem locate_append_right {us : List Token} {f : Failure} (hf : f.rest <:+ us)
    (ts : List Token) :
    f.locate (ts ++ us) = (f.locate us).shift ts.length (ts.countP (·.kind == .newline)) := by
  have hpos : (ts ++ us).length - f.rest.length = us.length - f.rest.length + ts.length := by
    have hle := hf.length_le
    rw [List.length_append]
    omega
  cases f <;> simp only [Failure.locate, hpos, lineAt_append_right, ParseError.shift]

theorem ofTokens_append {ts us : List Token} {d : Document} (hl : EndsLine ts)
    (hu : ∀ u ∈ us.head?, u.kind ≠ .dash ∧ u.kind ≠ .pipe)
    (h : Document.ofTokens ts = .ok d) :
    (∀ d', Document.ofTokens us = .ok d' →
      Document.ofTokens (ts ++ us) = .ok ⟨d.blocks ++ d'.blocks⟩) ∧
    (∀ e, Document.ofTokens us = .error e → Document.ofTokens (ts ++ us) =
      .error (e.shift ts.length (ts.countP (·.kind == .newline)))) := by
  have hall := readAll_append hl hu (Document.ofTokens_eq_ok_iff.1 h)
  refine ⟨fun d' h' ↦ ?_, fun e h' ↦ ?_⟩
  · rw [Document.ofTokens_eq_ok_iff, hall, Document.ofTokens_eq_ok_iff.1 h']
    rfl
  · obtain ⟨f, hf, rfl⟩ := Document.ofTokens_eq_error_iff.1 h'
    rw [Document.ofTokens_eq_error_iff, hall, hf]
    exact ⟨f, rfl, locate_append_right (readAll_error hf).rest_suffix ts⟩

theorem ofTokens_append_error {ts us : List Token} {e : ParseError} (hl : EndsLine ts)
    (hu : ∀ u ∈ us.head?, u.kind ≠ .dash ∧ u.kind ≠ .pipe)
    (h : Document.ofTokens ts = .error e) (he : e.found ≠ none) :
    Document.ofTokens (ts ++ us) = .error e := by
  obtain ⟨f, hf, rfl⟩ := Document.ofTokens_eq_error_iff.1 h
  have hne := (readAll_error hf).unread_ne_nil he
  rw [Document.ofTokens_eq_error_iff]
  exact ⟨f.append us, readAll_append_error hl hu hf hne, locate_append_left hne us⟩

theorem head_lex {b : String} (hb : ∀ c ∈ (dropReturns b).head?, c ≠ '-' ∧ c ≠ '|') :
    ∀ t ∈ (lex b).head?, t.kind ≠ .dash ∧ t.kind ≠ .pipe := by
  have hb' : ∀ c ∈ (dropReturns (endLine b)).head?, c ≠ '-' ∧ c ≠ '|' := by
    rcases dropReturns_endLine b with h | h
    · rw [h]
      exact hb
    · rw [h]
      cases h : dropReturns b with
      | nil => simp
      | cons c cs =>
        rw [h] at hb
        exact hb
  intro t ht
  refine ⟨fun hk ↦ ?_, fun hk ↦ ?_⟩
  · obtain ⟨c, hc, hk'⟩ := exists_head_of_lexChars ht (by rw [hk]; decide)
    rw [hk] at hk'
    exact (hb' c hc).1 (Option.some.inj hk').symm
  · obtain ⟨c, hc, hk'⟩ := exists_head_of_lexChars ht (by rw [hk]; decide)
    rw [hk] at hk'
    exact (hb' c hc).2 (Option.some.inj hk').symm

theorem ofTokens_tokenize_line (a : String) :
    (∀ d, Document.parse a = .ok d → Document.ofTokens (tokenize (a ++ "\n")) = .ok d) ∧
    (∀ e, Document.parse a = .error e → e.found ≠ none →
      Document.ofTokens (tokenize (a ++ "\n")) = .error e) := by
  have hblank : Document.ofTokens (lex "\n") = .ok ⟨[]⟩ := by decide +kernel
  have hhead : ∀ t ∈ (lex "\n").head?, t.kind ≠ .dash ∧ t.kind ≠ .pipe := by
    rw [lex_newline]
    simp
  rcases tokenize_line a with h | h
  · rw [h]
    exact ⟨fun d hd ↦ hd, fun e he _ ↦ he⟩
  · rw [h]
    refine ⟨fun d hd ↦ ?_, fun e he hf ↦ ofTokens_append_error (endsLine_lex a) hhead he hf⟩
    have hd' := (ofTokens_append (endsLine_lex a) hhead hd).1 _ hblank
    rw [hd', List.append_nil]

/-- A text below a line reads as by itself, and so does the text that the line ends. -/
theorem parse_append_line (l : Code.Language) {a b : String}
    (hb : ∀ c ∈ (dropReturns b).head?, c ≠ '-' ∧ c ≠ '|') :
    (∀ da, Document.parse a = .ok da →
      (∀ db, Document.parse b = .ok db →
        Document.parse (a ++ "\n" ++ b) = .ok ⟨da.blocks ++ db.blocks⟩) ∧
      (∀ e, Document.parse b = .error e →
        Document.parse (a ++ "\n" ++ b) = .error
          (e.shift (tokenize (a ++ "\n")).length ((a ++ "\n").toList.count '\n')))) ∧
    (∀ fa fb, Html.ofText l a = .ok fa → Html.ofText l b = .ok fb →
      Html.ofText l (a ++ "\n" ++ b) = .ok (fa ++ fb)) ∧
    (∀ e, Document.parse a = .error e → e.found ≠ none →
      Document.parse (a ++ "\n" ++ b) = .error e) := by
  have hparse : Document.parse (a ++ "\n" ++ b) =
      Document.ofTokens (tokenize (a ++ "\n") ++ lex b) := by
    rw [Document.parse, lex_append_line]
  have hdoc : ∀ da, Document.parse a = .ok da →
      (∀ db, Document.parse b = .ok db →
        Document.parse (a ++ "\n" ++ b) = .ok ⟨da.blocks ++ db.blocks⟩) ∧
      (∀ e, Document.parse b = .error e →
        Document.parse (a ++ "\n" ++ b) = .error
          (e.shift (tokenize (a ++ "\n")).length ((a ++ "\n").toList.count '\n'))) := by
    intro da hda
    rw [hparse, ← countP_newline_tokenize]
    exact ofTokens_append (endsLine_tokenize a) (head_lex hb) ((ofTokens_tokenize_line a).1 da hda)
  refine ⟨hdoc, ?_, ?_⟩
  · intro fa fb hfa hfb
    obtain ⟨da, hda, rfl⟩ := map_eq_ok_iff.1 hfa
    obtain ⟨db, hdb, rfl⟩ := map_eq_ok_iff.1 hfb
    rw [Html.ofText, (hdoc da hda).1 db hdb]
    exact congrArg Except.ok (Html.blocks_append l da.blocks db.blocks)
  · intro e he hf
    rw [hparse]
    exact ofTokens_append_error (endsLine_tokenize a) (head_lex hb)
      ((ofTokens_tokenize_line a).2 e he hf) hf

theorem parse_append_line_of_list :
    Document.parse ("- x" ++ "\n" ++ "# y") =
        .ok ⟨[.list [[.text "x"]], .paragraph [.heading 1 "y"]]⟩ ∧
      Document.parse ("- x" ++ "\n" ++ "[y") =
        .error (.unexpected .bracketClose (some .newline) 5 2) ∧
      Html.ofText .cpp ("- x" ++ "\n" ++ "# y") =
        .ok ("<ul class=\"list\"><li>x</li></ul>" ++ "<h1 class=\"text\">y</h1>") ∧
      Document.parse ("[x" ++ "\n" ++ "# y") =
        .error (.unexpected .bracketClose (some .newline) 2 1) := by
  have hlist : Document.parse "- x" = .ok ⟨[.list [[.text "x"]]]⟩ := by decide +kernel
  have hlink : Document.parse "[y" = .error (.unexpected .bracketClose (some .newline) 2 1) := by
    decide +kernel
  have hhash : (dropReturns "# y").head? = some '#' := by decide
  have hbracket : (dropReturns "[y").head? = some '[' := by decide
  have hheading := parse_append_line .cpp (a := "- x") (b := "# y") (by simp [hhash])
  refine ⟨(hheading.1 _ hlist).1 _ (by decide +kernel), ?_,
    hheading.2.1 _ _ (by decide +kernel) (by decide +kernel), ?_⟩
  · have hshift : (ParseError.unexpected .bracketClose (some .newline) 2 1).shift
        (tokenize ("- x" ++ "\n")).length (("- x" ++ "\n").toList.count '\n') =
          .unexpected .bracketClose (some .newline) 5 2 := by decide +kernel
    rw [← hshift]
    exact ((parse_append_line .cpp (b := "[y") (by simp [hbracket])).1 _ hlist).2 _ hlink
  · exact (parse_append_line .cpp (a := "[x") (b := "# y") (by simp [hhash])).2.2 _
      (by decide +kernel) (by decide)

end Folio.Markup
