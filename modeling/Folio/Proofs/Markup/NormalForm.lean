import Folio.Proofs.Markup.Leaves
import Folio.Proofs.Markup.Span
import Folio.Proofs.Text.Trimmed
import Mathlib.Data.List.Chain

namespace Folio.Markup

namespace Inline

def Apart (m n : Inline) : Prop :=
  ∀ s t, m = .text s → n ≠ .text t

def BeginsBare : Inline → Prop
  | text s => Text.BeginsBare s.toList
  | _ => True

def EndsBare : Inline → Prop
  | text s => Text.EndsBare s.toList
  | _ => True

theorem beginsBare_trimStart (n : Inline) : n.trimStart.BeginsBare := by
  cases n with
  | text s => simpa [trimStart, BeginsBare] using Text.beginsBare_dropBlank s.toList
  | _ => trivial

theorem endsBare_trimEnd (n : Inline) : n.trimEnd.EndsBare := by
  cases n with
  | text s => simpa [trimEnd, EndsBare] using Text.endsBare_dropBlankEnd s.toList
  | _ => trivial

theorem BeginsBare.trimEnd {n : Inline} (h : n.BeginsBare) : n.trimEnd.BeginsBare := by
  cases n with
  | text s => simpa [Inline.trimEnd, BeginsBare] using Text.BeginsBare.dropBlankEnd h
  | _ => trivial

theorem BeginsBare.trimStart_eq {n : Inline} (h : n.BeginsBare) : n.trimStart = n := by
  cases n with
  | text s => rw [trimStart, Text.trimStart, Text.BeginsBare.dropBlank_eq h, String.ofList_toList]
  | _ => rfl

theorem apart_trimStart_left {m n : Inline} : m.trimStart.Apart n ↔ m.Apart n := by
  cases m with
  | text s => exact ⟨fun h _ t _ ↦ h _ t rfl, fun h _ t _ ↦ h _ t rfl⟩
  | _ => exact Iff.rfl

theorem apart_trimEnd_right {m n : Inline} : m.Apart n.trimEnd ↔ m.Apart n := by
  cases n <;> simp [Apart, trimEnd]

/-- What stands next to a text is none. -/
theorem Apart.beginsBare {s : String} {n : Inline} (h : (text s).Apart n) : n.BeginsBare := by
  cases n with
  | text t => exact absurd rfl (h s t rfl)
  | _ => trivial

theorem Apart.endsBare {s : String} {n : Inline} (h : n.Apart (text s)) : n.EndsBare := by
  cases n with
  | text t => exact absurd rfl (h t s rfl)
  | _ => trivial

theorem exists_text_of_trimStart {n : Inline} (h : n.trimStart.isEmptyText) :
    ∃ s, n = text s := by
  cases n with
  | text s => exact ⟨s, rfl⟩
  | _ => simp [trimStart, isEmptyText] at h

theorem exists_text_of_trimEnd {n : Inline} (h : n.trimEnd.isEmptyText) : ∃ s, n = text s := by
  cases n with
  | text s => exact ⟨s, rfl⟩
  | _ => simp [trimEnd, isEmptyText] at h

theorem EndsBare.trimEnd_eq {n : Inline} (h : n.EndsBare) : n.trimEnd = n := by
  cases n with
  | text s => rw [trimEnd, Text.trimEnd, Text.EndsBare.dropBlankEnd_eq h, String.ofList_toList]
  | _ => rfl

end Inline

namespace Run

/-- No text is empty, and no two texts stand side by side. -/
structure Compact (run : Run) : Prop where
  no_empty : ∀ n ∈ run, n.isEmptyText = false
  apart : List.IsChain Inline.Apart run

/-- A compact run with no blank at either end. -/
structure Normal (run : Run) : Prop extends Compact run where
  begins : ∀ n ∈ run.head?, n.BeginsBare
  ends : ∀ n ∈ run.getLast?, n.EndsBare

theorem Compact.nil : Compact [] :=
  ⟨by simp, .nil⟩

theorem Compact.push {run : Run} (h : Compact run) (n : Inline) : Compact (push run n) := by
  rcases push_cases run n with ⟨hpush, -⟩ | ⟨hpush, hn, hlast⟩ | ⟨first, s, t, rfl, rfl, hpush⟩
  · rwa [hpush]
  · rw [hpush]
    refine ⟨by simpa [or_imp, forall_and, hn] using h.no_empty, ?_⟩
    refine List.isChain_append.2 ⟨h.apart, .singleton n, ?_⟩
    rintro m hm n' hn' s t rfl rfl
    obtain rfl : n = .text t := by simpa using hn'
    exact hlast s t hm rfl
  · rw [hpush]
    have hs := h.no_empty (.text s) (by simp)
    have hfirst := List.isChain_append.1 h.apart
    refine ⟨fun n hn ↦ ?_, List.isChain_append.2 ⟨hfirst.1, .singleton _, ?_⟩⟩
    · rcases List.mem_append.1 hn with hn | hn
      · exact h.no_empty n (List.mem_append_left _ hn)
      · obtain rfl := List.mem_singleton.1 hn
        simp only [Inline.isEmptyText, String.isEmpty_eq_false_iff] at hs ⊢
        simp [hs]
    · intro m hm n' _ s' t' hm' _
      exact hfirst.2.2 m hm (.text s) rfl s' s hm' rfl

theorem Compact.readRun {ctx : Context} {run run' : Run} {ts rest : List Token} (hrun : Compact run)
    (h : readRun ctx run ts = .ok (run', rest)) : Compact run' := by
  fun_induction Markup.readRun ctx run ts with
  | case1 =>
    obtain ⟨rfl, -⟩ := Prod.mk.inj (Except.ok.inj h)
    exact hrun
  | case2 =>
    obtain ⟨rfl, -⟩ := Prod.mk.inj (Except.ok.inj h)
    exact hrun
  | case3 => simp at h
  | case4 run t ts _ n r _ ih => exact ih (hrun.push n) h

theorem filter_eq_of_no_empty {run : Run} (h : ∀ n ∈ run, n.isEmptyText = false) :
    run.filter (!·.isEmptyText) = run :=
  List.filter_eq_self.2 fun n hn ↦ by simp [h n hn]

theorem mapLast_concat (f : Inline → Inline) (run : Run) (n : Inline) :
    mapLast f (run ++ [n]) = run ++ [f n] := by
  induction run with
  | nil => rfl
  | cons m run ih =>
    cases run with
    | nil => rfl
    | cons m' run => rw [List.cons_append, List.cons_append, mapLast, ← List.cons_append, ih]; rfl

def clearStart (run : Run) : Run :=
  (run.modifyHead Inline.trimStart).filter (!·.isEmptyText)

def clearEnd (run : Run) : Run :=
  (mapLast Inline.trimEnd run).filter (!·.isEmptyText)

theorem Compact.tail {n : Inline} {run : Run} (h : Compact (n :: run)) : Compact run :=
  ⟨fun m hm ↦ h.no_empty m (List.mem_cons_of_mem n hm), h.apart.tail⟩

theorem Compact.init {n : Inline} {run : Run} (h : Compact (run ++ [n])) : Compact run :=
  ⟨fun m hm ↦ h.no_empty m (List.mem_append_left _ hm), (List.isChain_append.1 h.apart).1⟩

theorem Compact.clearStart_cons {n : Inline} {run : Run} (h : Compact (n :: run)) :
    clearStart (n :: run) = if n.trimStart.isEmptyText then run else n.trimStart :: run := by
  rw [clearStart, List.modifyHead_cons, List.filter_cons, filter_eq_of_no_empty h.tail.no_empty]
  cases n.trimStart.isEmptyText <;> rfl

theorem Compact.clearEnd_concat {n : Inline} {run : Run} (h : Compact (run ++ [n])) :
    clearEnd (run ++ [n]) = if n.trimEnd.isEmptyText then run else run ++ [n.trimEnd] := by
  rw [clearEnd, mapLast_concat, List.filter_append, filter_eq_of_no_empty h.init.no_empty]
  cases hn : n.trimEnd.isEmptyText <;> simp [hn]

/-- The two ends can be cleared one after the other, since only a run of one text has both in it. -/
theorem Compact.trim_eq {run : Run} (h : Compact run) : trim run = clearEnd (clearStart run) := by
  cases run with
  | nil => rfl
  | cons n run =>
    rw [h.clearStart_cons]
    split
    · next hn =>
      cases run with
      | nil =>
        -- the text that is empty once its start is trimmed stays so at its end
        obtain ⟨s, rfl⟩ := Inline.exists_text_of_trimStart hn
        have hs : Text.trimStart s = "" := by simpa [Inline.trimStart, Inline.isEmptyText] using hn
        have hempty : Text.trimEnd "" = "" := rfl
        simp [trim, clearEnd, mapLast, Inline.trimStart, Inline.trimEnd, hs, hempty,
          Inline.isEmptyText]
      | cons m run =>
        rw [trim, List.modifyHead_cons, mapLast, List.filter_cons_of_neg (by simp [hn]), clearEnd]
    · rfl

theorem Compact.clearStart {run : Run} (h : Compact run) :
    Compact (clearStart run) ∧ ∀ n ∈ (Run.clearStart run).head?, n.BeginsBare := by
  cases run with
  | nil => exact ⟨h, by simp [Run.clearStart]⟩
  | cons n run =>
    have hn := (List.isChain_cons.1 h.apart).1
    rw [h.clearStart_cons]
    split
    · next hempty =>
      obtain ⟨s, rfl⟩ := Inline.exists_text_of_trimStart hempty
      exact ⟨h.tail, fun m hm ↦ (hn m hm).beginsBare⟩
    · next hempty =>
      refine ⟨⟨List.forall_mem_cons.2 ⟨by simpa using hempty, h.tail.no_empty⟩, ?_⟩, ?_⟩
      · exact List.isChain_cons.2
          ⟨fun m hm ↦ Inline.apart_trimStart_left.2 (hn m hm), h.tail.apart⟩
      · rintro m hm
        obtain rfl := Option.some.inj hm
        exact n.beginsBare_trimStart

theorem Compact.clearEnd {run : Run} (h : Compact run) (hb : ∀ n ∈ run.head?, n.BeginsBare) :
    Normal (clearEnd run) := by
  rcases List.eq_nil_or_concat' run with rfl | ⟨first, n, rfl⟩
  · exact ⟨h, by simp [Run.clearEnd, mapLast], by simp [Run.clearEnd, mapLast]⟩
  · have hn := (List.isChain_append.1 h.apart).2.2
    rw [h.clearEnd_concat]
    split
    · next hempty =>
      obtain ⟨s, rfl⟩ := Inline.exists_text_of_trimEnd hempty
      refine ⟨h.init, fun m hm ↦ hb m ?_, fun m hm ↦ (hn m hm _ rfl).endsBare⟩
      rw [List.head?_append, Option.mem_def.1 hm]
      rfl
    · next hempty =>
      refine ⟨⟨?_, ?_⟩, ?_, ?_⟩
      · exact List.forall_mem_append.2 ⟨h.init.no_empty, by simpa using hempty⟩
      · refine List.isChain_append.2 ⟨h.init.apart, .singleton _, fun m hm n' hn' ↦ ?_⟩
        obtain rfl : n.trimEnd = n' := by simpa using hn'
        exact Inline.apart_trimEnd_right.2 (hn m hm n rfl)
      · cases first with
        | nil => simpa using (hb n rfl).trimEnd
        | cons m first => simpa using hb
      · simpa using n.endsBare_trimEnd

theorem Compact.normal_trim {run : Run} (h : Compact run) : Normal (trim run) := by
  rw [h.trim_eq]
  exact h.clearStart.1.clearEnd h.clearStart.2

theorem Normal.trim_eq_self {run : Run} (h : Normal run) : trim run = run := by
  rw [h.toCompact.trim_eq]
  have hstart : clearStart run = run := by
    cases run with
    | nil => rfl
    | cons n run =>
      rw [h.clearStart_cons, (h.begins n rfl).trimStart_eq, if_neg]
      simp [h.no_empty n]
  rw [hstart]
  rcases List.eq_nil_or_concat' run with rfl | ⟨first, n, rfl⟩
  · rfl
  · rw [h.clearEnd_concat, (h.ends n (by simp)).trimEnd_eq, if_neg]
    simp [h.no_empty n]

end Run

/-- Headings are of level 1 or 2, and no blanks stand around titles, addresses and sources. -/
def Inline.Tidy : Inline → Prop
  | heading level title => (level = 1 ∨ level = 2) ∧ Text.Trimmed title
  | link _ address | view _ address => Text.Trimmed address
  | image _ source => Text.Trimmed source
  | _ => True

theorem LinkSpans.trimmed {span : List Token} {label address : String}
    (h : LinkSpans span label address) : Text.Trimmed address := by
  cases h
  exact Text.trimmed_trim _

theorem Spans.tidy {ctx : Context} {span : List Token} {n : Inline} (h : Spans ctx span n) :
    n.Tidy := by
  cases h with
  | heading => exact ⟨.inl rfl, Text.trimmed_trim _⟩
  | subheading => exact ⟨.inr rfl, Text.trimmed_trim _⟩
  | @codeBlock o body m =>
    obtain ⟨language, code, heq⟩ := exists_codeBlockOf_eq (Token.spell body)
    rw [heq]
    trivial
  | link _ hs => exact hs.trimmed
  | view _ _ hs => exact hs.trimmed
  | image _ _ hs => exact hs.trimmed
  | _ => trivial

theorem inherits_tidy : Inherits Inline.Tidy :=
  ⟨fun _ _ _ _ ↦ trivial, fun _ _ ↦ trivial, fun _ _ ↦ trivial⟩

/-- The block holds something: a node, an item, or rows with cells. -/
def Block.Filled : Block → Prop
  | paragraph content => content ≠ []
  | list items => items ≠ []
  | table rows => rows ≠ [] ∧ ∀ cells ∈ rows, cells ≠ []
  | segment _ => True

theorem ReadsLeaf.filled {ts rest : List Token} {b : Block} (h : ReadsLeaf ts b rest) :
    b.Filled := by
  cases h with
  | list _ hne => exact hne
  | table hr hne => exact ⟨hne, fun cells hc ↦ (readRows_runOf hr cells hc).1⟩
  | paragraph _ hne => exact hne

theorem RunOf.normal {ctx : Context} {ts : List Token} {r : Run} (h : RunOf ctx ts r) :
    r.Normal := by
  obtain ⟨us, run, rest, -, hr, rfl⟩ := h
  exact (Run.Compact.nil.readRun hr).normal_trim

/-- Whatever tokens a document is read from, its blocks hold something, its runs are in normal form
and stay as they are when they are trimmed, and its nodes are tidy. -/
theorem ofTokens_normal {ts : List Token} {d : Document} (h : Document.ofTokens ts = .ok d) :
    ∀ b ∈ d.leaves, b.Filled ∧
      ∀ r ∈ b.runs, Run.Normal r ∧ Run.trim r = r ∧ ∀ n ∈ r, n.Tidy := by
  have hread := Document.ofTokens_eq_ok_iff.1 h
  have hleaf : ∀ b ∈ d.leaves, b.Filled ∧ ∀ r ∈ b.runs, Run.Normal r := by
    exact readAll_leaves (fun us b rest _ hb ↦
      ⟨hb.filled, fun r hr ↦ (hb.runOf r hr).normal⟩) hread
  have hnode : ∀ b ∈ d.leaves, ∀ r ∈ b.runs, ∀ n ∈ r, n.Tidy := by
    refine readAll_inlines (Q := fun _ n ↦ n.Tidy) (fun _ ↦ inherits_tidy)
      (fun ctx t us n r _ ht hn ↦ ?_) hread
    obtain ⟨span, -, hspan⟩ := readInline_spans ht hn
    exact hspan.tidy
  intro b hb
  refine ⟨(hleaf b hb).1, fun r hr ↦ ?_⟩
  have hnormal := (hleaf b hb).2 r hr
  exact ⟨hnormal, hnormal.trim_eq_self, hnode b hb r hr⟩

/-- Prose in two tokens and a star that closes nothing make one text. -/
theorem ofTokens_normal_of_star :
    Document.ofTokens [⟨.dash, "-"⟩, ⟨.text, " a "⟩, ⟨.text, " b"⟩, ⟨.star, "*"⟩, ⟨.newline, "\n"⟩,
        ⟨.pipe, "|"⟩, ⟨.pipe, "|"⟩, ⟨.hashtag, "#"⟩, ⟨.text, " t "⟩] =
        .ok ⟨[.list [[.text "a  b*"]], .table [[[], [.heading 1 "t"]]]]⟩ ∧
      Run.Normal [.text "a  b*"] ∧ Run.trim [.text "a  b*"] = [.text "a  b*"] ∧
      (Block.table [[[], [.heading 1 "t"]]]).Filled ∧ (Inline.heading 1 "t").Tidy := by
  have hread : Document.ofTokens [⟨.dash, "-"⟩, ⟨.text, " a "⟩, ⟨.text, " b"⟩, ⟨.star, "*"⟩,
      ⟨.newline, "\n"⟩, ⟨.pipe, "|"⟩, ⟨.pipe, "|"⟩, ⟨.hashtag, "#"⟩, ⟨.text, " t "⟩] =
      .ok ⟨[.list [[.text "a  b*"]], .table [[[], [.heading 1 "t"]]]]⟩ := by
    decide +kernel
  have hlist := (ofTokens_normal hread (.list [[.text "a  b*"]]) (by decide)).2
    [.text "a  b*"] (by decide)
  have htable := ofTokens_normal hread (.table [[[], [.heading 1 "t"]]]) (by decide)
  exact ⟨hread, hlist.1, hlist.2.1, htable.1,
    (htable.2 [.heading 1 "t"] (by decide)).2.2 _ (List.mem_singleton_self _)⟩

end Folio.Markup
