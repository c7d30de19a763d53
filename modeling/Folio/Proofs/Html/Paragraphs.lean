import Folio.Proofs.Markup.Runs
import Folio.Proofs.Text.Trimmed
import Mathlib.Data.List.Forall2

namespace Folio.Markup

/-- A part of a run: a heading or code block, or a group of other inlines. -/
inductive Part
  | block (n : Inline)
  | group (r : Run)

/-- The parts of a run in order. A group is not empty and ends only at a heading, a code block or
the end of the run. -/
inductive Cut : List Part → Run → Prop
  | nil : Cut [] []
  | block {n : Inline} {ps : List Part} {r : Run} :
      n.isBlockLevel → Cut ps r → Cut (.block n :: ps) (n :: r)
  | group {g : Run} {ps : List Part} {r : Run} :
      g ≠ [] → (∀ n ∈ g, ¬n.isBlockLevel) → (∀ n ∈ r.head?, n.isBlockLevel) → Cut ps r →
      Cut (.group g :: ps) (g ++ r)

namespace Cut

theorem exists_parts (r : Run) : ∃ ps, Cut ps r := by
  induction r with
  | nil => exact ⟨[], .nil⟩
  | cons n r ih =>
    obtain ⟨ps, h⟩ := ih
    by_cases hn : n.isBlockLevel
    · exact ⟨_, .block hn h⟩
    · -- the inline begins the group that stands first, or a group of its own
      have hsingle : ∀ m ∈ [n], ¬m.isBlockLevel := by simpa using hn
      cases h with
      | nil => exact ⟨_, .group (List.cons_ne_nil n []) hsingle nofun .nil⟩
      | block hm h => exact ⟨_, .group (List.cons_ne_nil n []) hsingle (by simpa) (.block hm h)⟩
      | group hg hin hnext h =>
        exact ⟨_, .group (List.cons_ne_nil n _) (List.forall_mem_cons.2 ⟨hn, hin⟩) hnext h⟩

theorem cons_ne_append {n : Inline} {g r s : Run} (hn : n.isBlockLevel) (hg : g ≠ [])
    (hin : ∀ n ∈ g, ¬n.isBlockLevel) : n :: r ≠ g ++ s := by
  intro h
  obtain ⟨m, g, rfl⟩ := List.exists_cons_of_ne_nil hg
  obtain ⟨rfl, -⟩ := List.cons.inj h
  exact hin n List.mem_cons_self hn

/-- A group is all that stands before the next heading or code block. -/
theorem span_group {g r : Run} (hin : ∀ n ∈ g, ¬n.isBlockLevel)
    (hnext : ∀ n ∈ r.head?, n.isBlockLevel) :
    (g ++ r).takeWhile (!·.isBlockLevel) = g ∧ (g ++ r).dropWhile (!·.isBlockLevel) = r := by
  apply Text.span_run
  · intro n hn
    simpa using hin n hn
  · intro n hn
    simpa using hnext n hn

theorem unique {ps qs : List Part} {r : Run} (h : Cut ps r) (h' : Cut qs r) : ps = qs := by
  induction h generalizing qs with
  | nil =>
    generalize hr : ([] : Run) = r at h'
    cases h' with
    | nil => rfl
    | block => cases hr
    | group hg => exact absurd (List.append_eq_nil_iff.1 hr.symm).1 hg
  | @block n ps r hn h ih =>
    generalize hr : n :: r = s at h'
    cases h' with
    | nil => cases hr
    | block hm h' =>
      obtain ⟨rfl, rfl⟩ := List.cons.inj hr
      rw [ih h']
    | group hg hin => exact absurd hr (cons_ne_append hn hg hin)
  | @group g ps r hg hin hnext h ih =>
    generalize hr : g ++ r = s at h'
    cases h' with
    | nil => exact absurd (List.append_eq_nil_iff.1 hr).1 hg
    | block hm => exact absurd hr.symm (cons_ne_append hm hg hin)
    | group _ hin' hnext' h' =>
      have hspan := span_group hin hnext
      have hspan' := span_group hin' hnext'
      rw [hr] at hspan
      obtain rfl := hspan.1.symm.trans hspan'.1
      obtain rfl := hspan.2.symm.trans hspan'.2
      rw [ih h']

end Cut

def Inline.isView : Inline → Bool
  | view .. => true
  | _ => false

def Run.withoutViews (r : Run) : Run :=
  r.filter (!·.isView)

def Document.withoutViews (d : Document) : Document :=
  d.mapRuns Run.withoutViews

theorem Document.inlines_withoutViews (d : Document) :
    d.withoutViews.inlines = d.inlines.filter (!·.isView) :=
  d.inlines_mapRuns fun _ ↦ (List.filter_flatten ..).symm

def viewOf (view : String × String) : Inline :=
  .view view.1 view.2

theorem map_viewOf_filterMap (r : Run) :
    (r.filterMap Block.viewOf?).map viewOf = r.filter Inline.isView := by
  induction r with
  | nil => rfl
  | cons n r ih =>
    cases n with
    | view label address => exact congrArg (Inline.view label address :: ·) ih
    | _ => exact ih

mutual

theorem Block.map_viewOf_views :
    ∀ b : Block, b.views.map viewOf = b.inlines.filter Inline.isView
  | .paragraph content => map_viewOf_filterMap content
  | .list items => map_viewOf_filterMap items.flatten
  | .table rows => map_viewOf_filterMap rows.flatten.flatten
  | .segment bs => map_viewOf_viewsAll bs

theorem Block.map_viewOf_viewsAll :
    ∀ bs : List Block, (viewsAll bs).map viewOf = (inlinesAll bs).filter Inline.isView
  | [] => rfl
  | b :: bs => by
    rw [viewsAll, List.map_append, map_viewOf_views b, map_viewOf_viewsAll bs, inlinesAll,
      List.filter_append]

end

end Folio.Markup

namespace Folio.Html

open Markup

variable {l : Code.Language}

/-- What a part of a paragraph is shown as: a heading or code block as it stands, a group as what is
left of its inlines without the blanks around them, in an element of its own if that is anything. -/
inductive Shows (l : Code.Language) : Part → String → Prop
  | block (n : Inline) : Shows l (.block n) (inline l n)
  | blank {r : Run} : Text.TrimsTo (String.join (r.map (inline l))) "" → Shows l (.group r) ""
  | text {r : Run} {t : String} : Text.TrimsTo (String.join (r.map (inline l))) t → t ≠ "" →
      Shows l (.group r) ("<div class=\"text\">" ++ t ++ "</div>")

theorem shows_textBlock (l : Code.Language) (r : Run) : Shows l (.group r) (textBlock (run l r)) := by
  have htrim := Text.trimsTo_trim (run l r)
  dsimp only [textBlock]
  split
  · next hempty =>
    rw [String.isEmpty_iff.1 hempty] at htrim
    exact .blank htrim
  · next hne => exact .text htrim fun hempty ↦ hne (String.isEmpty_iff.2 hempty)

theorem Shows.unique {p : Part} {s t : String} (h : Shows l p s) (h' : Shows l p t) : s = t := by
  cases h with
  | block n =>
    cases h'
    rfl
  | blank hs =>
    cases h' with
    | blank => rfl
    | text ht hne => exact absurd (ht.eq_trim.trans hs.eq_trim.symm) hne
  | text hs hne =>
    cases h' with
    | blank ht => exact absurd (hs.eq_trim.trans ht.eq_trim.symm) hne
    | text ht => rw [hs.eq_trim, ht.eq_trim]

theorem eq_of_forall₂_shows {ps : List Part} {ss ts : List String}
    (h : List.Forall₂ (Shows l) ps ss) (h' : List.Forall₂ (Shows l) ps ts) : ss = ts := by
  induction h generalizing ts with
  | nil =>
    cases h'
    rfl
  | cons hs _ ih =>
    cases h' with
    | cons ht h' => rw [hs.unique ht, ih h']

theorem textBlock_empty : textBlock "" = "" := by
  decide +kernel

theorem fragment_codeBlock (l : Code.Language) (tag : Option String) (code : String) :
    fragment l ⟨[.paragraph [.codeBlock tag code]]⟩ = Code.highlight l tag code := by
  have hfragment : fragment l ⟨[.paragraph [.codeBlock tag code]]⟩ =
      textBlock "" ++ Code.highlight l tag code ++ textBlock "" ++ "" := rfl
  rw [hfragment, textBlock_empty, String.append_empty, String.append_empty, String.empty_append]

theorem run_cons (l : Code.Language) (n : Inline) (r : Run) :
    run l (n :: r) = inline l n ++ run l r := by
  rw [run, List.map_cons, String.join_cons]
  rfl

theorem paragraph_block {n : Inline} (hn : n.isBlockLevel) (text : String) (r : Run) :
    paragraph l text (n :: r) = textBlock text ++ inline l n ++ paragraph l "" r := by
  rw [paragraph, if_pos hn]

theorem paragraph_group {g : Run} (hg : ∀ n ∈ g, ¬n.isBlockLevel) (text : String) (r : Run) :
    paragraph l text (g ++ r) = paragraph l (text ++ run l g) r := by
  induction g generalizing text with
  | nil => simp [run]
  | cons n g ih =>
    obtain ⟨hn, hg⟩ := List.forall_mem_cons.1 hg
    rw [List.cons_append, paragraph, if_neg hn, ih hg, run_cons, String.append_assoc]

/-- What was gathered is written out where the group ends. -/
theorem paragraph_flush {r : Run} (hr : ∀ n ∈ r.head?, n.isBlockLevel) (text : String) :
    paragraph l text r = textBlock text ++ paragraph l "" r := by
  cases r with
  | nil => rw [paragraph, paragraph, textBlock_empty, String.append_empty]
  | cons n r =>
    have hn : n.isBlockLevel := hr n rfl
    rw [paragraph_block hn, paragraph_block hn, textBlock_empty, String.empty_append,
      String.append_assoc]

theorem paragraph_of_cut {ps : List Part} {r : Run} (h : Cut ps r) :
    ∃ texts, List.Forall₂ (Shows l) ps texts ∧ paragraph l "" r = String.join texts := by
  induction h with
  | nil => exact ⟨[], .nil, textBlock_empty⟩
  | @block n ps r hn _ ih =>
    obtain ⟨texts, hshown, ih⟩ := ih
    refine ⟨inline l n :: texts, .cons (.block n) hshown, ?_⟩
    rw [paragraph_block hn, ih, textBlock_empty, String.empty_append, String.join_cons]
  | @group g ps r _ hin hnext _ ih =>
    obtain ⟨texts, hshown, ih⟩ := ih
    refine ⟨textBlock (run l g) :: texts, .cons (shows_textBlock l g) hshown, ?_⟩
    rw [paragraph_group hin, String.empty_append, paragraph_flush hnext, ih, String.join_cons]

section

variable {f : Run → Run} (hrun : ∀ r, run l (f r) = run l r)

include hrun

-- the equation lemmas of the renderers are not used: their literals are too long to unfold
theorem list_map (items : List Run) : list l (items.map f) = list l items := by
  have hitem (r : Run) : "<li>" ++ run l (f r) ++ "</li>" = "<li>" ++ run l r ++ "</li>" := by
    rw [hrun]
  have hitems : (items.map f).map (fun r ↦ "<li>" ++ run l r ++ "</li>") =
      items.map fun r ↦ "<li>" ++ run l r ++ "</li>" := by
    rw [List.map_map]
    exact List.map_congr_left fun r _ ↦ hitem r
  exact congrArg (fun shown ↦ "<ul class=\"list\">" ++ String.join shown ++ "</ul>") hitems

theorem row_map (cells : List Run) : row l (cells.map f) = row l cells := by
  have hcell (r : Run) : "<td>" ++ run l (f r) ++ "</td>" = "<td>" ++ run l r ++ "</td>" := by
    rw [hrun]
  have hcells : (cells.map f).map (fun r ↦ "<td>" ++ run l r ++ "</td>") =
      cells.map fun r ↦ "<td>" ++ run l r ++ "</td>" := by
    rw [List.map_map]
    exact List.map_congr_left fun r _ ↦ hcell r
  exact congrArg (fun shown ↦ "<tr>" ++ String.join shown ++ "</tr>") hcells

theorem table_map (rows : List (List Run)) : table l (rows.map (·.map f)) = table l rows := by
  have hrows : (rows.map (·.map f)).map (row l) = rows.map (row l) := by
    rw [List.map_map]
    exact List.map_congr_left fun cells _ ↦ row_map hrun cells
  exact congrArg (fun shown ↦ "<table class=\"table\">" ++ String.join shown ++ "</table>") hrows

end

mutual

/-- A change of its runs that is not seen in a run is not seen in a block. -/
theorem block_mapRuns {f : Run → Run} (hrun : ∀ r, run l (f r) = run l r)
    (hparagraph : ∀ r, paragraph l "" (f r) = paragraph l "" r) :
    ∀ b : Block, block l (b.mapRuns f) = block l b
  | .paragraph content => hparagraph content
  | .list items => list_map hrun items
  | .table rows => table_map hrun rows
  | .segment bs =>
    congrArg (fun shown ↦ "<div class=\"segment\">" ++ shown ++ "</div>")
      (blocks_mapRunsAll hrun hparagraph bs)

theorem blocks_mapRunsAll {f : Run → Run} (hrun : ∀ r, run l (f r) = run l r)
    (hparagraph : ∀ r, paragraph l "" (f r) = paragraph l "" r) :
    ∀ bs : List Block, blocks l (Block.mapRunsAll f bs) = blocks l bs
  | [] => rfl
  | b :: bs => by
    rw [Block.mapRunsAll, blocks, blocks, block_mapRuns hrun hparagraph b,
      blocks_mapRunsAll hrun hparagraph bs]

end

theorem inline_of_isView {n : Inline} (h : n.isView) : inline l n = "" ∧ ¬n.isBlockLevel := by
  cases n with
  | view label address => exact ⟨rfl, Bool.false_ne_true⟩
  | _ => cases h

theorem run_withoutViews (r : Run) : run l (Run.withoutViews r) = run l r := by
  induction r with
  | nil => rfl
  | cons n r ih =>
    rw [Run.withoutViews] at ih ⊢
    by_cases hn : n.isView
    · rw [List.filter_cons_of_neg (by simpa using hn), ih, run_cons, (inline_of_isView hn).1,
        String.empty_append]
    · rw [List.filter_cons_of_pos (by simpa using hn), run_cons, ih, run_cons]

theorem paragraph_withoutViews (text : String) (r : Run) :
    paragraph l text (Run.withoutViews r) = paragraph l text r := by
  induction r generalizing text with
  | nil => rfl
  | cons n r ih =>
    rw [Run.withoutViews] at ih ⊢
    by_cases hn : n.isView
    · obtain ⟨hempty, hlevel⟩ := inline_of_isView (l := l) hn
      rw [List.filter_cons_of_neg (by simpa using hn), ih, paragraph, if_neg hlevel, hempty,
        String.append_empty]
    · rw [List.filter_cons_of_pos (by simpa using hn), paragraph, paragraph, ih, ih]

/-- A paragraph is shown part by part, and its views are no part of it. Taking all views out of a
document leaves what is shown of it, and its list of views is what was taken out. -/
theorem shown_without_views (l : Code.Language) :
    (∀ content : Run, ∃ ps texts, Cut ps (Run.withoutViews content) ∧
      (∀ qs, Cut qs (Run.withoutViews content) → qs = ps) ∧
      List.Forall₂ (Shows l) ps texts ∧ (∀ ss, List.Forall₂ (Shows l) ps ss → ss = texts) ∧
      block l (.paragraph content) = String.join texts) ∧
    ∀ d : Document, fragment l d.withoutViews = fragment l d ∧
      d.withoutViews.inlines = d.inlines.filter (!·.isView) ∧
      d.views.map viewOf = d.inlines.filter (·.isView) := by
  constructor
  · intro content
    obtain ⟨ps, h⟩ := Cut.exists_parts (Run.withoutViews content)
    obtain ⟨texts, hshown, hparagraph⟩ := paragraph_of_cut (l := l) h
    refine ⟨ps, texts, h, fun qs h' ↦ h'.unique h, hshown,
      fun ss hss ↦ eq_of_forall₂_shows hss hshown, ?_⟩
    have hcontent : block l (.paragraph content) = paragraph l "" content := rfl
    rw [hcontent, ← paragraph_withoutViews, hparagraph]
  · intro d
    refine ⟨?_, d.inlines_withoutViews, Block.map_viewOf_viewsAll d.blocks⟩
    exact blocks_mapRunsAll run_withoutViews (paragraph_withoutViews "") d.blocks

/-- Blanks and a view before a heading are a group of which nothing is shown. -/
theorem shown_without_views_of_blank_group :
    block .cpp (.paragraph [.text " ", .view "m" "d", .heading 1 "T", .text " a", .bold "b"]) =
      String.join
        ["", "<h1 class=\"text\">T</h1>", "<div class=\"text\">a<strong>b</strong></div>"] := by
  obtain ⟨hparagraph, -⟩ := shown_without_views .cpp
  obtain ⟨ps, texts, -, hps, -, htexts, hblock⟩ :=
    hparagraph [.text " ", .view "m" "d", .heading 1 "T", .text " a", .bold "b"]
  have hcut : Cut [.group [.text " "], .block (.heading 1 "T"), .group [.text " a", .bold "b"]]
      [.text " ", .heading 1 "T", .text " a", .bold "b"] := by
    refine .group (by simp) (by decide) (by decide) (.block (by decide) ?_)
    exact .group (by simp) (by decide) (by decide) .nil
  obtain rfl := hps _ hcut
  have hspace : ∀ c ∈ [' '], Text.isBlank c := List.forall_mem_singleton.2 (by decide)
  have hnone : ∀ c ∈ [], Text.isBlank c := List.forall_mem_nil _
  have hblank : Shows .cpp (.group [.text " "]) "" :=
    .blank ⟨⟨[' '], [], by decide +kernel, hspace, hnone⟩, by decide⟩
  have htext : Shows .cpp (.group [.text " a", .bold "b"])
      ("<div class=\"text\">" ++ "a<strong>b</strong>" ++ "</div>") :=
    .text ⟨⟨[' '], [], by decide +kernel, hspace, hnone⟩, by decide⟩ (by decide)
  rw [hblock, ← htexts _ (.cons hblank (.cons (.block _) (.cons htext .nil)))]
  decide +kernel

end Folio.Html
