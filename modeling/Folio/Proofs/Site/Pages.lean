import Folio.Proofs.Site.Collection
import Folio.Proofs.Site.Isolation
import Folio.Site.Pages

namespace Folio.Site

open Files Markup Text

variable {sys : System} {t t' : Tree} {p q : Place} {outputDir : Path} {shell : Html.Shell}

def IsPage (q : Place) (name : String) (p : Place) : Prop :=
  ∃ n : Name, p = q ++ [n] ∧ n.bytes = bytes (name ++ ".html")

theorem IsPage.inj {name name' : String} (h : IsPage q name p) (h' : IsPage q name' p) :
    name = name' := by
  obtain ⟨n, rfl, hn⟩ := h
  obtain ⟨n', heq, hn'⟩ := h'
  obtain rfl : n = n' := by simpa using heq
  rw [hn, bytes_inj, String.append_left_inj] at hn'
  exact hn'

theorem IsPage.eq {name : String} {p' : Place} (h : IsPage q name p) (h' : IsPage q name p') :
    p = p' := by
  obtain ⟨⟨bs, hbs⟩, rfl, rfl⟩ := h
  obtain ⟨⟨bs', hbs'⟩, rfl, rfl⟩ := h'
  rfl

theorem isName_page {name : String} (hslash : slash ∉ bytes name) (hnul : 0 ∉ bytes name) :
    IsName (bytes (name ++ ".html")) := by
  have hend : bytes ".html" = [dot, 104, 116, 109, 108] := by decide +kernel
  have hlong : ∀ bs : List UInt8, bs.length < 5 → bytes (name ++ ".html") ≠ bs := by
    rintro bs hbs rfl
    rw [bytes_append, hend, List.length_append] at hbs
    simp at hbs
  refine ⟨hlong _ (by decide), ?_, ?_, hlong _ (by decide), hlong _ (by decide)⟩
  all_goals rw [bytes_append, hend, List.mem_append, not_or]
  · exact ⟨hslash, by decide⟩
  · exact ⟨hnul, by decide⟩

/-- Wherever the path of a page leads, it is in the output directory. -/
theorem isPage_of_locate {home : Place} (hq : t.follow home (steps outputDir) = .ok q)
    {name : String} (hslash : slash ∉ bytes name) (hnul : 0 ∉ bytes name)
    (h : t.locate home (pagePath outputDir name) = .ok p) : IsPage q name p :=
  ⟨⟨_, isName_page hslash hnul⟩, Tree.locate_join_eq_ok hq h, rfl⟩

def pageBytes (shell : Html.Shell) (name : String) (d : Document) : List UInt8 :=
  bytes (shell.page name (Html.fragment .cpp d))

/-- One document either leaves the files as they are or puts its page in its place. -/
theorem buildOne_writePage (sys : System) (outputDir : Path) (shell : Html.Shell) (s : Source)
    (t : Tree) :
    (∃ e, buildOne (writePage sys outputDir shell) s t = (some e, t)) ∨
      ∃ d p, Document.parse s.text = .ok d ∧
        t.locate sys.home (pagePath outputDir s.name) = .ok p ∧ t.node? p ≠ some .directory ∧
        buildOne (writePage sys outputDir shell) s t =
          (none, t.put p (.file (pageBytes shell s.name d))) := by
  cases hs : Document.parse s.text with
  | error e => exact .inl ⟨_, buildOne_malformed hs t⟩
  | ok d =>
    simp only [buildOne, hs, writePage]
    cases hwrite : sys.write t (pagePath outputDir s.name)
        (bytes (shell.page s.name (Html.fragment .cpp d))) with
    | error e => exact .inl ⟨_, rfl⟩
    | ok t' =>
      obtain ⟨p, hp, hnode, rfl⟩ := System.write_eq_ok_iff.1 hwrite
      exact .inr ⟨d, p, rfl, (System.reach_eq_ok_iff.1 hp).2, hnode, rfl⟩

/-- What the handling of documents has done to the files: the pages of those that were not skipped
are there, and nothing else is other than it was. -/
structure Wrote (home : Place) (outputDir : Path) (shell : Html.Shell) (q : Place)
    (hs : List Handled) (t t' : Tree) : Prop where
  directories : t.KeepsDirectories t'
  pages : ∀ h ∈ hs, h.2 = none → ∃ d, Document.parse h.1.text = .ok d ∧
    t'.Holds home (pagePath outputDir h.1.name) (pageBytes shell h.1.name d)
  others : ∀ p, (∀ h ∈ hs, h.2 = none → ¬IsPage q h.1.name p) → t'.node? p = t.node? p

section Wrote

variable {home : Place} {hs : List Handled}

theorem Wrote.nil (home : Place) (outputDir : Path) (shell : Html.Shell) (q : Place) (t : Tree) :
    Wrote home outputDir shell q [] t t :=
  ⟨fun _ hp ↦ hp, nofun, fun _ _ ↦ rfl⟩

theorem Wrote.skip (h : Wrote home outputDir shell q hs t t') (s : Source) (e : SiteError) :
    Wrote home outputDir shell q ((s, some e) :: hs) t t' where
  directories := h.directories
  pages := by
    intro x hx hfate
    rcases List.mem_cons.1 hx with rfl | hx
    · cases hfate
    · exact h.pages x hx hfate
  others := fun p hp ↦ h.others p fun x hx ↦ hp x (List.mem_cons_of_mem _ hx)

/-- A page that is written stays, for the pages written after it have other names. -/
theorem Wrote.page {s : Source} {d : Document} (hs' : Document.parse s.text = .ok d)
    (hp : t.locate home (pagePath outputDir s.name) = .ok p) (hpage : IsPage q s.name p)
    (hnode : t.node? p ≠ some .directory) (hne : ∀ h ∈ hs, s.name ≠ h.1.name)
    (h : Wrote home outputDir shell q hs (t.put p (.file (pageBytes shell s.name d))) t') :
    Wrote home outputDir shell q ((s, none) :: hs) t t' where
  directories := fun p hp ↦ h.directories p (Tree.keepsDirectories_put hnode _ p hp)
  pages := by
    have hkeeps := Tree.keepsDirectories_put hnode (.file (pageBytes shell s.name d))
    intro x hx hfate
    rcases List.mem_cons.1 hx with rfl | hx
    · refine ⟨d, hs', p, h.directories.locate (hkeeps.locate hp), ?_⟩
      rw [h.others p fun x hx _ hx' ↦ hne x hx (hpage.inj hx'),
        Tree.node?_put (Tree.ne_nil_of_node? hnode), if_pos rfl]
    · exact h.pages x hx hfate
  others := by
    intro r hr
    have hhead : r ≠ p := by
      rintro rfl
      exact hr (s, none) List.mem_cons_self rfl hpage
    rw [h.others r fun x hx ↦ hr x (List.mem_cons_of_mem _ hx),
      Tree.node?_put (Tree.ne_nil_of_node? hnode), if_neg hhead]

end Wrote

theorem build_wrote (sys : System) (shell : Html.Shell) {ss : List Source}
    (hnames : (ss.map (·.name)).Nodup) (hslash : ∀ s ∈ ss, slash ∉ bytes s.name)
    (hnul : ∀ s ∈ ss, 0 ∉ bytes s.name) (hq : t.follow sys.home (steps outputDir) = .ok q) :
    Wrote sys.home outputDir shell q (handled (writePage sys outputDir shell) ss t) t
      (build (writePage sys outputDir shell) ss t).2 := by
  induction ss generalizing t with
  | nil => exact .nil ..
  | cons s ss ih =>
    obtain ⟨hfresh, hnames⟩ := List.nodup_cons.1 hnames
    obtain ⟨hs, hslash⟩ := List.forall_mem_cons.1 hslash
    obtain ⟨hs', hnul⟩ := List.forall_mem_cons.1 hnul
    rw [build_cons, handled]
    rcases buildOne_writePage sys outputDir shell s t with ⟨e, hone⟩ | ⟨d, p, hd, hp, hnode, hone⟩
    · rw [hone]
      exact (ih hnames hslash hnul hq).skip s e
    · rw [hone]
      have hkeeps := Tree.keepsDirectories_put hnode (.file (pageBytes shell s.name d))
      refine .page hd hp (isPage_of_locate hq hs hs' hp) hnode ?_
        (ih hnames hslash hnul (hkeeps.follow hq))
      intro x hx hname
      refine hfresh (List.mem_map.2 ⟨x.1, ?_, hname.symm⟩)
      rw [← map_fst_handled (writePage sys outputDir shell) ss]
      exact List.mem_map_of_mem hx

theorem mem_rendered_of {hs : List Handled} {n : String} :
    n ∈ (Report.of hs).rendered ↔ ∃ h ∈ hs, h.2 = none ∧ h.1.name = n := by
  simp [Report.of, and_assoc]

theorem mem_skipped_of {hs : List Handled} {n : String} :
    n ∈ (Report.of hs).skipped.map Prod.fst ↔ ∃ h ∈ hs, h.2 ≠ none ∧ h.1.name = n := by
  simp only [Report.of, List.mem_map, List.mem_filterMap, Option.map_eq_some_iff,
    Option.ne_none_iff_exists']
  constructor
  · rintro ⟨-, ⟨h, hh, e, he, rfl⟩, rfl⟩
    exact ⟨h, hh, ⟨e, he⟩, rfl⟩
  · rintro ⟨h, hh, ⟨e, he⟩, rfl⟩
    exact ⟨_, ⟨h, hh, e, he, rfl⟩, rfl⟩

theorem names_of_perm (hs : List Handled) :
    ((Report.of hs).rendered ++ (Report.of hs).skipped.map Prod.fst).Perm
      (hs.map (·.1.name)) := by
  induction hs with
  | nil => exact .nil
  | cons h hs ih =>
    rw [Report.of_cons]
    obtain ⟨s, fate⟩ := h
    cases fate with
    | none => exact ih.cons s.name
    | some e => exact List.perm_middle.trans (ih.cons s.name)

/-- What a build that gives a report has done. The names in the report are those of the documents
that were collected, each once; the pages of the rendered ones are there, made from the text that
was read before; and every other file is as before, also where the page of a skipped document
would be. -/
structure Built (sys : System) (s : Config.Settings) (t t' : Tree) (r : Report)
    (sources : List Source) : Prop where
  collected : collect sys t s.sourceDir s.extension = .ok sources
  texts : ∀ source ∈ sources, t.Holds sys.home
    (join s.sourceDir (bytes (source.name ++ "." ++ s.extension))) (bytes source.text)
  names : (r.rendered ++ r.skipped.map Prod.fst).Perm (sources.map (·.name))
  nodup : (r.rendered ++ r.skipped.map Prod.fst).Nodup
  pages : ∀ n ∈ r.rendered, ∃ source ∈ sources, source.name = n ∧
    ∃ d, Document.parse source.text = .ok d ∧ t'.Holds sys.home (pagePath s.outputDir n)
      (bytes (Html.Shell.page ⟨s.stylesheet⟩ n (Html.fragment .cpp d)))
  others : ∀ p, (∀ n ∈ r.rendered, t'.locate sys.home (pagePath s.outputDir n) ≠ .ok p) →
    t.SameFile t' p
  skipped : ∀ n ∈ r.skipped.map Prod.fst, ∀ p,
    t'.locate sys.home (pagePath s.outputDir n) = .ok p → t.SameFile t' p

theorem built {s : Config.Settings} {t₁ : Tree} {sources : List Source}
    (hcollect : collect sys t s.sourceDir s.extension = .ok sources) (hwidens : t.Widens t₁)
    (hq : t₁.follow sys.home (steps s.outputDir) = .ok q) :
    Built sys s t (build (writePage sys s.outputDir ⟨s.stylesheet⟩) sources t₁).2
      (build (writePage sys s.outputDir ⟨s.stylesheet⟩) sources t₁).1 sources := by
  have hsources := collected hcollect
  have hwrote := build_wrote sys ⟨s.stylesheet⟩ hsources.nodup hsources.no_slash hsources.no_nul hq
  have hfst := map_fst_handled (writePage sys s.outputDir ⟨s.stylesheet⟩) sources t₁
  have hq' := hwrote.directories.follow hq
  rw [build_report]
  generalize handled (writePage sys s.outputDir ⟨s.stylesheet⟩) sources t₁ = hs at hwrote hfst
  generalize (build (writePage sys s.outputDir ⟨s.stylesheet⟩) sources t₁).2 = t' at hwrote hq'
  have hmem : ∀ h ∈ hs, h.1 ∈ sources := fun h hh ↦ hfst ▸ List.mem_map_of_mem hh
  have hpage : ∀ h ∈ hs, ∀ p, t'.locate sys.home (pagePath s.outputDir h.1.name) = .ok p →
      IsPage q h.1.name p :=
    fun h hh p hp ↦ isPage_of_locate hq' (hsources.no_slash _ (hmem h hh))
      (hsources.no_nul _ (hmem h hh)) hp
  have hnames : ((Report.of hs).rendered ++ (Report.of hs).skipped.map Prod.fst).Perm
      (sources.map (·.name)) := by
    rw [← hfst, List.map_map]
    exact names_of_perm hs
  have hnodup := hnames.nodup_iff.2 hsources.nodup
  have hothers : ∀ p, (∀ n ∈ (Report.of hs).rendered,
      t'.locate sys.home (pagePath s.outputDir n) ≠ .ok p) → t.SameFile t' p := by
    intro p hp content
    have hother : t'.node? p = t₁.node? p := by
      refine hwrote.others p fun h hh hfate hpage' ↦ ?_
      obtain ⟨d, -, r, hr, -⟩ := hwrote.pages h hh hfate
      obtain rfl := hpage'.eq (hpage h hh r hr)
      exact hp h.1.name (mem_rendered_of.2 ⟨h, hh, hfate, rfl⟩) hr
    rw [hother]
    exact hwidens.files p content
  refine ⟨hcollect, hsources.texts, hnames, hnodup, ?_, hothers, ?_⟩
  · intro n hn
    obtain ⟨h, hh, hfate, rfl⟩ := mem_rendered_of.1 hn
    obtain ⟨d, hd, hholds⟩ := hwrote.pages h hh hfate
    exact ⟨h.1, hmem h hh, rfl, d, hd, hholds⟩
  · intro n hn p hp
    refine hothers p fun m hm hsame ↦ ?_
    obtain ⟨h, hh, -, rfl⟩ := mem_skipped_of.1 hn
    obtain ⟨k, hk, -, rfl⟩ := mem_rendered_of.1 hm
    -- one place for both pages is one name for both documents
    have hname := (hpage k hk p hsame).inj (hpage h hh p hp)
    exact (List.nodup_append.1 hnodup).2.2 _ hm _ hn hname

/-- A build writes its pages and no other file. One that fails as a whole writes no file at all. -/
theorem buildFiles_writes_only_pages (sys : System) (s : Config.Settings) (t : Tree) :
    match buildFiles sys s t with
    | (.ok r, t') => ∃ sources, Built sys s t t' r sources
    | (.error _, t') => ∀ p, t.SameFile t' p := by
  unfold buildFiles
  cases hcollect : collect sys t s.sourceDir s.extension with
  | error e => exact fun p content ↦ Iff.rfl
  | ok sources =>
    rcases hmake : sys.makeDirectories t s.outputDir with ⟨_ | _, t₁⟩
    · exact (System.makeDirectories_widens hmake).files
    · obtain ⟨q, hq⟩ := System.makeDirectories_ok hmake
      exact ⟨sources, built hcollect (System.makeDirectories_widens hmake) hq⟩

end Folio.Site
