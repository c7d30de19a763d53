import Folio.Proofs.Files.Listings
import Folio.Proofs.Files.Names
import Folio.Site.Sources

namespace Folio.Site

open Files Text

variable {sys : System} {t : Tree} {directory : Path} {extension : String} {n : Name} {p : Place}

/-- A name in a directory stands for a document: a file with the extension, whose stem and content
are texts. -/
structure IsDocument (t : Tree) (p : Place) (extension : String) (n : Name) (s : Source) : Prop where
  file : t.node? (p ++ [n]) = some (.file (bytes s.text))
  cut : IsCut n (bytes s.name) (bytes extension)

/-- The two tests that a name passes before its file is read. -/
theorem sourceOf_eq_ok_some {s : Source}
    (h : sourceOf sys t directory extension n = .ok (some s)) :
    IsCut n (bytes s.name) (bytes extension) ∧
      sys.readText t (join directory n.bytes) = .ok s.text := by
  unfold sourceOf at h
  dsimp only at h
  split at h
  · cases h
  · next htests =>
    simp only [Bool.or_eq_true, not_or, decide_eq_true_eq, not_not] at htests
    obtain ⟨ext, hext, htext⟩ := Option.bind_eq_some_iff.1 htests.2
    obtain ⟨front, hcut⟩ := extension?_eq_some_iff.1 hext
    obtain rfl := ofBytes?_eq_some_iff.1 htext
    split at h
    · cases h
    · next name hstem =>
      rw [hcut.stem_eq, ofBytes?_eq_some_iff] at hstem
      subst hstem
      split at h
      · cases h
      · next text hread =>
        obtain rfl := Option.some.inj (Except.ok.inj h)
        exact ⟨hcut, hread⟩

theorem visit_eq_ok {found : Option Source}
    (h : visit sys t directory extension n = .ok found) :
    sourceOf sys t directory extension n = .ok found := by
  unfold visit System.next at h
  cases hpermit : sys.permit t (parts directory) (.next n) with
  | error e => simp [hpermit, bind, Except.bind] at h
  | ok u => simpa [hpermit, bind, Except.bind] using h

theorem isDocument_of_visit {s : Source} (hp : t.locate sys.home directory = .ok p)
    (hdirectory : t.node? p = some .directory)
    (h : visit sys t directory extension n = .ok (some s)) : IsDocument t p extension n s := by
  obtain ⟨hcut, hread⟩ := sourceOf_eq_ok_some (visit_eq_ok h)
  obtain ⟨q, hq, hnode⟩ := System.readText_eq_ok hread
  obtain rfl := Except.ok.inj ((Tree.locate_join hp hdirectory n).symm.trans hq)
  exact ⟨hnode, hcut⟩

/-- Distinct names stand for documents of distinct names, since their stems are distinct too. -/
theorem of_mapM_visit (hp : t.locate sys.home directory = .ok p)
    (hdirectory : t.node? p = some .directory) {names : List Name} (hnames : names.Nodup)
    {found : List (Option Source)}
    (h : names.mapM (visit sys t directory extension) = .ok found) :
    (found.reduceOption.map (·.name)).Nodup ∧
      ∀ s ∈ found.reduceOption, ∃ n ∈ names, IsDocument t p extension n s := by
  induction names generalizing found with
  | nil =>
    obtain rfl := Except.ok.inj h
    exact ⟨.nil, nofun⟩
  | cons n names ih =>
    obtain ⟨hn, hnames⟩ := List.nodup_cons.1 hnames
    rw [List.mapM_cons] at h
    cases hone : visit sys t directory extension n with
    | error e => simp [hone, bind, Except.bind] at h
    | ok one =>
      cases hrest : names.mapM (visit sys t directory extension) with
      | error e => simp [hone, hrest, bind, Except.bind] at h
      | ok rest =>
        simp only [hone, hrest, bind, Except.bind, pure, Except.pure, Except.ok.injEq] at h
        subst h
        obtain ⟨hnodup, hdocuments⟩ := ih hnames hrest
        cases one with
        | none =>
          refine ⟨hnodup, fun s hs ↦ ?_⟩
          obtain ⟨m, hm, hdocument⟩ := hdocuments s hs
          exact ⟨m, List.mem_cons_of_mem n hm, hdocument⟩
        | some s =>
          have hs := isDocument_of_visit hp hdirectory hone
          refine ⟨List.nodup_cons.2 ⟨?_, hnodup⟩, fun s' hs' ↦ ?_⟩
          · intro hmem
            obtain ⟨s', hs', hname⟩ := List.mem_map.1 hmem
            obtain ⟨m, hm, hdocument⟩ := hdocuments s' hs'
            have hcut := hdocument.cut
            rw [hname] at hcut
            exact hn (hs.cut.name_inj hcut ▸ hm)
          · rcases List.mem_cons.1 hs' with rfl | hs'
            · exact ⟨n, List.mem_cons_self, hs⟩
            · obtain ⟨m, hm, hdocument⟩ := hdocuments s' hs'
              exact ⟨m, List.mem_cons_of_mem n hm, hdocument⟩

/-- What holds of the documents of a directory: their names are distinct and can be names of files,
and their texts stand in its files. -/
structure Collected (sys : System) (t : Tree) (directory : Path) (extension : String)
    (sources : List Source) : Prop where
  nodup : (sources.map (·.name)).Nodup
  no_slash : ∀ s ∈ sources, slash ∉ bytes s.name
  no_nul : ∀ s ∈ sources, 0 ∉ bytes s.name
  texts : ∀ s ∈ sources,
    t.Holds sys.home (join directory (bytes (s.name ++ "." ++ extension))) (bytes s.text)

theorem IsDocument.bytes_eq {n : Name} {s : Source} (h : IsDocument t p extension n s) :
    bytes (s.name ++ "." ++ extension) = n.bytes := by
  have hdot : bytes "." = [dot] := by decide +kernel
  rw [bytes_append, bytes_append, hdot, h.cut.eq, List.append_assoc]
  rfl

theorem collected {sources : List Source} (h : collect sys t directory extension = .ok sources) :
    Collected sys t directory extension sources := by
  unfold collect at h
  split at h
  · cases h
  · next names hlist =>
    obtain ⟨p, hreach, hdirectory, rfl⟩ := System.list_eq_ok_iff.1 hlist
    have hp := (System.reach_eq_ok_iff.1 hreach).2
    cases hfound : (sys.arrange t p (t.children p)).mapM (visit sys t directory extension) with
    | error e => simp [hfound, bind, Except.bind] at h
    | ok found =>
      simp only [hfound, bind, Except.bind, Except.ok.injEq] at h
      subst h
      have hnames := (sys.arrange_perm t p _).nodup_iff.2 (t.nodup_children p)
      obtain ⟨hnodup, hdocuments⟩ := of_mapM_visit hp hdirectory hnames hfound
      have hperm := found.reduceOption.mergeSort_perm fun a b ↦ a.name ≤ b.name
      have hmem : ∀ s ∈ found.reduceOption.mergeSort fun a b ↦ a.name ≤ b.name,
          ∃ n, IsDocument t p extension n s := by
        intro s hs
        obtain ⟨n, -, hdocument⟩ := hdocuments s (hperm.mem_iff.1 hs)
        exact ⟨n, hdocument⟩
      refine ⟨(hperm.map _).nodup_iff.2 hnodup, fun s hs hslash ↦ ?_, fun s hs hnul ↦ ?_,
        fun s hs ↦ ?_⟩
      all_goals obtain ⟨n, hdocument⟩ := hmem s hs
      · refine n.isName.no_slash ?_
        rw [hdocument.cut.eq]
        exact List.mem_append_left _ hslash
      · refine n.isName.no_nul ?_
        rw [hdocument.cut.eq]
        exact List.mem_append_left _ hnul
      · rw [hdocument.bytes_eq]
        exact ⟨p ++ [n], Tree.locate_join hp hdirectory n, hdocument.file⟩

end Folio.Site
