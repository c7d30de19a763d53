import Folio.Files.System
import Folio.Proofs.Files.Paths
import Folio.Proofs.Text.Utf8
import Mathlib.Data.List.Nodup

namespace Folio.Files

theorem Node.content?_eq_some_iff {n : Node} {content : List UInt8} :
    n.content? = some content ↔ n = .file content := by
  cases n <;> simp [content?]

namespace Tree

variable {t t' : Tree} {home p q : Place} {n : Node}

theorem node?_eq_some_iff (hp : p ≠ []) : t.node? p = some n ↔ (p, n) ∈ t.entries := by
  rw [node?_of_ne_nil hp, Option.map_eq_some_iff]
  constructor
  · rintro ⟨e, he, rfl⟩
    obtain rfl : e.1 = p := by simpa using List.find?_some he
    exact List.mem_of_find?_eq_some he
  · intro hmem
    have hfound : (t.entries.find? (·.1 == p)).isSome := by
      rw [List.find?_isSome]
      exact ⟨(p, n), hmem, beq_self_eq_true p⟩
    obtain ⟨e, he⟩ := Option.isSome_iff_exists.1 hfound
    have hkey : e.1 = p := by simpa using List.find?_some he
    obtain rfl : e = (p, n) :=
      List.inj_on_of_nodup_map t.distinct (List.mem_of_find?_eq_some he) hmem hkey
    exact ⟨_, he, rfl⟩

theorem mem_putEntry {entries : List (Place × Node)} {e : Place × Node} :
    e ∈ putEntry entries p n ↔ e = (p, n) ∨ e ∈ entries ∧ e.1 ≠ p := by
  unfold putEntry
  split
  · next hmem =>
    rw [List.mem_map]
    constructor
    · rintro ⟨e', he', rfl⟩
      by_cases heq : e'.1 = p
      · exact .inl (by simp [heq])
      · exact .inr (by simpa [heq] using he')
    · rintro (rfl | ⟨he, hne⟩)
      · obtain ⟨e', he', rfl⟩ := List.mem_map.1 hmem
        exact ⟨e', he', by simp⟩
      · exact ⟨e, he, by simp [hne]⟩
  · next hnew =>
    rw [List.mem_append, List.mem_singleton, or_comm]
    refine or_congr_right ⟨fun he ↦ ⟨he, ?_⟩, And.left⟩
    rintro rfl
    exact hnew (List.mem_map_of_mem he)

theorem node?_put (hp : p ≠ []) (n : Node) (q : Place) :
    (t.put p n).node? q = if q = p then some n else t.node? q := by
  by_cases hq : q = []
  · subst hq
    rw [if_neg (Ne.symm hp)]
    rfl
  · apply Option.ext
    intro m
    rw [node?_eq_some_iff hq, put, mem_putEntry]
    split
    · next heq => simp [heq, eq_comm]
    · next hne => simp [hne, node?_eq_some_iff hq]

theorem ne_nil_of_node? (h : t.node? p ≠ some .directory) : p ≠ [] := by
  rintro rfl
  exact h rfl

theorem keepsDirectories_put (h : t.node? p ≠ some .directory) (n : Node) :
    t.KeepsDirectories (t.put p n) := by
  intro q hq
  have hne : q ≠ p := by
    rintro rfl
    exact h hq
  rw [node?_put (ne_nil_of_node? h), if_neg hne, hq]

def Holds (t : Tree) (home : Place) (path : Path) (content : List UInt8) : Prop :=
  ∃ p, t.locate home path = .ok p ∧ t.node? p = some (.file content)

def SameFile (t t' : Tree) (q : Place) : Prop :=
  ∀ content, t'.node? q = some (.file content) ↔ t.node? q = some (.file content)

structure Widens (t t' : Tree) : Prop where
  directories : t.KeepsDirectories t'
  files : ∀ q, t.SameFile t' q

theorem Widens.refl (t : Tree) : t.Widens t :=
  ⟨fun _ hq ↦ hq, fun _ _ ↦ Iff.rfl⟩

theorem Widens.trans {t'' : Tree} (h : t.Widens t') (h' : t'.Widens t'') : t.Widens t'' :=
  ⟨fun q hq ↦ h'.directories q (h.directories q hq),
    fun q c ↦ (h'.files q c).trans (h.files q c)⟩

theorem widens_put_directory (h : t.node? p = none) : t.Widens (t.put p .directory) := by
  have hp : t.node? p ≠ some .directory := by simp [h]
  refine ⟨keepsDirectories_put hp .directory, fun q content ↦ ?_⟩
  rw [node?_put (ne_nil_of_node? hp)]
  split
  · next hq => simp [hq, h]
  · rfl

end Tree

namespace System

variable {sys : System} {t t' : Tree}

theorem reach_eq_ok_iff {path : Path} {act : Act} {p : Place} :
    sys.reach t path act = .ok p ↔
      sys.refusal? t (parts path) act = none ∧ t.locate sys.home path = .ok p := by
  unfold reach permit
  cases sys.refusal? t (parts path) act with
  | none => simp [bind, Except.bind]
  | some reason => simp [bind, Except.bind]

theorem isFile_eq_true_iff {path : Path} :
    sys.isFile t path = true ↔ ∃ p content, sys.reach t path .look = .ok p ∧
      t.node? p = some (.file content) := by
  unfold isFile
  cases sys.reach t path .look with
  | error e => simp
  | ok p => rcases hnode : t.node? p with _ | ⟨_ | _⟩ <;> simp [Node.content?, hnode]

theorem read_eq_ok_iff {path : Path} {content : List UInt8} :
    sys.read t path = .ok content ↔ ∃ p, sys.reach t path .read = .ok p ∧
      t.node? p = some (.file content) := by
  unfold read
  cases sys.reach t path .read with
  | error e => simp [bind, Except.bind]
  | ok p => rcases hnode : t.node? p with _ | ⟨_ | _⟩ <;> simp [bind, Except.bind, hnode]

theorem readText_eq_ok {path : Path} {text : String} (h : sys.readText t path = .ok text) :
    t.Holds sys.home path (Text.bytes text) := by
  unfold readText at h
  cases hread : sys.read t path with
  | error e => simp [hread, bind, Except.bind] at h
  | ok content =>
    obtain ⟨p, hp, hnode⟩ := read_eq_ok_iff.1 hread
    refine ⟨p, (reach_eq_ok_iff.1 hp).2, ?_⟩
    simp only [hread, bind, Except.bind] at h
    split at h
    · next htext =>
      obtain rfl := Except.ok.inj h
      rw [hnode, Text.ofBytes?_eq_some_iff.1 htext]
    · cases h

theorem list_eq_ok_iff {path : Path} {names : List Name} :
    sys.list t path = .ok names ↔ ∃ p, sys.reach t path .list = .ok p ∧
      t.node? p = some .directory ∧ sys.arrange t p (t.children p) = names := by
  unfold list
  cases sys.reach t path .list with
  | error e => simp [bind, Except.bind]
  | ok p =>
    cases hneed : t.needDirectory p with
    | error e =>
      have hne : t.node? p ≠ some .directory := by simp [← Tree.needDirectory_eq_ok_iff, hneed]
      simp [bind, Except.bind, hneed, hne]
    | ok u => simp [bind, Except.bind, hneed, Tree.needDirectory_eq_ok_iff.1 hneed]

/-- A write is refused, or puts the file at the place that the path leads to. -/
theorem write_eq_ok_iff {path : Path} {content : List UInt8} :
    sys.write t path content = .ok t' ↔ ∃ p, sys.reach t path (.write content) = .ok p ∧
      t.node? p ≠ some .directory ∧ t' = t.put p (.file content) := by
  unfold write
  cases sys.reach t path (.write content) with
  | error e => simp [bind, Except.bind]
  | ok p =>
    rcases hnode : t.node? p with _ | ⟨_ | _⟩ <;> simp [bind, Except.bind, hnode, eq_comm]

/-- A directory that is made is there already, or is put where nothing was. -/
theorem makeDirectory_cases {path : List Step} (h : sys.makeDirectory t path = .ok t') :
    ∃ p, t.follow sys.home path = .ok p ∧
      (t.node? p = some .directory ∧ t' = t ∨ t.node? p = none ∧ t' = t.put p .directory) := by
  unfold makeDirectory at h
  cases hpermit : sys.permit t path .make with
  | error e => simp [hpermit, bind, Except.bind] at h
  | ok u =>
    cases hp : t.follow sys.home path with
    | error e => simp [hpermit, hp, bind, Except.bind] at h
    | ok p =>
      simp only [hpermit, hp, bind, Except.bind] at h
      rcases hnode : t.node? p with _ | ⟨_ | _⟩
      · simp only [hnode, Except.ok.injEq] at h
        exact ⟨p, rfl, .inr ⟨hnode, h.symm⟩⟩
      · simp [hnode] at h
      · simp only [hnode, Except.ok.injEq] at h
        exact ⟨p, rfl, .inl ⟨hnode, h.symm⟩⟩

theorem makeDirectory_ok {path : List Step} (h : sys.makeDirectory t path = .ok t') :
    t.Widens t' ∧ ∃ p, t'.follow sys.home path = .ok p := by
  obtain ⟨p, hp, ⟨-, rfl⟩ | ⟨hnode, rfl⟩⟩ := makeDirectory_cases h
  · exact ⟨.refl t', p, hp⟩
  · have hwidens := Tree.widens_put_directory hnode
    exact ⟨hwidens, p, hwidens.directories.follow hp⟩

theorem makeEach_widens {paths : List (List Step)} {r : Except FileError Unit}
    (h : sys.makeEach t paths = (r, t')) : t.Widens t' := by
  induction paths generalizing t with
  | nil =>
    obtain ⟨-, rfl⟩ := Prod.mk.inj h
    exact .refl t
  | cons path paths ih =>
    rw [makeEach] at h
    split at h
    · next hmake => exact (makeDirectory_ok hmake).1.trans (ih h)
    · obtain ⟨-, rfl⟩ := Prod.mk.inj h
      exact .refl t

/-- Where all of the directories could be made, the path to the last of them leads somewhere. -/
theorem makeEach_concat {paths : List (List Step)} {path : List Step}
    (h : sys.makeEach t (paths ++ [path]) = (.ok (), t')) :
    ∃ p, t'.follow sys.home path = .ok p := by
  induction paths generalizing t with
  | nil =>
    rw [List.nil_append, makeEach] at h
    split at h
    · next hmake =>
      obtain ⟨-, rfl⟩ := Prod.mk.inj h
      exact (makeDirectory_ok hmake).2
    · cases (Prod.mk.inj h).1
  | cons first paths ih =>
    rw [List.cons_append, makeEach] at h
    split at h
    · exact ih h
    · cases (Prod.mk.inj h).1

theorem makeDirectories_widens {path : Path} {r : Except FileError Unit}
    (h : sys.makeDirectories t path = (r, t')) : t.Widens t' := by
  unfold makeDirectories at h
  split at h
  · obtain ⟨-, rfl⟩ := Prod.mk.inj h
    exact .refl t
  · split at h
    · obtain ⟨-, rfl⟩ := Prod.mk.inj h
      exact .refl t
    · split at h
      · next hmake =>
        obtain ⟨-, rfl⟩ := Prod.mk.inj h
        exact (makeDirectory_ok hmake).1
      · exact makeEach_widens h
      · obtain ⟨-, rfl⟩ := Prod.mk.inj h
        exact .refl t

theorem makeDirectories_ok {path : Path} (h : sys.makeDirectories t path = (.ok (), t')) :
    ∃ p, t'.follow sys.home (steps path) = .ok p := by
  unfold makeDirectories at h
  split at h
  · cases (Prod.mk.inj h).1
  · split at h
    · next hempty =>
      obtain rfl := List.isEmpty_iff.1 hempty
      exact ⟨sys.home, by rfl⟩
    · split at h
      · next hmake =>
        obtain ⟨-, rfl⟩ := Prod.mk.inj h
        exact (makeDirectory_ok hmake).2
      · exact makeEach_concat h
      · cases (Prod.mk.inj h).1

end System

end Folio.Files
