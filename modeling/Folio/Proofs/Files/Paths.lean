import Folio.Files.Tree
import Mathlib.Data.List.Basic

namespace Folio.Files

open Text

def stepsWithin (bs : List UInt8) : List Step :=
  (splitOn slash bs).filterMap Step.ofBytes?

theorem steps_eq (path : Path) :
    steps path = (if isAbsolute path then [.root] else []) ++ stepsWithin path :=
  rfl

theorem stepsWithin_append_slash (bs bs' : List UInt8) :
    stepsWithin (bs ++ slash :: bs') = stepsWithin bs ++ stepsWithin bs' := by
  rw [stepsWithin, splitOn_append_sep, List.filterMap_append]
  rfl

theorem Name.stepsWithin_eq (n : Name) : stepsWithin n.bytes = [.name n] := by
  have hstep : Step.ofBytes? n.bytes = some (.name n) := by
    rw [Step.ofBytes?, if_neg n.isName.ne_here, if_neg n.isName.ne_above, dif_pos n.isName]
  rw [stepsWithin, splitOn_of_not_mem n.isName.no_slash, List.filterMap_cons_some hstep]
  rfl

theorem Name.isAbsolute_eq (n : Name) : isAbsolute n.bytes = false := by
  rw [isAbsolute, decide_eq_false_iff_not]
  exact fun hhead ↦ n.isName.no_slash (List.mem_of_mem_head? hhead)

/-- One slash stands between a directory and what is in it, whether the directory is written with
one at its end or not. -/
theorem join_cases (directory : Path) (n : Name) :
    directory = [] ∧ join directory n.bytes = n.bytes ∨
      ∃ front, (directory = front ++ [slash] ∨ directory = front ∧ directory ≠ []) ∧
        join directory n.bytes = front ++ slash :: n.bytes := by
  unfold join
  by_cases hempty : directory = []
  · exact .inl ⟨hempty, if_pos (by simp [hempty])⟩
  · rw [if_neg (by simpa [n.isAbsolute_eq] using hempty)]
    split
    · next hlast =>
      obtain ⟨front, rfl⟩ := List.getLast?_eq_some_iff.1 hlast
      exact .inr ⟨front, .inl rfl, List.append_assoc ..⟩
    · exact .inr ⟨directory, .inr ⟨rfl, hempty⟩, rfl⟩

/-- A name behind a path is one more step. -/
theorem steps_join (directory : Path) (n : Name) :
    steps (join directory n.bytes) = steps directory ++ [.name n] := by
  have hnone : stepsWithin [] = [] := by decide
  obtain ⟨rfl, hjoin⟩ | ⟨front, hfront, hjoin⟩ := join_cases directory n
  · rw [hjoin, steps_eq, steps_eq, n.isAbsolute_eq, n.stepsWithin_eq, hnone]
    rfl
  · rw [hjoin, steps_eq, steps_eq, stepsWithin_append_slash, n.stepsWithin_eq,
      ← List.append_assoc]
    obtain rfl | ⟨rfl, hne⟩ := hfront
    · have habsolute : isAbsolute (front ++ slash :: n.bytes) = isAbsolute (front ++ [slash]) := by
        cases front <;> rfl
      rw [habsolute, stepsWithin_append_slash, hnone, List.append_nil]
    · have habsolute : isAbsolute (directory ++ slash :: n.bytes) = isAbsolute directory := by
        rw [isAbsolute, isAbsolute, List.head?_append_of_ne_nil _ hne]
      rw [habsolute]

theorem exists_append_join (directory : Path) (n : Name) :
    ∃ front, join directory n.bytes = front ++ n.bytes := by
  obtain ⟨-, hjoin⟩ | ⟨front, -, hjoin⟩ := join_cases directory n
  · exact ⟨[], hjoin⟩
  · exact ⟨front ++ [slash], by rw [hjoin, List.append_assoc]; rfl⟩

theorem join_ne_nil (directory : Path) (n : Name) : join directory n.bytes ≠ [] := by
  obtain ⟨front, hjoin⟩ := exists_append_join directory n
  rw [hjoin]
  exact List.append_ne_nil_of_right_ne_nil _ n.isName.ne_nil

theorem nul_not_mem_join {directory : Path} (h : 0 ∉ directory) (n : Name) :
    0 ∉ join directory n.bytes := by
  have hslash : (0 : UInt8) ≠ slash := by decide
  obtain ⟨-, hjoin⟩ | ⟨front, hfront, hjoin⟩ := join_cases directory n
  · rw [hjoin]
    exact n.isName.no_nul
  · have hnul : 0 ∉ front := by
      obtain rfl | ⟨rfl, -⟩ := hfront
      · exact fun hmem ↦ h (List.mem_append_left _ hmem)
      · exact h
    simp [hjoin, hnul, hslash, n.isName.no_nul]

theorem parts_join (directory : Path) (n : Name) :
    parts (join directory n.bytes) = steps directory ++ [.name n] := by
  obtain ⟨front, hjoin⟩ := exists_append_join directory n
  have hlast : (join directory n.bytes).getLast? ≠ some slash := by
    rw [hjoin, List.getLast?_append_of_ne_nil _ n.isName.ne_nil]
    exact fun hlast ↦ n.isName.no_slash (List.mem_of_getLast? hlast)
  rw [parts, steps_join directory n, if_neg hlast, List.append_nil]

namespace Tree

variable {t t' : Tree} {home here p : Place}

theorem node?_of_ne_nil (hp : p ≠ []) :
    t.node? p = (t.entries.find? (·.1 == p)).map Prod.snd := by
  cases p with
  | nil => exact absurd rfl hp
  | cons name p => rfl

theorem needDirectory_eq_ok_iff : t.needDirectory p = .ok () ↔ t.node? p = some .directory := by
  unfold needDirectory
  rcases t.node? p with _ | ⟨_ | _⟩ <;> simp

theorem follow_append (here : Place) (path path' : List Step) :
    t.follow here (path ++ path') = t.follow here path >>= fun p ↦ t.follow p path' := by
  rw [follow, List.foldlM_append]
  rfl

theorem follow_name_eq_ok_iff {n : Name} :
    t.follow here [.name n] = .ok p ↔ t.node? here = some .directory ∧ p = here ++ [n] := by
  rw [← needDirectory_eq_ok_iff]
  simp only [follow, List.foldlM_cons, List.foldlM_nil, step, bind, Except.bind, pure, Except.pure]
  cases t.needDirectory here with
  | error e => simp
  | ok u => simp [eq_comm]

/-- What a path leads to is what its steps lead to. A slash at its end adds a step that stays where
it is. -/
theorem follow_of_locate {path : Path} (h : t.locate home path = .ok p) :
    t.follow home (steps path) = .ok p := by
  unfold locate parts at h
  split at h
  · cases h
  · split at h
    · cases h
    · rw [follow_append] at h
      cases hq : t.follow home (steps path) with
      | error e => simp [hq, bind, Except.bind] at h
      | ok q =>
        rw [hq] at h
        split at h
        · simp only [bind, Except.bind, follow, List.foldlM_cons, List.foldlM_nil, step] at h
          cases hneed : t.needDirectory q with
          | error e => simp [hneed] at h
          | ok u => simpa [hneed, pure, Except.pure] using h
        · exact h

theorem nul_not_mem_of_locate {path : Path} (h : t.locate home path = .ok p) : 0 ∉ path := by
  intro hmem
  rw [locate, if_pos hmem] at h
  cases h

/-- A name behind a path to a directory leads to that name in the directory, and nowhere else. -/
theorem locate_join_eq_ok {directory : Path} {q : Place} {n : Name}
    (hq : t.follow home (steps directory) = .ok q)
    (h : t.locate home (join directory n.bytes) = .ok p) : p = q ++ [n] := by
  have hfollow := follow_of_locate h
  rw [steps_join, follow_append, hq] at hfollow
  exact (follow_name_eq_ok_iff.1 hfollow).2

theorem locate_join {directory : Path} (h : t.locate home directory = .ok p)
    (hp : t.node? p = some .directory) (n : Name) :
    t.locate home (join directory n.bytes) = .ok (p ++ [n]) := by
  have hjoin := join_ne_nil directory n
  rw [locate, if_neg (nul_not_mem_join (nul_not_mem_of_locate h) n), if_neg (by simpa using hjoin),
    parts_join, follow_append, follow_of_locate h]
  exact follow_name_eq_ok_iff.2 ⟨hp, rfl⟩

def KeepsDirectories (t t' : Tree) : Prop :=
  ∀ q, t.node? q = some .directory → t'.node? q = some .directory

theorem KeepsDirectories.needDirectory (h : t.KeepsDirectories t')
    (hp : t.needDirectory p = .ok ()) : t'.needDirectory p = .ok () :=
  needDirectory_eq_ok_iff.2 (h p (needDirectory_eq_ok_iff.1 hp))

theorem KeepsDirectories.step {s : Step} (h : t.KeepsDirectories t')
    (hp : t.step here s = .ok p) : t'.step here s = .ok p := by
  cases s with
  | root => exact hp
  | here | above | name =>
    cases hneed : t.needDirectory here with
    | error e => simp [Tree.step, hneed, bind, Except.bind] at hp
    | ok u =>
      simpa [Tree.step, hneed, h.needDirectory hneed, bind, Except.bind] using hp

/-- Paths go on leading where they led as long as directories stay. -/
theorem KeepsDirectories.follow {path : List Step} (h : t.KeepsDirectories t')
    (hp : t.follow here path = .ok p) : t'.follow here path = .ok p := by
  induction path generalizing here with
  | nil => exact hp
  | cons s path ih =>
    rw [Tree.follow, List.foldlM_cons] at hp ⊢
    cases hs : t.step here s with
    | error e => simp [hs, bind, Except.bind] at hp
    | ok q =>
      rw [hs] at hp
      rw [h.step hs]
      exact ih hp

theorem KeepsDirectories.locate {path : Path} (h : t.KeepsDirectories t')
    (hp : t.locate home path = .ok p) : t'.locate home path = .ok p := by
  unfold Tree.locate at hp ⊢
  split
  · next hnul => rwa [if_pos hnul] at hp
  · next hnul =>
    rw [if_neg hnul] at hp
    split
    · next hempty => rwa [if_pos hempty] at hp
    · next hempty =>
      rw [if_neg hempty] at hp
      exact h.follow hp

end Tree

end Folio.Files
