import Folio.Proofs.Files.Writes

namespace Folio.Files.Tree

variable {t : Tree} {p : Place}

def childIn (p : Place) (e : Place × Node) : Option Name :=
  if e.1.dropLast = p then e.1.getLast? else none

theorem childIn_eq_some_iff {e : Place × Node} {n : Name} :
    childIn p e = some n ↔ e.1 = p ++ [n] := by
  unfold childIn
  constructor
  · intro h
    split at h
    · next hparent =>
      obtain ⟨front, hfront⟩ := List.getLast?_eq_some_iff.1 h
      rw [hfront, List.dropLast_concat] at hparent
      rw [hfront, hparent]
    · cases h
  · intro h
    simp [h]

theorem mem_children_iff {n : Name} : n ∈ t.children p ↔ t.node? (p ++ [n]) ≠ none := by
  have hne : p ++ [n] ≠ [] := by simp
  rw [Option.ne_none_iff_exists', children, List.mem_filterMap]
  constructor
  · rintro ⟨⟨q, m⟩, he, hchild⟩
    obtain rfl : q = p ++ [n] := childIn_eq_some_iff.1 hchild
    exact ⟨m, (node?_eq_some_iff hne).2 he⟩
  · rintro ⟨m, hm⟩
    exact ⟨_, (node?_eq_some_iff hne).1 hm, childIn_eq_some_iff.2 rfl⟩

/-- A directory lists each name once. -/
theorem nodup_children (t : Tree) (p : Place) : (t.children p).Nodup := by
  have hdistinct := t.distinct
  rw [List.nodup_iff_pairwise_ne, List.pairwise_map] at hdistinct
  rw [List.nodup_iff_pairwise_ne, children, List.pairwise_filterMap]
  refine hdistinct.imp fun {a b} hab n hn m hm hnm ↦ hab ?_
  rw [childIn_eq_some_iff.1 hn, childIn_eq_some_iff.1 hm, hnm]

end Folio.Files.Tree
