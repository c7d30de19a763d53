import Folio.Files.Local
import Folio.Proofs.Site.Collection
import Folio.Proofs.Text.ByteOrder

namespace Folio.Site

open Files Text

variable {sys : System} {t : Tree} {directory : Path} {extension : String} {p : Place}

def document? (t : Tree) (p : Place) (extension : String) (n : Name) : Option Source :=
  match t.node? (p ++ [n]) with
  | some (.file content) =>
    if extension? n = some (bytes extension) then do
      some ⟨← ofBytes? (stem n), ← ofBytes? content⟩
    else none
  | some .directory | none => none

theorem bind_ofBytes?_eq_some_iff {bs? : Option (List UInt8)} {s : String} :
    bs?.bind ofBytes? = some s ↔ bs? = some (bytes s) := by
  simp [Option.bind_eq_some_iff, ofBytes?_eq_some_iff]

/-- The files in a directory that have the extension and a text for a stem are texts. -/
def TextFiles (t : Tree) (p : Place) (extension : String) : Prop :=
  ∀ (n : Name) (name : String) (content : List UInt8), t.node? (p ++ [n]) = some (.file content) →
    IsCut n (bytes name) (bytes extension) → ∃ text, content = bytes text

theorem textFiles_iff : TextFiles t p extension ↔ ∀ n ∈ t.children p,
    extension? n = some (bytes extension) → (ofBytes? (stem n)).isSome →
      ∀ content ∈ (t.node? (p ++ [n])).bind Node.content?, (ofBytes? content).isSome := by
  constructor
  · intro h n _ hextension hstem content hcontent
    obtain ⟨front, hcut⟩ := extension?_eq_some_iff.1 hextension
    obtain ⟨name, hname⟩ := Option.isSome_iff_exists.1 hstem
    rw [hcut.stem_eq, ofBytes?_eq_some_iff] at hname
    obtain ⟨node, hnode, hfile⟩ := Option.bind_eq_some_iff.1 hcontent
    obtain ⟨text, rfl⟩ := h n name content (Node.content?_eq_some_iff.1 hfile ▸ hnode) (hname ▸ hcut)
    rw [ofBytes?_bytes]
    rfl
  · intro h n name content hnode hcut
    have hmem : n ∈ t.children p := by simp [Tree.mem_children_iff, hnode]
    have hstem : (ofBytes? (stem n)).isSome := by
      rw [hcut.stem_eq, ofBytes?_bytes]
      rfl
    have hfile : content ∈ (t.node? (p ++ [n])).bind Node.content? := by simp [hnode, Node.content?]
    have hcontent := h n hmem (extension?_eq_some_iff.2 ⟨_, hcut⟩) hstem content hfile
    obtain ⟨text, htext⟩ := Option.isSome_iff_exists.1 hcontent
    exact ⟨text, ofBytes?_eq_some_iff.1 htext⟩

instance (t : Tree) (p : Place) (extension : String) : Decidable (TextFiles t p extension) :=
  decidable_of_iff' _ textFiles_iff

/-- Nothing is refused that is asked of a directory or of what is in it. -/
structure Opens (sys : System) (t : Tree) (directory : Path) : Prop where
  here (act : Act) : sys.refusal? t (parts directory) act = none
  within (n : Name) (act : Act) : sys.refusal? t (parts (join directory n.bytes)) act = none

section Opens

variable {n : Name}

theorem Opens.reach (hopens : Opens sys t directory) (hp : t.locate sys.home directory = .ok p)
    (hdirectory : t.node? p = some .directory) (n : Name) (act : Act) :
    sys.reach t (join directory n.bytes) act = .ok (p ++ [n]) :=
  System.reach_eq_ok_iff.2 ⟨hopens.within n act, Tree.locate_join hp hdirectory n⟩

theorem Opens.isFile_eq_true_iff (hopens : Opens sys t directory)
    (hp : t.locate sys.home directory = .ok p) (hdirectory : t.node? p = some .directory) :
    sys.isFile t (join directory n.bytes) = true ↔
      ∃ content, t.node? (p ++ [n]) = some (.file content) := by
  simp [System.isFile_eq_true_iff, hopens.reach hp hdirectory]

theorem Opens.readText (hopens : Opens sys t directory)
    (hp : t.locate sys.home directory = .ok p) (hdirectory : t.node? p = some .directory)
    {text : String} (hnode : t.node? (p ++ [n]) = some (.file (bytes text))) :
    sys.readText t (join directory n.bytes) = .ok text := by
  have hread := System.read_eq_ok_iff.2 ⟨_, hopens.reach hp hdirectory n .read, hnode⟩
  simp [System.readText, hread, ofBytes?_bytes, bind, Except.bind]

/-- Where nothing is refused, a name adds the document that it stands for. -/
theorem Opens.visit (hopens : Opens sys t directory) (hp : t.locate sys.home directory = .ok p)
    (hdirectory : t.node? p = some .directory) (htexts : TextFiles t p extension) (n : Name) :
    visit sys t directory extension n = .ok (document? t p extension n) := by
  have hnext : sys.next t directory n = .ok n := by
    simp [System.next, System.permit, hopens.here, bind, Except.bind]
  have hfile := hopens.isFile_eq_true_iff hp hdirectory (n := n)
  have hextension : (extension? n).bind ofBytes? = some extension ↔
      extension? n = some (bytes extension) := bind_ofBytes?_eq_some_iff
  rw [Site.visit, hnext]
  unfold sourceOf document?
  dsimp only
  rcases hnode : t.node? (p ++ [n]) with _ | content | _
  · have hno : sys.isFile t (join directory n.bytes) = false := by simpa [hnode] using hfile
    simp [hno]
  · have hyes : sys.isFile t (join directory n.bytes) = true := hfile.2 ⟨content, hnode⟩
    dsimp only
    by_cases hext : extension? n = some (bytes extension)
    · rw [if_neg (by simp [hyes, hextension.2 hext]), if_pos hext]
      cases hstem : ofBytes? (stem n) with
      | none => rfl
      | some name =>
        obtain ⟨front, hcut⟩ := extension?_eq_some_iff.1 hext
        rw [hcut.stem_eq, ofBytes?_eq_some_iff] at hstem
        obtain ⟨text, rfl⟩ := htexts n name content hnode (hstem ▸ hcut)
        simp only [hopens.readText hp hdirectory hnode, ofBytes?_bytes]
        rfl
    · rw [if_pos (by simp [hextension, hext]), if_neg hext]
  · have hno : sys.isFile t (join directory n.bytes) = false := by simpa [hnode] using hfile
    simp [hno]

end Opens

end Folio.Site
