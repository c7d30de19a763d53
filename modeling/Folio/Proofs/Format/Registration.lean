import Folio.Format.Registry
import Folio.Proofs.Text.ByteOrder

namespace Folio.Format

open Markup Text

def lastNamed? (history : List Formatter) (name : String) : Option Formatter :=
  (history.filter (·.name == name)).getLast?

theorem lastNamed?_concat (history : List Formatter) (f : Formatter) (name : String) :
    lastNamed? (history ++ [f]) name =
      if f.name = name then some f else lastNamed? history name := by
  unfold lastNamed?
  by_cases h : f.name = name
  · rw [if_pos h, List.filter_append, List.filter_cons_of_pos (by simpa using h), List.filter_nil,
      List.getLast?_concat]
  · rw [if_neg h, List.filter_append, List.filter_cons_of_neg (by simpa using h), List.filter_nil,
      List.append_nil]

theorem isSome_lastNamed?_iff {history : List Formatter} {name : String} :
    (lastNamed? history name).isSome ↔ ∃ f ∈ history, f.name = name := by
  rw [lastNamed?, List.getLast?_isSome, ne_eq, List.filter_eq_nil_iff]
  simp

namespace Registry

variable {r : Registry} {history past : List Formatter}

def registerAll (r : Registry) (history : List Formatter) : Registry :=
  history.foldl register r

theorem get?_register (r : Registry) (f : Formatter) (name : String) :
    (r.register f).get? name = if f.name = name then some f else r.get? name := by
  unfold get? register
  by_cases h : f.name = name
  · rw [if_pos h, List.find?_cons_of_pos (by simpa using h)]
  · rw [if_neg h, List.find?_cons_of_neg (by simpa using h), List.find?_filter]
    congr 1
    funext g
    -- what is filtered out has another name than the one asked for
    by_cases hg : g.name = name
    · simp [hg, Ne.symm h]
    · simp [hg]

theorem mem_names_iff (r : Registry) (name : String) : name ∈ r.names ↔ (r.get? name).isSome := by
  rw [names, List.mem_mergeSort, List.mem_map, get?, List.find?_isSome]
  simp only [beq_iff_eq]

theorem nodup_register (f : Formatter) (h : (r.formatters.map Formatter.name).Nodup) :
    ((r.register f).formatters.map Formatter.name).Nodup := by
  rw [register, List.map_cons, List.nodup_cons]
  constructor
  · intro hmem
    obtain ⟨g, hg, hname⟩ := List.mem_map.1 hmem
    have hne : g.name ≠ f.name := by simpa using (List.mem_filter.1 hg).2
    exact hne hname
  · exact h.sublist (List.filter_sublist.map _)

/-- The registry holds the last formatter of each name in its history, and nothing twice. -/
structure Holds (r : Registry) (history : List Formatter) : Prop where
  nodup : (r.formatters.map Formatter.name).Nodup
  get?_eq : ∀ name, r.get? name = lastNamed? history name

theorem Holds.empty : Holds empty [] :=
  ⟨List.nodup_nil, fun _ ↦ rfl⟩

theorem Holds.register (h : r.Holds history) (f : Formatter) :
    (r.register f).Holds (history ++ [f]) := by
  refine ⟨nodup_register f h.nodup, ?_⟩
  intro name
  rw [get?_register, lastNamed?_concat, h.get?_eq]

theorem Holds.registerAll (h : r.Holds past) (history : List Formatter) :
    (r.registerAll history).Holds (past ++ history) := by
  induction history generalizing r past with
  | nil =>
    rw [List.append_nil]
    exact h
  | cons f history ih =>
    have hrest := ih (h.register f)
    rw [List.append_assoc] at hrest
    exact hrest

theorem Holds.standard (print : Json.Printer) (l : Code.Language) :
    (standard print l).Holds [.html l, .tag, .json print] :=
  Holds.empty.registerAll [.html l, .tag, .json print]

/-- The answers of a registry are those that its history calls for. -/
structure LastWins (r : Registry) (history : List Formatter) : Prop where
  increasing : r.names.Pairwise fun a b ↦ bytes a < bytes b
  listed_iff : ∀ name, name ∈ r.names ↔ ∃ f ∈ history, f.name = name
  has_iff : ∀ name, r.has name ↔ name ∈ r.names
  get?_eq : ∀ name, r.get? name = lastNamed? history name
  format_listed : ∀ name f, lastNamed? history name = some f →
    ∀ d, r.format d name = f.format d
  format_unlisted : ∀ name, name ∉ r.names → ∀ d, r.format d name = .error (.notFound name)

theorem Holds.lastWins (h : r.Holds history) : r.LastWins history := by
  constructor
  · exact pairwise_bytes_mergeSort (f := id) (by simpa using h.nodup)
  · intro name
    rw [mem_names_iff, h.get?_eq, isSome_lastNamed?_iff]
  · intro name
    rw [mem_names_iff, has]
  · exact h.get?_eq
  · intro name f hf d
    rw [format, h.get?_eq, hf]
  · intro name hname d
    rw [mem_names_iff, Option.not_isSome_iff_eq_none] at hname
    rw [format, hname]

structure AlikeAt (name : String) (r r' : Registry) : Prop where
  listed : name ∈ r.names ↔ name ∈ r'.names
  has : r.has name = r'.has name
  get? : r.get? name = r'.get? name
  format : ∀ d, r.format d name = r'.format d name

theorem AlikeAt.of_get? {name : String} {r r' : Registry} (h : r.get? name = r'.get? name) :
    AlikeAt name r r' := by
  constructor
  · rw [mem_names_iff, mem_names_iff, h]
  · rw [Registry.has, Registry.has, h]
  · exact h
  · intro d
    rw [Registry.format, Registry.format, h]

theorem register_alikeAt (r : Registry) {f : Formatter} {name : String} (h : name ≠ f.name) :
    AlikeAt name (r.register f) r := by
  apply AlikeAt.of_get?
  rw [get?_register, if_neg h.symm]

/-- After any history of registrations the last one under a name is the one that counts, be the
registry empty or a standard one at first; each registration leaves the other names alone. -/
theorem registerAll_lastWins (print : Json.Printer) (l : Code.Language)
    (history : List Formatter) :
    (empty.registerAll history).LastWins history ∧
      ((standard print l).registerAll history).LastWins
        ([.html l, .tag, .json print] ++ history) ∧
      (∀ name, name ∈ ((standard print l).registerAll history).names ↔
        name ∈ ["html", "tag", "json"] ∨ ∃ f ∈ history, f.name = name) ∧
      ∀ (r : Registry) (f : Formatter) (name : String), name ≠ f.name →
        AlikeAt name (r.register f) r := by
  have hempty := (Holds.empty.registerAll history).lastWins
  have hstandard := ((Holds.standard print l).registerAll history).lastWins
  refine ⟨hempty, hstandard, ?_, ?_⟩
  · intro name
    rw [hstandard.listed_iff]
    simp only [List.mem_append, or_and_right, exists_or]
    simp [Formatter.html, Formatter.tag, Formatter.json, eq_comm]
  · intro r f name h
    exact register_alikeAt r h

/-- A failing formatter stands in for the HTML of a standard registry, the others stay. -/
theorem registerAll_lastWins_replaced :
    let failing : Formatter := ⟨"html", fun _ ↦ .error (.failed "no output")⟩
    let r := (standard .pretty .cpp).registerAll [⟨"html", fun _ ↦ .ok "replaced"⟩, failing]
    (∀ d, r.format d "html" = .error (.failed "no output")) ∧
      (∀ d, r.format d "none" = .error (.notFound "none")) ∧
      AlikeAt "tag" (r.register failing) r := by
  intro failing r
  obtain ⟨-, hr, hnames, hother⟩ := registerAll_lastWins .pretty .cpp
    [⟨"html", fun _ ↦ .ok "replaced"⟩, failing]
  refine ⟨?_, ?_, ?_⟩
  · exact hr.format_listed "html" failing rfl
  · apply hr.format_unlisted "none"
    rw [hnames]
    decide
  · exact hother r failing "tag" (by decide)

end Registry

end Folio.Format
