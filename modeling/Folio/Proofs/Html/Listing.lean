import Folio.Proofs.Code.Lines
import Folio.Proofs.Html.Tags

namespace Folio.Code

open Html

theorem angleFree_classNames : ∀ s ∈ classNames, AngleFree s.toList := by
  decide

theorem angleFree_of_mem_linesOf {ts : List Token} {l : Line} {p : Piece} {s : String}
    (hl : l ∈ linesOf ts) (hp : p ∈ l) (h : p.spanClass = some s) : AngleFree s.toList :=
  angleFree_classNames s (mem_classNames_of_mem_linesOf hl hp h)

theorem span_isTag {s : String} (h : AngleFree s.toList) :
    IsTag ("<span class=\"" ++ s ++ "\">") ("span class=\"".toList ++ (s.toList ++ ['\"'])) :=
  .attribute "span class=\"" rfl (by decide) h

theorem span_opens {s : String} (h : AngleFree s.toList) :
    Opens ['s', 'p', 'a', 'n'] ("<span class=\"" ++ s ++ "\">") :=
  .of_tag (span_isTag h) fun _ ↦ rfl

theorem span_closes : Closes ['s', 'p', 'a', 'n'] "</span>" :=
  fun _ ↦ rfl

theorem Piece.markup_nests {p : Piece} (h : ∀ s, p.spanClass = some s → AngleFree s.toList) :
    Nests p.markup := by
  have htext : Nests (escape (String.ofList p.dropReturns)) := .text (angleFree_escape _)
  simp only [Piece.markup]
  split
  · exact .empty
  · split
    · next s hs => exact .element (span_opens (h s hs)) htext span_closes
    · exact htext

theorem mem_of_mem_trimLines {ls : List Line} {l : Line} (h : l ∈ trimLines ls) : l ∈ ls := by
  have hend := (List.dropWhile_suffix _).subset (List.mem_reverse.1 h)
  exact (List.dropWhile_suffix _).subset (List.mem_reverse.1 hend)

theorem renderLines_nests (ts : List Token) : ∀ s ∈ renderLines ts, Nests s := by
  intro s hs
  obtain ⟨l, hl, rfl⟩ := List.mem_map.1 hs
  refine .join fun s hs ↦ ?_
  obtain ⟨p, hp, rfl⟩ := List.mem_map.1 hs
  exact p.markup_nests fun s hs ↦ angleFree_of_mem_linesOf (mem_of_mem_trimLines hl) hp hs

theorem angleFree_toString (n : Nat) : AngleFree (toString n).toList := by
  intro c hc
  rw [Nat.toString_eq_repr, Nat.toList_repr] at hc
  have hdigit := Nat.isDigit_of_mem_toDigits (by decide) (by decide) hc
  constructor <;>
    · rintro rfl
      revert hdigit
      decide

def holderTag (tag : Option String) : String :=
  let tagged := match tag with
    | some t => " data-language=\"" ++ escape t ++ "\""
    | none => ""
  "<div class=\"holder code\"" ++ tagged ++ ">"

def numberColumn (n : Nat) : String :=
  String.join ((List.range n).map fun i ↦
    "<div class=\"lines-index\">" ++ toString (i + 1) ++ "</div>")

def rowColumn (lines : List String) : String :=
  String.join (lines.map fun l ↦
    "<div class=\"code-line-parent\"><div class=\"code-line\">" ++ l ++ "</div></div>")

theorem listing_eq (tag : Option String) (lines : List String) :
    listing tag lines = holderTag tag ++ "<div class=\"lines\">" ++ numberColumn lines.length ++
      "</div>" ++ "<div class=\"scrollable\"><div class=\"codes\">" ++ rowColumn lines ++
        "</div></div></div>" :=
  rfl

theorem holderTag_some (t : String) :
    holderTag (some t) = "<div class=\"holder code\" data-language=\"" ++ escape t ++ "\">" := by
  -- the equation lemma of the definition is not used: its literals are too long to unfold
  have hfirst : "<div class=\"holder code\" data-language=\"" =
      "<div class=\"holder code\"" ++ " data-language=\"" := by decide
  have hlast : "\">" = "\"" ++ ">" := by decide
  have htag : holderTag (some t) =
      "<div class=\"holder code\"" ++ (" data-language=\"" ++ escape t ++ "\"") ++ ">" := rfl
  rw [htag, hfirst, hlast]
  simp only [String.append_assoc]

theorem holderTag_opens (tag : Option String) : Opens ['d', 'i', 'v'] (holderTag tag) := by
  cases tag with
  | none => exact fun _ ↦ rfl
  | some t =>
    rw [holderTag_some]
    exact .of_tag (.attribute "div class=\"holder code\" data-language=\"" rfl (by decide)
      (angleFree_escape t)) fun _ ↦ rfl

theorem div_closes : Closes ['d', 'i', 'v'] "</div>" :=
  fun _ ↦ rfl

theorem lines_opens : Opens ['d', 'i', 'v'] "<div class=\"lines\">" :=
  fun _ ↦ rfl

theorem numberColumn_nests (n : Nat) : Nests (numberColumn n) := by
  refine .join fun s hs ↦ ?_
  obtain ⟨i, -, rfl⟩ := List.mem_map.1 hs
  exact .element (fun _ ↦ rfl) (.text (angleFree_toString _)) div_closes

theorem rowColumn_nests {lines : List String} (h : ∀ s ∈ lines, Nests s) :
    Nests (rowColumn lines) := by
  refine .join fun s hs ↦ ?_
  obtain ⟨l, hl, rfl⟩ := List.mem_map.1 hs
  intro opened
  have hopen : Place.read ⟨none, opened⟩
      "<div class=\"code-line-parent\"><div class=\"code-line\">".toList =
      some ⟨none, ['d', 'i', 'v'] :: ['d', 'i', 'v'] :: opened⟩ := rfl
  have hclose : Place.read ⟨none, ['d', 'i', 'v'] :: ['d', 'i', 'v'] :: opened⟩
      "</div></div>".toList = some ⟨none, opened⟩ := rfl
  rw [Place.read_toList_append, Place.read_toList_append, hopen, Option.bind_some, h l hl,
    Option.bind_some, hclose]

theorem listing_nests (tag : Option String) {lines : List String} (h : ∀ s ∈ lines, Nests s) :
    Nests (listing tag lines) := by
  intro opened
  have hscroll : Place.read ⟨none, ['d', 'i', 'v'] :: opened⟩
      "<div class=\"scrollable\"><div class=\"codes\">".toList =
      some ⟨none, ['d', 'i', 'v'] :: ['d', 'i', 'v'] :: ['d', 'i', 'v'] :: opened⟩ := rfl
  have hend : Place.read ⟨none, ['d', 'i', 'v'] :: ['d', 'i', 'v'] :: ['d', 'i', 'v'] :: opened⟩
      "</div></div></div>".toList = some ⟨none, opened⟩ := rfl
  rw [listing_eq, Place.read_toList_append, Place.read_toList_append, Place.read_toList_append,
    Place.read_toList_append, Place.read_toList_append, Place.read_toList_append,
    holderTag_opens, Option.bind_some, lines_opens, Option.bind_some, numberColumn_nests,
    Option.bind_some, div_closes, Option.bind_some, hscroll, Option.bind_some, rowColumn_nests h,
    Option.bind_some, hend]

theorem highlight_nests (l : Language) (tag : Option String) (code : String) :
    Nests (highlight l tag code) :=
  listing_nests tag (renderLines_nests _)

end Folio.Code
