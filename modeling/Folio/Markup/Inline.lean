import Folio.Text.Blank

namespace Folio.Markup

inductive Inline
  | text (s : String)
  | heading (level : Nat) (title : String)
  | bold (s : String)
  | italic (s : String)
  | code (s : String)
  | codeBlock (language : Option String) (code : String)
  | link (label address : String)
  | image (alt source : String)
  | view (label address : String)
deriving DecidableEq, Repr, Inhabited

abbrev Run := List Inline

namespace Inline

def type : Inline → String
  | text _ => "text"
  | heading .. => "heading"
  | bold _ => "bold"
  | italic _ => "italic"
  | code _ => "code"
  | codeBlock .. => "code-block"
  | link .. => "link"
  | image .. => "image"
  | view .. => "view"

/-- What a reader sees of the node, without markup; of a view, nothing. -/
def plainText : Inline → String
  | text s | bold s | italic s | code s => s
  | heading _ title => title
  | codeBlock _ body => body
  | link label _ => label
  | image alt _ => alt
  | view .. => ""

/-- Headings and code blocks stand as blocks of their own when shown. -/
def isBlockLevel : Inline → Bool
  | heading .. | codeBlock .. => true
  | _ => false

def isEmptyText : Inline → Bool
  | text s => s.isEmpty
  | _ => false

def trimStart : Inline → Inline
  | text s => text (Text.trimStart s)
  | n => n

def trimEnd : Inline → Inline
  | text s => text (Text.trimEnd s)
  | n => n

end Inline

namespace Run

def plainText (run : Run) : String :=
  String.join (run.map Inline.plainText)

/-- Adds a node at the end. Text joins a text before it, and empty text leaves no node. -/
def push : Run → Inline → Run
  | [], n => if n.isEmptyText then [] else [n]
  | [.text s], .text t => [.text (s ++ t)]
  | m :: run, n => m :: push run n

/-- A node stands at the end, joins the text before it, or is an empty text and leaves nothing. -/
theorem push_cases (run : Run) (n : Inline) :
    (push run n = run ∧ n.isEmptyText) ∨
      (push run n = run ++ [n] ∧ n.isEmptyText = false ∧
        ∀ s t, run.getLast? = some (.text s) → n ≠ .text t) ∨
      ∃ first s t, run = first ++ [.text s] ∧ n = .text t ∧
        push run n = first ++ [.text (s ++ t)] := by
  fun_induction push run n with
  | case1 n h => exact .inl ⟨rfl, h⟩
  | case2 n h => exact .inr (.inl ⟨rfl, by simpa using h, by simp⟩)
  | case3 s t => exact .inr (.inr ⟨[], s, t, rfl, rfl, rfl⟩)
  | case4 m run n hm ih =>
    rcases ih with ⟨hrun, hn⟩ | ⟨hrun, hn, hlast⟩ | ⟨first, s, t, rfl, rfl, hrun⟩
    · exact .inl ⟨by rw [hrun], hn⟩
    · refine .inr (.inl ⟨by rw [hrun, List.cons_append], hn, ?_⟩)
      intro s t hs
      cases run with
      | nil =>
        rintro rfl
        obtain rfl := Option.some.inj hs
        exact hm s t rfl rfl rfl
      | cons m' run => exact hlast s t (by simpa using hs)
    · exact .inr (.inr ⟨m :: first, s, t, rfl, rfl, by rw [hrun, List.cons_append]⟩)

def mapLast (f : Inline → Inline) : Run → Run
  | [] => []
  | [n] => [f n]
  | n :: m :: run => n :: mapLast f (m :: run)

/-- Trims the text at both ends of the run, then leaves out empty texts. -/
def trim (run : Run) : Run :=
  (mapLast Inline.trimEnd (run.modifyHead Inline.trimStart)).filter (!·.isEmptyText)

end Run

end Folio.Markup
