import Folio.Markup.Token

namespace Folio.Markup

def isProse (c : Char) : Bool :=
  (Kind.ofChar? c).isNone

/-- Tokens of a text without carriage returns: each mark by itself, prose in maximal runs. -/
def lexChars : List Char → List Token
  | [] => []
  | c :: cs =>
    match Kind.ofChar? c with
    | some k => ⟨k, c.toString⟩ :: lexChars cs
    | none =>
      ⟨.text, String.ofList (c :: cs.takeWhile isProse)⟩ :: lexChars (cs.dropWhile isProse)
termination_by cs => cs.length
decreasing_by
  · simp
  · exact Nat.lt_succ_of_le (List.dropWhile_sublist isProse).length_le

def dropReturns (s : String) : List Char :=
  s.toList.filter (· ≠ '\r')

def tokenize (s : String) : List Token :=
  lexChars (dropReturns s)

def endLine (s : String) : String :=
  if s.toList.getLast?.all (· = '\n') then s else s ++ "\n"

/-- The tokens of a whole document, whose last line is ended like every other. -/
def lex (s : String) : List Token :=
  tokenize (endLine s)

end Folio.Markup
