import Folio.Text.Quoted

namespace Folio.Check

inductive TextMatch
  | exact (expected : String)
  | startsWith (start : String)
  | contains (part : String)
deriving DecidableEq, Repr

def occursIn (part : List Char) : List Char → Bool
  | [] => part.isEmpty
  | c :: cs => part.isPrefixOf (c :: cs) || occursIn part cs

namespace TextMatch

def accepts (m : TextMatch) (actual : String) : Bool :=
  match m with
  | exact expected => actual == expected
  | startsWith start => start.toList.isPrefixOf actual.toList
  | contains part => occursIn part.toList actual.toList

def wish : TextMatch → String
  | exact expected => "be " ++ Text.quoted expected
  | startsWith start => "start with " ++ Text.quoted start
  | contains part => "contain " ++ Text.quoted part

end TextMatch

end Folio.Check
