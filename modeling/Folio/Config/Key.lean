import Folio.Config.Value
import Folio.Text.Split

namespace Folio.Config

/-- Integers of settings, and places in lists, have 64 bits. -/
def fitsWord (n : Int) : Bool :=
  -9223372036854775808 ≤ n && n ≤ 9223372036854775807

def isNameChar (c : Char) : Bool :=
  c.isAlphanum || c == '_' || c == '-' || c == ' '

def placeOf? (cs : List Char) : Option Int :=
  let isSpace (c : Char) : Bool := c == ' ' || c == '\t'
  let digits := ((cs.dropWhile isSpace).reverse.dropWhile isSpace).reverse
  let number (ds : List Char) : Option Int :=
    if ds ≠ [] ∧ ds.all Char.isDigit then
      some (ds.foldl (fun n c ↦ 10 * n + (c.toNat - '0'.toNat)) 0)
    else none
  let place := match digits with
    | '-' :: ds => (number ds).map (- ·)
    | ds => number ds
  place.filter fitsWord

def readSteps : Nat → List Char → Option (List Step)
  | _, [] => some []
  | 0, _ => none
  | fuel + 1, '.' :: cs =>
    let name := cs.takeWhile isNameChar
    if name = [] then none
    else (readSteps fuel (cs.dropWhile isNameChar)).map (.name (String.ofList name) :: ·)
  | fuel + 1, '[' :: cs => do
    let (inside, rest) ← Text.splitFirst ']' cs
    let i ← placeOf? inside
    (readSteps fuel rest).map (.place i :: ·)
  | _, _ => none

/-- Reads a path. Each step takes a character at least, so the length is fuel enough. -/
def Key.ofText (s : String) : Option Key :=
  let name := s.toList.takeWhile isNameChar
  if name = [] then none
  else
    (readSteps s.length (s.toList.dropWhile isNameChar)).map fun steps ↦
      ⟨String.ofList name, steps⟩

end Folio.Config
