import Folio.Markup.Token

namespace Folio.Markup

inductive ParseError
  | unexpected (expected : Kind) (found : Option Kind) (position line : Nat)
  | unmatched (expected found : Kind) (position line : Nat)
deriving DecidableEq, Repr

namespace ParseError

def expected : ParseError → Kind
  | unexpected k .. | unmatched k .. => k

def found : ParseError → Option Kind
  | unexpected _ k .. => k
  | unmatched _ k .. => some k

def position : ParseError → Nat
  | unexpected _ _ p _ | unmatched _ _ p _ => p

def line : ParseError → Nat
  | unexpected _ _ _ l | unmatched _ _ _ l => l

def message : ParseError → String
  | unexpected expected found _ line =>
    "line " ++ toString line ++ ": expected " ++ expected.name ++ ", found " ++
      (found.map Kind.name).getD "end of input"
  | unmatched expected found _ line =>
    "line " ++ toString line ++ ": " ++ found.name ++ " has no matching " ++ expected.name

end ParseError

/-- The line, counted from 1, of a position in a token list. -/
def lineAt (ts : List Token) (position : Nat) : Nat :=
  1 + (ts.take position).countP (·.kind == .newline)

/-- A reader's failure. The list given is what remains at the fault. -/
inductive Failure
  /-- a token of this kind was needed -/
  | missing (expected : Kind) (rest : List Token)
  /-- the segment that begins here is still open at the end -/
  | unclosed (rest : List Token)
  /-- the closing brace that stands here closes nothing -/
  | unopened (rest : List Token)
deriving DecidableEq, Repr

namespace Failure

def rest : Failure → List Token
  | missing _ r | unclosed r | unopened r => r

/-- What is left unread when the failure shows: an unclosed segment is only known at the end. -/
def unread : Failure → List Token
  | unclosed _ => []
  | f => f.rest

/-- The error of a failure met while reading `ts`, of which the failure's rest is a suffix. -/
def locate (ts : List Token) (f : Failure) : ParseError :=
  let position := ts.length - f.rest.length
  let line := lineAt ts position
  match f with
  | missing expected rest => .unexpected expected (rest.head?.map Token.kind) position line
  | unclosed _ => .unexpected .braceClose none position line
  | unopened _ => .unmatched .braceOpen .braceClose position line

end Failure

end Folio.Markup
