import Folio.Markup.Block.Outline

namespace Folio.Markup

structure Cursor where
  tokens : List Token
  index : Nat
deriving Repr

namespace Cursor

def start (ts : List Token) : Cursor :=
  ⟨ts, 0⟩

def rest (c : Cursor) : List Token :=
  c.tokens.drop c.index

def atEnd (c : Cursor) : Bool :=
  c.tokens.length ≤ c.index

def line (c : Cursor) : Nat :=
  lineAt c.tokens c.index

def current (c : Cursor) : Option Token :=
  c.tokens[c.index]?

def kind? (c : Cursor) : Option Kind :=
  c.current.map Token.kind

def peek (c : Cursor) (offset : Nat) : Option Kind :=
  c.tokens[c.index + offset]?.map Token.kind

def isAt (c : Cursor) (k : Kind) : Bool :=
  c.kind? == some k

def isAtSequence (c : Cursor) (kinds : List Kind) : Bool :=
  startsWith kinds c.rest

def isAtLineEnd (c : Cursor) : Bool :=
  c.kind?.all (· == .newline)

/-- Moves to a position, or to the end where it lies past it. -/
def seek (c : Cursor) (position : Nat) : Cursor :=
  { c with index := min position c.tokens.length }

def next (c : Cursor) : Cursor :=
  { c with index := c.index + 1 }

def advance (c : Cursor) : Cursor :=
  if c.current.isSome then c.next else c

def eat (c : Cursor) (k : Kind) : Cursor :=
  if c.isAt k then c.next else c

def slice (c : Cursor) (first last : Nat) : List Token :=
  (c.tokens.take last).drop first

theorem lt_of_isAt {c : Cursor} {k : Kind} (h : c.isAt k) : c.index < c.tokens.length := by
  obtain ⟨t, ht, -⟩ := Option.map_eq_some_iff.1 (beq_iff_eq.1 h)
  exact (List.getElem?_eq_some_iff.1 ht).1

def skip (c : Cursor) (k : Kind) : Cursor :=
  if _h : c.isAt k then c.next.skip k else c
termination_by c.tokens.length - c.index
decreasing_by exact Nat.sub_add_lt_sub (lt_of_isAt ‹_›) Nat.zero_lt_one

def skipNewlines (c : Cursor) : Cursor :=
  c.skip .newline

def unexpected (c : Cursor) (k : Kind) : ParseError :=
  .unexpected k c.kind? c.index c.line

def unmatched (c : Cursor) (expected found : Kind) : ParseError :=
  .unmatched expected found c.index c.line

def expect (c : Cursor) (k : Kind) : Except ParseError Token × Cursor :=
  match c.current with
  | some t =>
    if t.kind = k then (.ok t, c.next) else (.error (c.unexpected k), c)
  | none => (.error (c.unexpected k), c)

/-- Moves to the place where these tokens are what is left. -/
def leave (c : Cursor) (ts : List Token) : Cursor :=
  { c with index := c.tokens.length - ts.length }

def settle {α : Type} (c : Cursor) :
    Except Failure (α × List Token) → Except ParseError α × Cursor
  | .ok (a, ts) => (.ok a, c.leave ts)
  | .error f => (.error (f.locate c.tokens), c.leave f.unread)

def readRun (c : Cursor) (ctx : Context) : Except ParseError Run × Cursor :=
  c.settle (Markup.readRun ctx [] c.rest)

def readBlock (c : Cursor) : Except ParseError (Option Block) × Cursor :=
  c.settle (Markup.readBlock c.rest)

def readBlocks (c : Cursor) : Except ParseError (List Block) × Cursor :=
  c.settle (Markup.readBlocks c.rest)

end Cursor

end Folio.Markup
