import Folio.Markup.Inline

namespace Folio.Markup

inductive Block
  | paragraph (content : Run)
  | list (items : List Run)
  | table (rows : List (List Run))
  | segment (blocks : List Block)
deriving Repr, Inhabited

mutual

def Block.decEq : (a b : Block) → Decidable (a = b)
  | .paragraph r, .paragraph s => decidable_of_iff (r = s) (by simp)
  | .list r, .list s => decidable_of_iff (r = s) (by simp)
  | .table r, .table s => decidable_of_iff (r = s) (by simp)
  | .segment as, .segment bs =>
    have := Block.decEqAll as bs
    decidable_of_iff (as = bs) (by simp)
  | .paragraph _, .list _ | .paragraph _, .table _ | .paragraph _, .segment _
  | .list _, .paragraph _ | .list _, .table _ | .list _, .segment _
  | .table _, .paragraph _ | .table _, .list _ | .table _, .segment _
  | .segment _, .paragraph _ | .segment _, .list _ | .segment _, .table _ => isFalse nofun

def Block.decEqAll : (as bs : List Block) → Decidable (as = bs)
  | [], [] => isTrue rfl
  | [], _ :: _ | _ :: _, [] => isFalse nofun
  | a :: as, b :: bs =>
    have := Block.decEq a b
    have := Block.decEqAll as bs
    decidable_of_iff (a = b ∧ as = bs) (by simp)

end

instance : DecidableEq Block := Block.decEq

structure Document where
  blocks : List Block
deriving DecidableEq, Repr, Inhabited

namespace Block

def type : Block → String
  | paragraph _ => "paragraph"
  | list _ => "list"
  | table _ => "table"
  | segment _ => "segment"

def runs : Block → List Run
  | paragraph content => [content]
  | list items => items
  | table rows => rows.flatten
  | segment _ => []

def children : Block → List Block
  | segment blocks => blocks
  | _ => []

def viewOf? : Inline → Option (String × String)
  | .view label address => some (label, address)
  | _ => none

mutual

def views : Block → List (String × String)
  | segment blocks => viewsAll blocks
  | paragraph content => content.filterMap viewOf?
  | list items => items.flatten.filterMap viewOf?
  | table rows => rows.flatten.flatten.filterMap viewOf?

def viewsAll : List Block → List (String × String)
  | [] => []
  | b :: bs => views b ++ viewsAll bs

end

end Block

namespace Document

def isEmpty (d : Document) : Bool :=
  d.blocks.isEmpty

/-- Views are never shown; this is the way to reach them. -/
def views (d : Document) : List (String × String) :=
  Block.viewsAll d.blocks

end Document

end Folio.Markup
