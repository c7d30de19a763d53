import Folio.Proofs.Html.WellFormed

namespace Folio.Markup

mutual

def Block.mapRuns (f : Run → Run) : Block → Block
  | .paragraph content => .paragraph (f content)
  | .list items => .list (items.map f)
  | .table rows => .table (rows.map (·.map f))
  | .segment bs => .segment (mapRunsAll f bs)

def Block.mapRunsAll (f : Run → Run) : List Block → List Block
  | [] => []
  | b :: bs => b.mapRuns f :: mapRunsAll f bs

end

namespace Document

def mapRuns (f : Run → Run) (d : Document) : Document :=
  ⟨Block.mapRunsAll f d.blocks⟩

def inlines (d : Document) : List Inline :=
  Block.inlinesAll d.blocks

end Document

section

variable {f : Run → Run} (hf : ∀ rs : List Run, (rs.map f).flatten = f rs.flatten)

include hf

mutual

theorem Block.inlines_mapRuns : ∀ b : Block, (b.mapRuns f).inlines = f b.inlines
  | .paragraph _ => rfl
  | .list items => hf items
  | .table rows => by
    have htable : (rows.map (·.map f)).flatten.flatten = f rows.flatten.flatten := by
      rw [← List.map_flatten, hf]
    exact htable
  | .segment bs => inlinesAll_mapRunsAll bs

theorem Block.inlinesAll_mapRunsAll :
    ∀ bs : List Block, inlinesAll (mapRunsAll f bs) = f (inlinesAll bs)
  | [] => hf []
  | b :: bs => by
    have happend : f b.inlines ++ f (inlinesAll bs) = f (b.inlines ++ inlinesAll bs) := by
      simpa using hf [b.inlines, inlinesAll bs]
    rw [mapRunsAll, inlinesAll, inlines_mapRuns b, inlinesAll_mapRunsAll bs, happend, inlinesAll]

end

theorem Document.inlines_mapRuns (d : Document) : (d.mapRuns f).inlines = f d.inlines :=
  Block.inlinesAll_mapRunsAll hf d.blocks

end

end Folio.Markup
