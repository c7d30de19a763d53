import Folio.Markup.Block.Outline

namespace Folio.Markup

structure Taken (α : Type) (ts : List Token) where
  value : α
  rest : List Token
  suffix : rest <:+ ts

namespace Taken

variable {α β : Type} {ts us : List Token}

def within (b : Taken α us) (h : us <:+ ts) (f : α → β) : Taken β ts :=
  ⟨f b.value, b.rest, b.suffix.trans h⟩

def pair (r : Except Failure (Taken α ts)) : Except Failure (α × List Token) :=
  r.map fun b ↦ (b.value, b.rest)

end Taken

def skipNewlines (ts : List Token) : List Token :=
  ts.dropWhile (·.kind == .newline)

theorem suffix_of_skipNewlines {ts us : List Token} {t : Token} (h : skipNewlines ts = t :: us) :
    us <:+ ts :=
  (List.suffix_cons t us).trans (h ▸ List.dropWhile_suffix _)

theorem length_of_skipNewlines {ts us : List Token} {t : Token} (h : skipNewlines ts = t :: us) :
    us.length < ts.length := by
  have hle : (skipNewlines ts).length ≤ ts.length := (List.dropWhile_suffix _).length_le
  rw [h] at hle
  exact hle

mutual

def readNested (t : Token) (ts : List Token) : Except Failure (Taken (Option Block) ts) :=
  match t.kind with
  | .braceOpen => (readSegment (t :: ts) ts).map (·.within (List.suffix_refl ts) (some ∘ .segment))
  | .braceClose => .error (.unopened (t :: ts))
  | _ =>
    match h : readLeaf (t :: ts) with
    | .error f => .error f
    | .ok (b, rest) => .ok ⟨b, rest, readLeaf_suffix h⟩
termination_by 2 * ts.length + 1

/-- The blocks up to the brace that closes the segment opened at `opening`. -/
def readSegment (opening ts : List Token) : Except Failure (Taken (List Block) ts) :=
  match h : skipNewlines ts with
  | [] => .error (.unclosed opening)
  | t :: us =>
    if t.kind = .braceClose then .ok ⟨[], us, suffix_of_skipNewlines h⟩
    else do
      let b ← readNested t us
      let bs ← readSegment opening b.rest
      .ok (bs.within (b.suffix.trans (suffix_of_skipNewlines h)) (b.value.toList ++ ·))
termination_by 2 * ts.length
decreasing_by
  all_goals
    have hlt := length_of_skipNewlines h
    try have hle := b.suffix.length_le
    omega

end

def readToEnd (ts : List Token) : Except Failure (Taken (List Block) ts) :=
  match h : skipNewlines ts with
  | [] => .ok ⟨[], [], List.nil_suffix⟩
  | t :: us => do
    let b ← readNested t us
    let bs ← readToEnd b.rest
    .ok (bs.within (b.suffix.trans (suffix_of_skipNewlines h)) (b.value.toList ++ ·))
termination_by ts.length
decreasing_by
  have hlt := length_of_skipNewlines h
  have hle := b.suffix.length_le
  omega

end Folio.Markup
