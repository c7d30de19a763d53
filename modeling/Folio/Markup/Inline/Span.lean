import Folio.Markup.ParseError

namespace Folio.Markup

/-- Where a run stands: on a line of its own, or in a table cell, which a pipe ends too. -/
inductive Context
  | line
  | cell
deriving DecidableEq, Repr

def Context.endsAt (ctx : Context) (k : Kind) : Bool :=
  k == .newline || (k == .pipe && ctx == .cell)

inductive Delimiter
  | bracket
  | paren
deriving DecidableEq, Repr

namespace Delimiter

def opening : Delimiter → Kind
  | bracket => .bracketOpen
  | paren => .parenOpen

def closing : Delimiter → Kind
  | bracket => .bracketClose
  | paren => .parenClose

end Delimiter

def startsWith : List Kind → List Token → Bool
  | [], _ => true
  | _ :: _, [] => false
  | k :: ks, t :: ts => t.kind == k && startsWith ks ts

def upTo (ctx : Context) (mark : List Kind) : List Token → Option (List Token × List Token)
  | [] => none
  | t :: ts =>
    if startsWith mark (t :: ts) then some ([], (t :: ts).drop mark.length)
    else if ctx.endsAt t.kind then none
    else (upTo ctx mark ts).map fun (body, rest) ↦ (t :: body, rest)

/-- The tokens before the closing delimiter that matches one already read, and those after it;
`depth` pairs were opened since. -/
def enclosed (d : Delimiter) : Nat → List Token → Except Failure (List Token × List Token)
  | _, [] => .error (.missing d.closing [])
  | depth, t :: ts =>
    if t.kind = .newline then .error (.missing d.closing (t :: ts))
    else if t.kind = d.closing then
      match depth with
      | 0 => .ok ([], ts)
      | depth + 1 => (enclosed d depth ts).map fun (body, rest) ↦ (t :: body, rest)
    else
      (enclosed d (if t.kind = d.opening then depth + 1 else depth) ts).map
        fun (body, rest) ↦ (t :: body, rest)

def fence : List Kind :=
  [.backtick, .backtick, .backtick]

/-- The tokens before the next fence, on whichever line it is, and those after it. -/
def upToFence : List Token → Except Failure (List Token × List Token)
  | [] => .error (.missing .backtick [])
  | t :: ts =>
    if startsWith fence (t :: ts) then .ok ([], (t :: ts).drop fence.length)
    else (upToFence ts).map fun (body, rest) ↦ (t :: body, rest)

theorem map_eq_ok_iff {ε α β : Type} {x : Except ε α} {f : α → β} {b : β} :
    x.map f = .ok b ↔ ∃ a, x = .ok a ∧ f a = b := by
  cases x <;> simp [Except.map]

theorem map_eq_error_iff {ε α β : Type} {x : Except ε α} {f : α → β} {e : ε} :
    x.map f = .error e ↔ x = .error e := by
  cases x <;> simp [Except.map]

theorem bind_eq_ok_iff {ε α β : Type} {x : Except ε α} {f : α → Except ε β} {b : β} :
    x >>= f = .ok b ↔ ∃ a, x = .ok a ∧ f a = .ok b := by
  cases x <;> simp [bind, Except.bind]

theorem bind_eq_error_iff {ε α β : Type} {x : Except ε α} {f : α → Except ε β} {e : ε} :
    x >>= f = .error e ↔ x = .error e ∨ ∃ a, x = .ok a ∧ f a = .error e := by
  cases x <;> simp [bind, Except.bind]

theorem upTo_suffix {ctx : Context} {mark : List Kind} {ts body rest : List Token}
    (h : upTo ctx mark ts = some (body, rest)) : rest <:+ ts := by
  induction ts generalizing body with
  | nil => simp [upTo] at h
  | cons t ts ih =>
    simp only [upTo] at h
    split at h
    · obtain ⟨-, rfl⟩ := Prod.mk.inj (Option.some.inj h)
      exact List.drop_suffix ..
    · split at h
      · simp at h
      · obtain ⟨p, hp, h⟩ := Option.map_eq_some_iff.1 h
        obtain ⟨-, rfl⟩ := Prod.mk.inj h
        exact (ih hp).trans (List.suffix_cons ..)

theorem enclosed_suffix {d : Delimiter} {depth : Nat} {ts body rest : List Token}
    (h : enclosed d depth ts = .ok (body, rest)) : rest <:+ ts := by
  induction ts generalizing depth body with
  | nil => simp [enclosed] at h
  | cons t ts ih =>
    simp only [enclosed] at h
    split at h
    · simp at h
    · split at h
      · split at h
        · obtain ⟨-, rfl⟩ := Prod.mk.inj (Except.ok.inj h)
          exact List.suffix_cons ..
        · obtain ⟨p, hp, h⟩ := map_eq_ok_iff.1 h
          obtain ⟨-, rfl⟩ := Prod.mk.inj h
          exact (ih hp).trans (List.suffix_cons ..)
      · obtain ⟨p, hp, h⟩ := map_eq_ok_iff.1 h
        obtain ⟨-, rfl⟩ := Prod.mk.inj h
        exact (ih hp).trans (List.suffix_cons ..)

theorem upToFence_suffix {ts body rest : List Token}
    (h : upToFence ts = .ok (body, rest)) : rest <:+ ts := by
  induction ts generalizing body with
  | nil => simp [upToFence] at h
  | cons t ts ih =>
    simp only [upToFence] at h
    split at h
    · obtain ⟨-, rfl⟩ := Prod.mk.inj (Except.ok.inj h)
      exact List.drop_suffix ..
    · obtain ⟨p, hp, h⟩ := map_eq_ok_iff.1 h
      obtain ⟨-, rfl⟩ := Prod.mk.inj h
      exact (ih hp).trans (List.suffix_cons ..)

end Folio.Markup
