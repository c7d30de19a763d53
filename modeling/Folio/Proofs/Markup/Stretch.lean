import Folio.Markup.Cursor
import Folio.Proofs.Markup.Span

namespace Folio.Markup.Cursor

def InBounds (c : Cursor) : Prop :=
  c.index ≤ c.tokens.length

theorem current_eq_head? (c : Cursor) : c.current = c.rest.head? := by
  rw [current, rest, List.head?_drop]

theorem current_of_nil {c : Cursor} (h : c.rest = []) : c.current = none := by
  rw [current_eq_head?, h, List.head?_nil]

theorem current_of_cons {c : Cursor} {t : Token} {ts : List Token} (h : c.rest = t :: ts) :
    c.current = some t := by
  rw [current_eq_head?, h, List.head?_cons]

theorem kind?_eq_head? (c : Cursor) : c.kind? = c.rest.head?.map Token.kind := by
  rw [kind?, current_eq_head?]

theorem length_rest (c : Cursor) : c.rest.length = c.tokens.length - c.index :=
  List.length_drop

theorem exists_rest_of_current {c : Cursor} {t : Token} (h : c.current = some t) :
    ∃ ts, c.rest = t :: ts :=
  List.head?_eq_some_iff.1 (c.current_eq_head? ▸ h)

theorem lt_of_rest {c : Cursor} {t : Token} {ts : List Token} (h : c.rest = t :: ts) :
    c.index < c.tokens.length := by
  have hl := c.length_rest
  rw [h, List.length_cons] at hl
  omega

section Next

variable {c : Cursor} {t : Token} {ts : List Token}

theorem advance_of_cons (h : c.rest = t :: ts) : c.advance = c.next := by
  rw [advance, current_of_cons h]
  rfl

theorem advance_of_nil (h : c.rest = []) : c.advance = c := by
  rw [advance, current_of_nil h]
  rfl

theorem isAt_of_cons (h : c.rest = t :: ts) (k : Kind) : c.isAt k = (t.kind == k) := by
  rw [isAt, kind?_eq_head?, h]
  rfl

theorem isAt_of_nil (h : c.rest = []) (k : Kind) : c.isAt k = false := by
  rw [isAt, kind?_eq_head?, h]
  rfl

theorem eat_of_kind (h : c.rest = t :: ts) {k : Kind} (ht : t.kind = k) : c.eat k = c.next := by
  rw [eat, isAt_of_cons h, ht, beq_self_eq_true, if_pos rfl]

theorem eat_of_head {k : Kind} (h : ∀ t ∈ c.rest.head?, t.kind ≠ k) : c.eat k = c := by
  cases hts : c.rest with
  | nil => rw [eat, isAt_of_nil hts, if_neg Bool.false_ne_true]
  | cons t ts =>
    have ht : t.kind ≠ k := h t (by rw [hts]; rfl)
    rw [eat, isAt_of_cons hts, if_neg (by simpa using ht)]

/-- One step past a token stays within the tokens. -/
theorem InBounds.next (h : c.rest = t :: ts) : c.next.InBounds :=
  lt_of_rest h

theorem rest_next (h : c.rest = t :: ts) : c.next.rest = ts := by
  have htail := congrArg List.tail h
  rwa [rest, List.tail_drop] at htail

end Next

theorem length_rest_advance {c : Cursor} {t : Token} (h : c.current = some t) :
    c.advance.rest.length < c.rest.length := by
  obtain ⟨ts, hts⟩ := exists_rest_of_current h
  rw [advance_of_cons hts, rest_next hts, hts]
  exact Nat.lt_succ_self _

section Leave

variable {c : Cursor} {ts us pre : List Token}

theorem InBounds.leave (c : Cursor) (ts : List Token) : (c.leave ts).InBounds :=
  Nat.sub_le ..

theorem leave_of_append (hc : c.InBounds) (h : c.rest = pre ++ ts) :
    c.leave ts = { c with index := c.index + pre.length } := by
  have hle : c.index ≤ c.tokens.length := hc
  have hlength := c.length_rest
  rw [h, List.length_append] at hlength
  rw [leave]
  congr 1
  omega

theorem rest_add (h : c.rest = pre ++ ts) :
    ({ c with index := c.index + pre.length } : Cursor).rest = ts := by
  have hdrop := congrArg (List.drop pre.length) h
  rwa [rest, List.drop_drop, List.drop_left] at hdrop

theorem leave_rest (hc : c.InBounds) : c.leave c.rest = c :=
  leave_of_append hc c.rest.nil_append.symm

theorem leave_tail {t : Token} (h : c.rest = t :: ts) : c.leave ts = c.next :=
  leave_of_append (lt_of_rest h).le (show c.rest = [t] ++ ts from h)

theorem rest_leave (hc : c.InBounds) (h : ts <:+ c.rest) : (c.leave ts).rest = ts := by
  obtain ⟨pre, hpre⟩ := h
  rw [leave_of_append hc hpre.symm]
  exact rest_add hpre.symm

/-- What a reader comes to depends on the tokens, not on where the cursor stands. -/
theorem settle_next {α : Type} (c : Cursor) (r : Except Failure (α × List Token)) :
    c.next.settle r = c.settle r := by
  rcases r with f | p <;> rfl

end Leave

theorem locate_rest {c : Cursor} (h : c.InBounds) (k : Kind) :
    (Failure.missing k c.rest).locate c.tokens = c.unexpected k := by
  have hindex : c.tokens.length - c.rest.length = c.index := by
    rw [length_rest]
    exact Nat.sub_sub_self h
  rw [unexpected, kind?_eq_head?, line, ← hindex]
  rfl

/-- The fault is the cursor's own place, so the cursor stays where it is. -/
theorem settle_missing {α : Type} {c : Cursor} (h : c.InBounds) (k : Kind) :
    c.settle (.error (.missing k c.rest) : Except Failure (α × List Token)) =
      (.error (c.unexpected k), c) := by
  have hleave : c.leave (Failure.missing k c.rest).unread = c := leave_rest h
  rw [settle, locate_rest h, hleave]

/-- The tokens from one position up to another, where these are in order and within the tokens. -/
def slice? (c : Cursor) (first last : Nat) : Option (List Token) :=
  if first ≤ last ∧ last ≤ c.tokens.length then some (c.slice first last) else none

theorem slice?_eq {c : Cursor} {first last : Nat} (h : first ≤ last) (hl : last ≤ c.tokens.length) :
    c.slice? first last = some (c.slice first last) :=
  if_pos ⟨h, hl⟩

theorem slice_self (c : Cursor) : c.slice c.index c.index = [] := by
  rw [slice, List.drop_eq_nil_of_le (List.length_take_le ..)]

theorem slice_add (c : Cursor) (n : Nat) : c.slice c.index (c.index + n) = c.rest.take n := by
  rw [slice, List.drop_take, Nat.add_sub_cancel_left]
  rfl

/-- A slice that ends before the cursor grows by the token that the cursor passes. -/
theorem slice_next {c : Cursor} {first : Nat} {t : Token} {ts : List Token}
    (h : c.rest = t :: ts) (hf : first ≤ c.index) :
    c.next.slice first c.next.index = c.slice first c.index ++ [t] := by
  have hlt := lt_of_rest h
  have ht : c.tokens[c.index]? = some t := current_of_cons h
  have htake : c.tokens.take (c.index + 1) = c.tokens.take c.index ++ [t] := by
    rw [List.take_add_one, ht]
    rfl
  have hlen : first ≤ (c.tokens.take c.index).length := by
    rw [List.length_take]
    omega
  change (c.tokens.take (c.index + 1)).drop first = (c.tokens.take c.index).drop first ++ [t]
  rw [htake, List.drop_append_of_le_length hlen]

/-- Reads on to the delimiter that closes an open one, while `depth` more are open. The body begins
at `first`. -/
def enclosed? (c : Cursor) (d : Delimiter) (first depth : Nat) :
    Option (Except ParseError (List Token) × Cursor) :=
  match _h : c.current with
  | none => some (.error (c.unexpected d.closing), c)
  | some t =>
    if t.kind = .newline then some (.error (c.unexpected d.closing), c)
    else if t.kind = d.closing ∧ depth = 0 then
      (c.slice? first c.index).map fun body ↦ (.ok body, c.advance)
    else if t.kind = d.opening then c.advance.enclosed? d first (depth + 1)
    else if t.kind = d.closing then
      if depth = 0 then none else c.advance.enclosed? d first (depth - 1)
    else c.advance.enclosed? d first depth
termination_by c.rest.length
decreasing_by all_goals exact length_rest_advance ‹_›

def upTo? (c : Cursor) (ctx : Context) (mark : List Kind) (first : Nat) :
    Option (Option (List Token) × Cursor) :=
  if c.isAtSequence mark then (c.slice? first c.index).map fun body ↦ (some body, c)
  else match _h : c.current with
    | none => some (none, c.seek first)
    | some t =>
      if ctx.endsAt t.kind then some (none, c.seek first)
      else c.advance.upTo? ctx mark first
termination_by c.rest.length
decreasing_by exact length_rest_advance ‹_›

def upToFence? (c : Cursor) (first : Nat) : Option (Except ParseError (List Token) × Cursor) :=
  if c.isAtSequence fence then (c.slice? first c.index).map fun body ↦ (.ok body, c)
  else match _h : c.current with
    | none => some (.error (c.unexpected .backtick), c)
    | some _ => c.advance.upToFence? first
termination_by c.rest.length
decreasing_by exact length_rest_advance ‹_›

def title? (c : Cursor) : Option (List Token × Cursor) :=
  let last := (c.skip .hashtag).eat .text
  (c.slice? c.index last.index).map fun title ↦ (title, last)

theorem enclosed?_none {c : Cursor} (h : c.rest = []) (d : Delimiter) (first depth : Nat) :
    c.enclosed? d first depth = some (.error (c.unexpected d.closing), c) := by
  have hcurrent := current_of_nil h
  rw [enclosed?]
  split
  · rfl
  · next t ht => simp [hcurrent] at ht

theorem enclosed?_some {c : Cursor} {t : Token} {ts : List Token} (h : c.rest = t :: ts)
    (d : Delimiter) (first depth : Nat) :
    c.enclosed? d first depth =
      if t.kind = .newline then some (.error (c.unexpected d.closing), c)
      else if t.kind = d.closing ∧ depth = 0 then
        (c.slice? first c.index).map fun body ↦ (.ok body, c.next)
      else if t.kind = d.opening then c.next.enclosed? d first (depth + 1)
      else if t.kind = d.closing then
        if depth = 0 then none else c.next.enclosed? d first (depth - 1)
      else c.next.enclosed? d first depth := by
  have hcurrent := current_of_cons h
  rw [enclosed?]
  split
  · next ht => simp [hcurrent] at ht
  · next u hu =>
    obtain rfl : t = u := by simpa [hcurrent] using hu
    rw [advance_of_cons h]

/-- A token that belongs to the body is the last of those passed so far. -/
theorem settle_passed (c : Cursor) (t : Token) (pre : List Token)
    (r : Except Failure (List Token × List Token)) :
    c.next.settle (r.map fun p ↦ (pre ++ [t] ++ p.1, p.2)) =
      c.settle ((r.map fun p ↦ (t :: p.1, p.2)).map fun p ↦ (pre ++ p.1, p.2)) := by
  rw [settle_next]
  rcases r with f | p
  · rfl
  · simp only [Except.map, List.append_assoc, List.singleton_append]

theorem enclosed?_eq (d : Delimiter) (depth : Nat) {first : Nat} {c : Cursor}
    (hf : first ≤ c.index) (hc : c.InBounds) :
    c.enclosed? d first depth = some (c.settle
      ((enclosed d depth c.rest).map fun p ↦ (c.slice first c.index ++ p.1, p.2))) := by
  induction hts : c.rest generalizing c depth with
  | nil =>
    have herror := settle_missing (α := List Token) hc d.closing
    rw [hts] at herror
    rw [enclosed?_none hts, enclosed, Except.map, herror]
  | cons t ts ih =>
    have hpass : ∀ depth', c.next.enclosed? d first depth' = some (c.settle
        (((enclosed d depth' ts).map fun p ↦ (t :: p.1, p.2)).map
          fun p ↦ (c.slice first c.index ++ p.1, p.2))) := by
      intro depth'
      rw [ih depth' (Nat.le_succ_of_le hf) (.next hts) (rest_next hts), slice_next hts hf,
        settle_passed]
    rw [enclosed?_some hts]
    by_cases hn : t.kind = .newline
    · have herror := settle_missing (α := List Token) hc d.closing
      rw [hts] at herror
      simp only [if_pos hn, enclosed, Except.map, herror]
    rw [if_neg hn]
    by_cases hk : t.kind = d.closing
    · have ho : t.kind ≠ d.opening := by
        rw [hk]
        cases d <;> decide
      cases depth with
      | zero =>
        rw [if_pos ⟨hk, rfl⟩, slice?_eq hf hc]
        simp only [enclosed, if_neg hn, if_pos hk, Except.map, settle, leave_tail hts,
          Option.map_some, List.append_nil]
      | succ depth =>
        rw [if_neg (by omega), if_neg ho, if_pos hk, if_neg (by omega), Nat.add_sub_cancel, hpass]
        simp only [enclosed, if_neg hn, if_pos hk]
    · rw [if_neg (fun h ↦ hk h.1), if_neg hk]
      simp only [enclosed, if_neg hn, if_neg hk]
      split <;> exact hpass _

theorem isAtSequence_eq {c : Cursor} {ts : List Token} (h : c.rest = ts) (mark : List Kind) :
    c.isAtSequence mark = startsWith mark ts := by
  rw [isAtSequence, h]

theorem upTo?_none {c : Cursor} (h : c.rest = []) (ctx : Context) {mark : List Kind}
    (hm : mark ≠ []) (first : Nat) : c.upTo? ctx mark first = some (none, c.seek first) := by
  have hcurrent := current_of_nil h
  have hmark : ¬ c.isAtSequence mark := by
    obtain ⟨k, ks, rfl⟩ := List.exists_cons_of_ne_nil hm
    simp [isAtSequence_eq h, startsWith]
  rw [upTo?, if_neg hmark]
  split
  · rfl
  · next t ht => simp [hcurrent] at ht

theorem upTo?_some {c : Cursor} {t : Token} {ts : List Token} (h : c.rest = t :: ts)
    (ctx : Context) (mark : List Kind) (first : Nat) :
    c.upTo? ctx mark first =
      if startsWith mark (t :: ts) then (c.slice? first c.index).map fun body ↦ (some body, c)
      else if ctx.endsAt t.kind then some (none, c.seek first)
      else c.next.upTo? ctx mark first := by
  have hcurrent := current_of_cons h
  rw [upTo?, isAtSequence_eq h]
  split
  · rfl
  · split
    · next ht => simp [hcurrent] at ht
    · next u hu =>
      obtain rfl : t = u := by simpa [hcurrent] using hu
      rw [advance_of_cons h]

theorem upTo?_eq (ctx : Context) {mark : List Kind} {first : Nat} {c : Cursor} (hm : mark ≠ [])
    (hf : first ≤ c.index) (hc : c.InBounds) :
    c.upTo? ctx mark first = some ((upTo ctx mark c.rest).elim (none, c.seek first) fun p ↦
      (some (c.slice first c.index ++ p.1), { c with index := c.index + p.1.length })) := by
  induction hts : c.rest generalizing c with
  | nil => rw [upTo?_none hts ctx hm, upTo, Option.elim_none]
  | cons t ts ih =>
    rw [upTo?_some hts, upTo]
    split
    · rw [slice?_eq hf hc, Option.map_some, Option.elim_some, List.append_nil, List.length_nil,
        Nat.add_zero]
    · split
      · rfl
      · rw [ih (Nat.le_succ_of_le hf) (.next hts) (rest_next hts), slice_next hts hf]
        cases upTo ctx mark ts with
        | none => rfl
        | some p => simp [next, seek, Nat.add_assoc, Nat.add_comm 1]

theorem upToFence?_none {c : Cursor} (h : c.rest = []) (first : Nat) :
    c.upToFence? first = some (.error (c.unexpected .backtick), c) := by
  have hcurrent := current_of_nil h
  have hmark : ¬ c.isAtSequence fence := by
    simp [isAtSequence_eq h, fence, startsWith]
  rw [upToFence?, if_neg hmark]
  split
  · rfl
  · next t ht => simp [hcurrent] at ht

theorem upToFence?_some {c : Cursor} {t : Token} {ts : List Token} (h : c.rest = t :: ts)
    (first : Nat) :
    c.upToFence? first =
      if startsWith fence (t :: ts) then (c.slice? first c.index).map fun body ↦ (.ok body, c)
      else c.next.upToFence? first := by
  have hcurrent := current_of_cons h
  rw [upToFence?, isAtSequence_eq h]
  split
  · rfl
  · split
    · next ht => simp [hcurrent] at ht
    · rw [advance_of_cons h]

/-- Up to a fence the loop reads what the list gives; the fence is still ahead then. -/
theorem upToFence?_eq {first : Nat} {c : Cursor} (hf : first ≤ c.index) (hc : c.InBounds) :
    c.upToFence? first = some (match upToFence c.rest with
      | .ok p => (.ok (c.slice first c.index ++ p.1), { c with index := c.index + p.1.length })
      | .error f => (.error (f.locate c.tokens), c.leave f.unread)) := by
  induction hts : c.rest generalizing c with
  | nil =>
    have herror := settle_missing (α := List Token) hc .backtick
    rw [hts] at herror
    rw [upToFence?_none hts, upToFence]
    exact congrArg some herror.symm
  | cons t ts ih =>
    rw [upToFence?_some hts, upToFence]
    split
    · simp only [slice?_eq hf hc, Option.map_some, List.append_nil, List.length_nil, Nat.add_zero]
    · rw [ih (Nat.le_succ_of_le hf) (.next hts) (rest_next hts), slice_next hts hf]
      cases upToFence ts with
      | error f => rfl
      | ok p => simp [Except.map, next, Nat.add_assoc, Nat.add_comm 1]

theorem skip_eq (c : Cursor) (k : Kind) :
    c.skip k = { c with index := c.index + (c.rest.takeWhile (·.kind == k)).length } := by
  induction hts : c.rest generalizing c with
  | nil => rw [skip, dif_neg (by simp [isAt_of_nil hts]), List.takeWhile_nil, List.length_nil,
      Nat.add_zero]
  | cons t ts ih =>
    by_cases ht : t.kind = k
    · rw [skip, dif_pos (by simp [isAt_of_cons hts, ht]), ih c.next (rest_next hts),
        List.takeWhile_cons_of_pos (by simp [ht]), List.length_cons, Nat.add_comm _ 1,
        ← Nat.add_assoc]
      rfl
    · rw [skip, dif_neg (by simpa [isAt_of_cons hts] using ht),
        List.takeWhile_cons_of_neg (by simpa using ht), List.length_nil, Nat.add_zero]

theorem rest_skip (c : Cursor) (k : Kind) :
    (c.skip k).rest = c.rest.dropWhile (·.kind == k) := by
  rw [skip_eq]
  exact rest_add List.takeWhile_append_dropWhile.symm

/-- What is passed on the way to a place further on is the slice up to it. -/
theorem slice?_of_append {c last : Cursor} (hc : c.InBounds) {pre after : List Token}
    (h : c.rest = pre ++ after) (hl : last = { c with index := c.index + pre.length }) :
    (c.slice? c.index last.index).map (fun title ↦ (title, last)) = some (pre, c.leave after) := by
  subst hl
  have hle : c.index ≤ c.tokens.length := hc
  have hlength := c.length_rest
  rw [h, List.length_append] at hlength
  rw [slice?_eq (Nat.le_add_right ..) (by omega), slice_add, h, List.take_left,
    leave_of_append hc h]
  rfl

/-- The title is what stands from here up to where reading it leaves off. -/
theorem title?_eq {c : Cursor} (hc : c.InBounds) :
    ∃ title rest, c.title? = some (title, c.leave rest) ∧
      ∀ level, readTitle level c.rest = (.heading level (Text.trim (Token.spell title)), rest) := by
  have hsplit := List.takeWhile_append_dropWhile (p := (·.kind == .hashtag)) (l := c.rest)
  have hskip := c.skip_eq .hashtag
  have hafter := c.rest_skip .hashtag
  simp only [readTitle, title?]
  generalize c.rest.takeWhile (·.kind == .hashtag) = marks at hsplit hskip ⊢
  generalize c.rest.dropWhile (·.kind == .hashtag) = after at hsplit hafter ⊢
  split
  · next v rest =>
    have htext : c.rest = (marks ++ [⟨.text, v⟩]) ++ rest := by simp [← hsplit]
    have hlast : (c.skip .hashtag).eat .text =
        { c with index := c.index + (marks ++ [(⟨.text, v⟩ : Token)]).length } := by
      rw [eat_of_kind hafter rfl, hskip, next, List.length_append]
      rfl
    refine ⟨_, rest, slice?_of_append hc htext hlast, fun level ↦ ?_⟩
    simp
  · next hne =>
    have hlast : (c.skip .hashtag).eat .text = { c with index := c.index + marks.length } := by
      rw [eat_of_head, hskip]
      rw [hafter]
      rintro ⟨k, v⟩ ht rfl
      obtain ⟨rest, rfl⟩ := List.head?_eq_some_iff.1 ht
      exact hne v rest rfl
    exact ⟨marks, after, slice?_of_append hc hsplit.symm hlast, fun level ↦ rfl⟩

end Folio.Markup.Cursor
