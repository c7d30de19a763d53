import Folio.Proofs.Markup.Evidence
import Folio.Proofs.Markup.Rounds

namespace Folio.Markup

def unread {α : Type} : Except Failure (α × List Token) → List Token
  | .ok p => p.2
  | .error f => f.unread

theorem Failure.unread_suffix_rest (f : Failure) : f.unread <:+ f.rest := by
  cases f with
  | missing k r => exact List.suffix_refl r
  | unclosed r => exact List.nil_suffix
  | unopened r => exact List.suffix_refl r

theorem Fails.unread_suffix {ts : List Token} {f : Failure} (h : Fails ts f) :
    f.unread <:+ ts := by
  obtain ⟨before, rfl, -⟩ := h
  exact f.unread_suffix_rest.trans (List.suffix_append ..)

theorem unread_readRun_suffix (ctx : Context) (run : Run) (ts : List Token) :
    unread (readRun ctx run ts) <:+ ts := by
  cases h : readRun ctx run ts with
  | error f => exact (readRun_error h).unread_suffix
  | ok p => exact readRun_suffix h

theorem step_unread_suffix {o : Outline} {t : Token} {ts : List Token} {f : Failure}
    (h : o.step t ts = .error f) : f.unread <:+ t :: ts := by
  unfold Outline.step at h
  split at h
  · simp at h
  · split at h
    · obtain rfl := Except.error.inj h
      exact List.suffix_refl _
    · simp at h
  · exact (readLeaf_error (map_eq_error_iff.1 h)).unread_suffix

theorem unread_run_suffix (stop : Outline → Bool) (o : Outline) (ts : List Token) :
    unread (o.run stop ts) <:+ ts := by
  fun_induction Outline.run stop o ts with
  | case1 | case2 => exact List.suffix_refl _
  | case3 => exact List.nil_suffix
  | case4 o hs t ts f hf => exact step_unread_suffix hf
  | case5 o hs t ts o' r hn ih =>
    exact ih.trans ((Outline.step_suffix hn).trans (List.suffix_cons ..))

theorem unread_map {α β : Type} (g : α → β) (r : Except Failure (α × List Token)) :
    unread (r.map fun p ↦ (g p.1, p.2)) = unread r := by
  rcases r with f | p <;> rfl

theorem unread_readBlock_suffix (ts : List Token) : unread (readBlock ts) <:+ ts := by
  cases ts with
  | nil => exact List.suffix_refl _
  | cons t ts =>
    rw [readBlock_cons]
    cases h : Outline.start.step t ts with
    | error f => exact step_unread_suffix h
    | ok p =>
      have hrun := unread_run_suffix (·.opened.isEmpty) p.1 p.2
      rw [← unread_map (fun o ↦ o.blocks.head?)] at hrun
      exact hrun.trans ((Outline.step_suffix h).trans (List.suffix_cons ..))

/-- A block takes at least the token that it begins with. -/
theorem readBlock_suffix {t : Token} {ts rest : List Token} {b : Option Block}
    (h : readBlock (t :: ts) = .ok (b, rest)) : rest <:+ ts := by
  rw [readBlock_eq_pair] at h
  exact Taken.suffix_of_pair h

namespace Cursor

theorem settle_snd {α : Type} (c : Cursor) (r : Except Failure (α × List Token)) :
    (c.settle r).2 = c.leave (unread r) := by
  rcases r with f | p <;> rfl

theorem settle_eq_ok {α : Type} {c : Cursor} {r : Except Failure (α × List Token)} {a : α}
    (h : (c.settle r).1 = .ok a) : ∃ rest, r = .ok (a, rest) := by
  rcases r with f | ⟨b, rest⟩
  · cases h
  · obtain rfl := Except.ok.inj h
    exact ⟨rest, rfl⟩

theorem index_le_leave {c : Cursor} {ts : List Token} (hc : c.InBounds) (h : ts <:+ c.rest) :
    c.index ≤ (c.leave ts).index := by
  have hle : c.index ≤ c.tokens.length := hc
  have hlength := h.length_le
  rw [length_rest] at hlength
  change c.index ≤ c.tokens.length - ts.length
  omega

/-- The cursors that steps and reading lead to from the start of a list, failed reading included. -/
inductive Reachable (ts : List Token) : Cursor → Prop
  | start : Reachable ts (.start ts)
  | advance {c : Cursor} : Reachable ts c → Reachable ts c.advance
  | eat {c : Cursor} (k : Kind) : Reachable ts c → Reachable ts (c.eat k)
  | expect {c : Cursor} (k : Kind) : Reachable ts c → Reachable ts (c.expect k).2
  | skipNewlines {c : Cursor} : Reachable ts c → Reachable ts c.skipNewlines
  | seek {c : Cursor} (position : Nat) : Reachable ts c → Reachable ts (c.seek position)
  | run {c c' : Cursor} {n : Nat} {r : Except ParseError Run} (ctx : Context) :
    Reachable ts c → c.rounds ≤ n → Walk.run ctx n [] c = some (r, c') → Reachable ts c'
  | block {c c' : Cursor} {n : Nat} {r : Except ParseError (Option Block)} :
    Reachable ts c → c.rounds ≤ n → Walk.block n c = some (r, c') → Reachable ts c'
  | blocks {c c' : Cursor} {n : Nat} {r : Except ParseError (List Block)} :
    Reachable ts c → c.rounds ≤ n → Walk.blocks n [] c = some (r, c') → Reachable ts c'

structure Over (ts : List Token) (c : Cursor) : Prop where
  tokens : c.tokens = ts
  inBounds : c.InBounds

namespace Over

variable {ts : List Token} {c c' : Cursor}

theorem next (h : Over ts c) {k : Kind} (hk : c.isAt k) : Over ts c.next :=
  ⟨h.tokens, lt_of_isAt hk⟩

theorem advance (h : Over ts c) : Over ts c.advance := by
  cases hrest : c.rest with
  | nil => rwa [advance_of_nil hrest]
  | cons t us =>
    rw [advance_of_cons hrest]
    exact ⟨h.tokens, .next hrest⟩

theorem eat (h : Over ts c) (k : Kind) : Over ts (c.eat k) := by
  unfold Cursor.eat
  split
  · next hk => exact h.next hk
  · exact h

theorem expect (h : Over ts c) (k : Kind) : Over ts (c.expect k).2 := by
  unfold Cursor.expect
  split
  · next t ht =>
    split
    · next hk =>
      obtain ⟨us, hrest⟩ := exists_rest_of_current ht
      exact ⟨h.tokens, .next hrest⟩
    · exact h
  · exact h

theorem skip (h : Over ts c) (k : Kind) : Over ts (c.skip k) := by
  fun_induction Cursor.skip c k with
  | case1 c hk ih => exact ih (h.next hk)
  | case2 c hk => exact h

theorem seek (h : Over ts c) (position : Nat) : Over ts (c.seek position) :=
  ⟨h.tokens, Nat.min_le_right ..⟩

/-- What a walk of readers leads to is a place in the same tokens. -/
theorem of_settle {α : Type} (h : Over ts c) {x : Except Failure (α × List Token)}
    {r : Except ParseError α} (hs : some (c.settle x) = some (r, c')) : Over ts c' := by
  obtain rfl : (c.settle x).2 = c' := congrArg Prod.snd (Option.some.inj hs)
  rw [settle_snd]
  exact ⟨h.tokens, .leave c _⟩

end Over

theorem Reachable.over {ts : List Token} {c : Cursor} (h : Reachable ts c) : Over ts c := by
  induction h with
  | start => exact ⟨rfl, Nat.zero_le _⟩
  | advance _ ih => exact ih.advance
  | eat k _ ih => exact ih.eat k
  | expect k _ ih => exact ih.expect k
  | skipNewlines _ ih => exact ih.skip _
  | seek position _ ih => exact ih.seek position
  | run ctx _ hn hwalk ih => exact ih.of_settle ((Walk.run_eq ih.inBounds hn ctx).symm.trans hwalk)
  | block _ hn hwalk ih => exact ih.of_settle ((Walk.block_eq ih.inBounds hn).symm.trans hwalk)
  | blocks _ hn hwalk ih => exact ih.of_settle ((Walk.blocks_eq ih.inBounds hn).symm.trans hwalk)

/-- What walking on from a cursor comes to: each walk ends, with no cut out of bounds and no counter
below zero, within rounds that the number of tokens bounds, ends where reading the tokens that are
left ends, and gets on. -/
structure Progresses (c : Cursor) : Prop where
  run_ends : ∀ ctx n, c.rounds ≤ n → Walk.run ctx n [] c = some (c.readRun ctx)
  run_le : ∀ ctx, c.index ≤ (c.readRun ctx).2.index
  run_stops : ∀ ctx run, (c.readRun ctx).1 = .ok run →
    (c.readRun ctx).2.kind? = none ∨ (c.readRun ctx).2.kind? = some .newline ∨
      ctx = .cell ∧ (c.readRun ctx).2.kind? = some .pipe
  block_ends : ∀ n, c.rounds ≤ n → Walk.block n c = some c.readBlock
  block_le : c.index ≤ c.readBlock.2.index
  block_lt : ∀ b, c.readBlock.1 = .ok b → c.index < c.tokens.length →
    c.index < c.readBlock.2.index
  blocks_ends : ∀ n, c.rounds ≤ n → Walk.blocks n [] c = some c.readBlocks
  blocks_le : c.index ≤ c.readBlocks.2.index
  blocks_end : ∀ bs, c.readBlocks.1 = .ok bs → c.readBlocks.2.index = c.tokens.length

theorem unread_readBlocks_suffix (ts : List Token) : unread (Markup.readBlocks ts) <:+ ts := by
  have hrun := unread_run_suffix (fun _ ↦ false) .start ts
  rw [← unread_map (fun o ↦ o.blocks.reverse)] at hrun
  exact hrun

theorem readBlocks_rest {ts rest : List Token} {bs : List Block}
    (h : Markup.readBlocks ts = .ok (bs, rest)) : rest = [] := by
  obtain ⟨⟨o, left⟩, hrun, h⟩ := map_eq_ok_iff.1 h
  obtain ⟨-, rfl⟩ := Prod.mk.inj h
  exact (Outline.run_to_end hrun).2

theorem kind?_of_endsAt {c : Cursor} {ctx : Context}
    (h : ∀ t ∈ c.rest.head?, ctx.endsAt t.kind) :
    c.kind? = none ∨ c.kind? = some .newline ∨ ctx = .cell ∧ c.kind? = some .pipe := by
  rw [kind?_eq_head?]
  cases hr : c.rest with
  | nil => exact .inl rfl
  | cons t ts =>
    have ht : ctx.endsAt t.kind := h t (by rw [hr]; rfl)
    have hkind : t.kind = .newline ∨ t.kind = .pipe ∧ ctx = .cell := by
      simpa [Context.endsAt] using ht
    rcases hkind with hk | ⟨hk, hctx⟩
    · exact .inr (.inl (congrArg some hk))
    · exact .inr (.inr ⟨hctx, congrArg some hk⟩)

theorem InBounds.progresses {c : Cursor} (hc : c.InBounds) : Progresses c := by
  constructor
  · intro ctx n hn
    exact Walk.run_eq hc hn ctx
  · intro ctx
    rw [readRun, settle_snd]
    exact index_le_leave hc (unread_readRun_suffix ..)
  · intro ctx run hok
    obtain ⟨rest, hr⟩ := settle_eq_ok hok
    obtain ⟨_, _, _, _, _, hstop⟩ := readRun_spans hr
    apply kind?_of_endsAt
    rw [readRun, settle_snd, hr, unread, rest_leave hc (readRun_suffix hr)]
    exact hstop
  · intro n hn
    exact Walk.block_eq hc hn
  · rw [readBlock, settle_snd]
    exact index_le_leave hc (unread_readBlock_suffix _)
  · intro b hok hlt
    obtain ⟨rest, hr⟩ := settle_eq_ok hok
    have hne : c.rest ≠ [] := by
      rw [← List.length_pos_iff, length_rest]
      omega
    obtain ⟨t, ts, hts⟩ := List.exists_cons_of_ne_nil hne
    have hnext : c.next.index ≤ (c.next.leave rest).index := by
      apply index_le_leave (.next hts)
      rw [rest_next hts]
      exact readBlock_suffix (hts ▸ hr)
    rw [readBlock, settle_snd, hr]
    exact hnext
  · intro n hn
    exact Walk.blocks_eq hc hn
  · rw [readBlocks, settle_snd]
    exact index_le_leave hc (unread_readBlocks_suffix _)
  · intro bs hok
    obtain ⟨rest, hr⟩ := settle_eq_ok hok
    rw [readBlocks, settle_snd, hr, unread, readBlocks_rest hr]
    rfl

/-- From every cursor that steps and walks lead to, failed ones included, walking on stays within
the tokens, ends, never moves back and gets on. -/
theorem reachable_progresses {ts : List Token} {c : Cursor} (h : Reachable ts c) :
    c.tokens = ts ∧ c.index ≤ ts.length ∧ Progresses c := by
  obtain ⟨rfl, hc⟩ := h.over
  exact ⟨rfl, hc, hc.progresses⟩

/-- After a list with an open link the lines below it can still be read. -/
theorem reachable_progresses_after_failure :
    (Cursor.start (tokenize "- [a](b\n- c\n")).readBlock.2.readBlocks.2.index = 11 := by
  have hstart : Reachable (tokenize "- [a](b\n- c\n") (.start (tokenize "- [a](b\n- c\n")) := .start
  have hblock : Walk.block (Cursor.start (tokenize "- [a](b\n- c\n")).rounds
      (.start (tokenize "- [a](b\n- c\n")) =
        some (Cursor.start (tokenize "- [a](b\n- c\n")).readBlock :=
    Walk.block_eq (Nat.zero_le _) (Nat.le_refl _)
  have hreached : Reachable (tokenize "- [a](b\n- c\n")
      (Cursor.start (tokenize "- [a](b\n- c\n")).readBlock.2 := hstart.block (Nat.le_refl _) hblock
  obtain ⟨htokens, -, hprogress⟩ := reachable_progresses hreached
  have hok : (Cursor.start (tokenize "- [a](b\n- c\n")).readBlock.2.readBlocks.1 =
      .ok [.list [[.text "c"]]] := by decide +kernel
  rw [hprogress.blocks_end _ hok, htokens]
  decide +kernel

end Cursor

end Folio.Markup
