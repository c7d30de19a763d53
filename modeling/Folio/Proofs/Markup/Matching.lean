import Folio.Proofs.Markup.Evidence
import Folio.Proofs.Markup.Pairs
import Folio.Proofs.Markup.Stretch
import Mathlib.Order.Bounds.Defs

namespace Folio.Markup

namespace Pairs

variable {α : Type} [DecidableEq α] {o c x : α} {depth : Nat} {w : List α}

theorem of_cons_open (hoc : o ≠ c) (h : Pairs o c depth (o :: w)) : Pairs o c (depth + 1) w := by
  constructor
  · intro p hp
    have hnever := h.never (o :: p) (List.prefix_cons_inj o |>.2 hp)
    rw [List.count_cons_self, List.count_cons_of_ne hoc] at hnever
    omega
  · have htotal := h.total
    rw [List.count_cons_self, List.count_cons_of_ne hoc] at htotal
    omega

/-- A pair that is closed at the front was opened before. -/
theorem of_cons_close (hoc : o ≠ c) (h : Pairs o c depth (c :: w)) :
    ∃ outer, depth = outer + 1 ∧ Pairs o c outer w := by
  have hfirst := h.never [c] (List.prefix_cons_inj c |>.2 List.nil_prefix)
  rw [List.count_singleton_self, List.count_singleton, if_neg (by simpa using hoc.symm),
    Nat.zero_add] at hfirst
  obtain ⟨outer, rfl⟩ := Nat.exists_eq_add_of_le' hfirst
  refine ⟨outer, rfl, ?_, ?_⟩
  · intro p hp
    have hnever := h.never (c :: p) (List.prefix_cons_inj c |>.2 hp)
    rw [List.count_cons_self, List.count_cons_of_ne hoc.symm] at hnever
    omega
  · have htotal := h.total
    rw [List.count_cons_self, List.count_cons_of_ne hoc.symm] at htotal
    omega

/-- What never is one too many along the way is never too many, as items come one by one. -/
theorem never_of_ne (h : ∀ p, p <+: w → p.count c ≠ p.count o + depth + 1) {p : List α}
    (hp : p <+: w) : p.count c ≤ p.count o + depth := by
  induction p using List.reverseRecOn with
  | nil => simp
  | append_singleton p x ih =>
    have hbefore := ih ((List.prefix_append p [x]).trans hp)
    have hne := h _ hp
    have hstep : [x].count c ≤ 1 := List.count_le_length
    rw [List.count_append, List.count_append] at hne ⊢
    omega

/-- The item that closes a pair behind what is in pairs is the first one too many. -/
theorem first_iff (hoc : o ≠ c) :
    x = c ∧ Pairs o c depth w ↔
      (w ++ [x]).count c = (w ++ [x]).count o + depth + 1 ∧
        ∀ p, p <+: w → p.count c ≠ p.count o + depth + 1 := by
  constructor
  · rintro ⟨rfl, h⟩
    constructor
    · have htotal := h.total
      rw [List.count_append, List.count_append, List.count_singleton_self, List.count_singleton,
        if_neg (by simpa using hoc.symm)]
      omega
    · intro p hp
      have hnever := h.never p hp
      omega
  · rintro ⟨hlast, hne⟩
    have hnever := fun p ↦ never_of_ne hne (p := p)
    have hall := hnever w (List.prefix_refl w)
    rw [List.count_append, List.count_append] at hlast
    have hx : x = c := by
      by_contra hx
      rw [List.count_singleton, if_neg (by simpa using hx)] at hlast
      omega
    subst hx
    rw [List.count_singleton_self, List.count_singleton, if_neg (by simpa using hoc.symm)] at hlast
    exact ⟨rfl, hnever, by omega⟩

end Pairs

theorem Delimiter.opening_ne_closing (d : Delimiter) : d.opening ≠ d.closing := by
  cases d <;> decide

theorem Delimiter.opening_ne_newline (d : Delimiter) : d.opening ≠ .newline := by
  cases d <;> decide

theorem Delimiter.closing_ne_newline (d : Delimiter) : d.closing ≠ .newline := by
  cases d <;> decide

/-- The kinds of these tokens close every pair of delimiters that they open, and `depth` more. -/
abbrev Delimiter.Pairs (d : Delimiter) (depth : Nat) (ts : List Token) : Prop :=
  Markup.Pairs d.opening d.closing depth (ts.map Token.kind)

theorem enclosed_body_pairs {d : Delimiter} {depth : Nat} {ts body rest : List Token}
    (h : enclosed d depth ts = .ok (body, rest)) : d.Pairs depth body := by
  have hpairs := enclosed_pairs d.opening_ne_closing (fun t ↦ [t.kind]) (by simp) (by simp)
    (fun t _ ho hc ↦ by simp [Ne.symm ho, Ne.symm hc]) h
  rwa [← List.map_eq_flatMap] at hpairs

section Steps

variable {d : Delimiter} {t : Token}

theorem enclosed_matching (ht : t.kind = d.closing) (ts : List Token) :
    enclosed d 0 (t :: ts) = .ok ([], ts) := by
  simp only [enclosed, if_neg (ht ▸ d.closing_ne_newline), if_pos ht]

theorem enclosed_closing (ht : t.kind = d.closing) (depth : Nat) (ts : List Token) :
    enclosed d (depth + 1) (t :: ts) =
      (enclosed d depth ts).map fun (body, rest) ↦ (t :: body, rest) := by
  simp only [enclosed, if_neg (ht ▸ d.closing_ne_newline), if_pos ht]

theorem enclosed_opening (ht : t.kind = d.opening) (depth : Nat) (ts : List Token) :
    enclosed d depth (t :: ts) =
      (enclosed d (depth + 1) ts).map fun (body, rest) ↦ (t :: body, rest) := by
  have hline : t.kind ≠ .newline := ht ▸ d.opening_ne_newline
  have hclosing : t.kind ≠ d.closing := ht ▸ d.opening_ne_closing
  simp only [enclosed, if_neg hline, if_neg hclosing, if_pos ht]

theorem enclosed_other (hline : t.kind ≠ .newline) (hopening : t.kind ≠ d.opening)
    (hclosing : t.kind ≠ d.closing) (depth : Nat) (ts : List Token) :
    enclosed d depth (t :: ts) =
      (enclosed d depth ts).map fun (body, rest) ↦ (t :: body, rest) := by
  simp only [enclosed, if_neg hline, if_neg hclosing, if_neg hopening]

end Steps

theorem enclosed_of_pairs {d : Delimiter} {depth : Nat} {body : List Token} {t : Token}
    (hline : Unbroken body) (h : d.Pairs depth body) (ht : t.kind = d.closing)
    (rest : List Token) : enclosed d depth (body ++ t :: rest) = .ok (body, rest) := by
  -- the depth is the number of pairs that are open where the body goes on
  induction body generalizing depth with
  | nil =>
    obtain rfl : 0 = depth := by simpa using h.total
    exact enclosed_matching ht rest
  | cons u body ih =>
    have hbody : Unbroken body := fun v hv ↦ hline v (List.mem_cons_of_mem u hv)
    rw [Delimiter.Pairs, List.map_cons] at h
    rw [List.cons_append]
    by_cases hclosing : u.kind = d.closing
    · rw [hclosing] at h
      obtain ⟨outer, rfl, houter⟩ := h.of_cons_close d.opening_ne_closing
      rw [enclosed_closing hclosing, ih hbody houter, Except.map]
    by_cases hopening : u.kind = d.opening
    · rw [hopening] at h
      have hinner := h.of_cons_open d.opening_ne_closing
      rw [enclosed_opening hopening, ih hbody hinner, Except.map]
    · have hu : u.kind ≠ .newline := hline u List.mem_cons_self
      have hsame : d.Pairs depth body := by
        apply Markup.Pairs.of_append (u := [u.kind])
        · simpa using Ne.symm hopening
        · simpa using Ne.symm hclosing
        · exact h
      rw [enclosed_other hu hopening hclosing, ih hbody hsame, Except.map]

/-- One delimiter more is closed than opened among these tokens. -/
def Delimiter.Exceeds (d : Delimiter) (ts : List Token) : Prop :=
  (ts.map Token.kind).count d.closing = (ts.map Token.kind).count d.opening + 1

instance (d : Delimiter) (ts : List Token) : Decidable (d.Exceeds ts) :=
  inferInstanceAs (Decidable (_ = _))

/-- What closes a pair behind tokens that are in pairs is the first to be one too many. -/
theorem Delimiter.pairs_iff_first {d : Delimiter} {w : List Token} {t : Token} :
    t.kind = d.closing ∧ d.Pairs 0 w ↔
      d.Exceeds (w ++ [t]) ∧ ∀ k < w.length, ¬ d.Exceeds (w.take (k + 1)) := by
  rw [Markup.Pairs.first_iff d.opening_ne_closing, Exceeds, List.map_append]
  apply and_congr_right
  intro _
  constructor
  · intro hne k _ hexceeds
    exact hne _ ((List.take_prefix (k + 1) w).map Token.kind) hexceeds
  · intro hne p hp hcount
    obtain ⟨v, hv, rfl⟩ := List.prefix_map_iff.1 hp
    cases v with
    | nil => simp at hcount
    | cons u v =>
      apply hne v.length hv.length_le
      rw [← List.length_cons, ← List.prefix_iff_eq_take.1 hv]
      exact hcount

namespace Cursor

variable {c : Cursor} {d : Delimiter} {e : Nat}

/-- Reads the text up to the delimiter that closes an open one, and past that. -/
def readEnclosed (c : Cursor) (d : Delimiter) : Except ParseError String × Cursor :=
  c.settle ((enclosed d 0 c.rest).map fun (body, rest) ↦ (Token.spell body, rest))

/-- `e` is the first place from the cursor on such that up to it, and with it, one delimiter more is
closed than opened. -/
def Matches (c : Cursor) (d : Delimiter) (e : Nat) : Prop :=
  IsLeast {i | c.index ≤ i ∧ i < c.tokens.length ∧ d.Exceeds (c.slice c.index (i + 1))} e

/-- `p` is the place of the first newline from the cursor on, or the end if there is none. -/
def LineEnds (c : Cursor) (p : Nat) : Prop :=
  IsLeast {i | c.index ≤ i ∧ (kindAt c.tokens i = some .newline ∨ i = c.tokens.length)} p

theorem kindAt_add (c : Cursor) (n : Nat) :
    kindAt c.tokens (c.index + n) = c.rest[n]?.map Token.kind := by
  rw [kindAt, rest, List.getElem?_drop]

theorem Matches.exists_body (h : c.Matches d e) : ∃ body t rest, c.rest = body ++ t :: rest ∧
    t.kind = d.closing ∧ d.Pairs 0 body ∧ e = c.index + body.length := by
  obtain ⟨⟨hle, hlt, hexceeds⟩, hleast⟩ := h
  obtain ⟨n, rfl⟩ := Nat.exists_eq_add_of_le hle
  have hn : n < c.rest.length := by
    rw [length_rest]
    omega
  have hlength : (c.rest.take n).length = n := by
    rw [List.length_take, Nat.min_eq_left hn.le]
  have hpairs : c.rest[n].kind = d.closing ∧ d.Pairs 0 (c.rest.take n) := by
    apply Delimiter.pairs_iff_first.2
    constructor
    · rw [← List.take_succ_eq_append_getElem hn, ← slice_add]
      exact hexceeds
    · intro k hk hearlier
      rw [hlength] at hk
      rw [List.take_take, Nat.min_eq_left hk, ← slice_add] at hearlier
      have hbefore := hleast (a := c.index + k) ⟨by omega, by omega, hearlier⟩
      omega
  refine ⟨c.rest.take n, c.rest[n], c.rest.drop (n + 1), ?_, hpairs.1, hpairs.2, ?_⟩
  · rw [← List.drop_eq_getElem_cons hn, List.take_append_drop]
  · rw [hlength]

theorem matches_of_body {body rest : List Token} {t : Token} (hrest : c.rest = body ++ t :: rest)
    (ht : t.kind = d.closing) (h : d.Pairs 0 body) : c.Matches d (c.index + body.length) := by
  obtain ⟨hlast, hne⟩ := Delimiter.pairs_iff_first.1 ⟨ht, h⟩
  have htake : ∀ k, c.slice c.index (c.index + k + 1) = (body ++ t :: rest).take (k + 1) := by
    intro k
    rw [← hrest]
    exact slice_add c (k + 1)
  constructor
  · have hlength := c.length_rest
    rw [hrest, List.length_append, List.length_cons] at hlength
    refine ⟨by omega, by omega, ?_⟩
    rw [htake, List.take_length_add_append]
    exact hlast
  · rintro i ⟨hle, -, hexceeds⟩
    obtain ⟨k, rfl⟩ := Nat.exists_eq_add_of_le hle
    by_contra hlt
    rw [htake, List.take_append_of_le_length (by omega)] at hexceeds
    exact hne k (by omega) hexceeds

theorem lineEnds_of_line {line rest : List Token} (hc : c.InBounds) (hrest : c.rest = line ++ rest)
    (hline : Unbroken line) (hend : ∀ t ∈ rest.head?, t.kind = .newline) :
    c.LineEnds (c.index + line.length) := by
  have hle : c.index ≤ c.tokens.length := hc
  have hlength := c.length_rest
  rw [hrest, List.length_append] at hlength
  constructor
  · refine ⟨by omega, ?_⟩
    cases rest with
    | nil =>
      rw [List.length_nil] at hlength
      exact .inr (by omega)
    | cons t rest =>
      left
      rw [kindAt_add, hrest, List.getElem?_append_right (Nat.le_refl _), Nat.sub_self]
      exact congrArg some (hend t rfl)
  · rintro i ⟨hi, hends⟩
    obtain ⟨k, rfl⟩ := Nat.exists_eq_add_of_le hi
    by_contra hlt
    rcases hends with hnewline | hall
    · have hk : k < line.length := by omega
      rw [kindAt_add, hrest, List.getElem?_append_left hk, List.getElem?_eq_getElem hk] at hnewline
      exact hline _ (List.getElem_mem hk) (Option.some.inj hnewline)
    · omega

theorem readEnclosed_of_matches (hc : c.InBounds) (h : c.Matches d e)
    (hline : Unbroken (c.slice c.index e)) :
    c.readEnclosed d = (.ok (Token.spell (c.slice c.index e)), { c with index := e + 1 }) ∧
      d.Pairs 0 (c.slice c.index e) := by
  have hlt : e < c.tokens.length := h.1.2.1
  obtain ⟨body, t, rest, hrest, ht, hpairs, rfl⟩ := h.exists_body
  have hslice : c.slice c.index (c.index + body.length) = body := by
    rw [slice_add, hrest, List.take_left]
  have hleave : c.leave rest = { c with index := c.index + body.length + 1 } := by
    have hpassed : c.rest = (body ++ [t]) ++ rest := by simp [hrest]
    rw [leave_of_append hc hpassed, List.length_append]
    rfl
  rw [hslice] at hline ⊢
  refine ⟨?_, hpairs⟩
  rw [readEnclosed, hrest, enclosed_of_pairs hline hpairs ht, Except.map, settle, hleave]

theorem settle_missing_behind {α : Type} {line rest : List Token} (hc : c.InBounds)
    (hrest : c.rest = line ++ rest) (k : Kind) :
    (c.settle (.error (.missing k rest)) : Except ParseError α × Cursor) =
      (.error (.unexpected k (kindAt c.tokens (c.index + line.length)) (c.index + line.length)
        (lineAt c.tokens (c.index + line.length))), { c with index := c.index + line.length }) := by
  have hle : c.index ≤ c.tokens.length := hc
  have hlength := c.length_rest
  rw [hrest, List.length_append] at hlength
  let behind : Cursor := { c with index := c.index + line.length }
  have hbehind : behind.InBounds := show c.index + line.length ≤ c.tokens.length by omega
  have hdrop : behind.rest = rest := rest_add hrest
  have hfault := settle_missing (α := α) hbehind k
  rw [hdrop] at hfault
  exact hfault

theorem readEnclosed_of_line (hc : c.InBounds)
    (h : ∀ e, c.Matches d e → ¬ Unbroken (c.slice c.index e)) :
    ∃ p, c.LineEnds p ∧ c.readEnclosed d =
      (.error (.unexpected d.closing (kindAt c.tokens p) p (lineAt c.tokens p)),
        { c with index := p }) := by
  cases hread : enclosed d 0 c.rest with
  | ok r =>
    obtain ⟨t, ht, hline, hrest⟩ := enclosed_spans hread
    have hmatches := matches_of_body hrest ht (enclosed_body_pairs hread)
    refine absurd ?_ (h _ hmatches)
    rw [slice_add, hrest, List.take_left]
    exact hline
  | error f =>
    obtain ⟨line, rest, hrest, hline, rfl, hend⟩ := enclosed_error hread
    refine ⟨c.index + line.length, lineEnds_of_line hc hrest hline hend, ?_⟩
    rw [readEnclosed, hread]
    exact settle_missing_behind hc hrest d.closing

/-- The text up to the delimiter that closes an open one is read if and only if that delimiter
stands on the line; otherwise the end of the line is named. The counter of open pairs never goes
below zero. -/
theorem readEnclosed_matching (hc : c.InBounds) (d : Delimiter) :
    (c.enclosed? d c.index 0).map (fun p ↦ (p.1.map Token.spell, p.2)) = some (c.readEnclosed d) ∧
      ((∃ text, (c.readEnclosed d).1 = .ok text) ↔
        ∃ e, c.Matches d e ∧ Unbroken (c.slice c.index e)) ∧
      (∀ e, c.Matches d e → Unbroken (c.slice c.index e) →
        c.readEnclosed d = (.ok (Token.spell (c.slice c.index e)), { c with index := e + 1 }) ∧
          d.Pairs 0 (c.slice c.index e)) ∧
      ((∀ e, c.Matches d e → ¬ Unbroken (c.slice c.index e)) →
        ∃ p, c.LineEnds p ∧ c.readEnclosed d =
          (.error (.unexpected d.closing (kindAt c.tokens p) p (lineAt c.tokens p)),
            { c with index := p })) := by
  refine ⟨?_, ?_, fun e ↦ readEnclosed_of_matches hc, readEnclosed_of_line hc⟩
  · rw [enclosed?_eq d 0 (Nat.le_refl _) hc, slice_self, Option.map_some, readEnclosed]
    cases enclosed d 0 c.rest <;> rfl
  · constructor
    · rintro ⟨text, hok⟩
      by_contra hnone
      simp only [not_exists, not_and] at hnone
      obtain ⟨p, -, herror⟩ := readEnclosed_of_line hc hnone
      rw [herror] at hok
      cases hok
    · rintro ⟨e, he, hline⟩
      rw [(readEnclosed_of_matches hc he hline).1]
      exact ⟨_, rfl⟩

/-- A label with a pair of brackets in it, read from behind its first bracket. -/
theorem readEnclosed_matching_nested :
    let c : Cursor := ⟨tokenize "[a[b]c](d)\n", 1⟩
    c.InBounds ∧ c.Matches .bracket 6 ∧
      c.readEnclosed .bracket = (.ok "a[b]c", ⟨tokenize "[a[b]c](d)\n", 7⟩) := by
  intro c
  have hc : c.InBounds := show 1 ≤ (tokenize "[a[b]c](d)\n").length by decide +kernel
  have hmatches : c.Matches .bracket 6 := by
    constructor
    · exact ⟨by decide, by decide +kernel, by decide +kernel⟩
    · rintro i ⟨hle, -, hexceeds⟩
      have hearlier : ∀ j < 6, 1 ≤ j → ¬ Delimiter.bracket.Exceeds (c.slice 1 (j + 1)) := by
        decide +kernel
      by_contra hlt
      exact hearlier i (by omega) hle hexceeds
  have hline : ∀ t ∈ c.slice 1 6, t.kind ≠ .newline := by decide +kernel
  have htext : Token.spell (c.slice 1 6) = "a[b]c" := by decide +kernel
  obtain ⟨-, -, hread, -⟩ := readEnclosed_matching hc .bracket
  refine ⟨hc, hmatches, ?_⟩
  rw [(hread 6 hmatches hline).1]
  exact congrArg (fun text ↦ (Except.ok text, _)) htext

end Cursor

end Folio.Markup
