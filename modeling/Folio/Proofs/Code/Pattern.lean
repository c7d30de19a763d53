import Folio.Code.Lexeme
import Mathlib.Data.List.Basic

namespace Folio.Code

open Text

/-- What a pattern finds at the front of a text: what it takes, what is left, and what its groups
take. -/
structure Match where
  taken : List Char
  rest : List Char
  groups : List (List Char)
deriving DecidableEq

namespace Match

def ofCut (cut : Cut) : Match :=
  ⟨cut.1, cut.2, []⟩

def followedBy (m m' : Match) : Match :=
  ⟨m.taken ++ m'.taken, m'.rest, m.groups ++ m'.groups⟩

/-- The character before what is left, where `before` stands before the match. -/
def last? (m : Match) (before : Option Char) : Option Char :=
  m.taken.getLast?.or before

theorem followedBy_comp (m m' : Match) :
    m.followedBy ∘ m'.followedBy = (m.followedBy m').followedBy := by
  funext m''
  simp [followedBy]

theorem last?_followedBy (m m' : Match) (before : Option Char) :
    (m.followedBy m').last? before = m'.last? (m.last? before) := by
  rw [last?, last?, last?, followedBy, List.getLast?_append, Option.or_assoc]

@[simp] theorem followedBy_nil (m : Match) (cs : List Char) :
    m.followedBy ⟨[], cs, []⟩ = ⟨m.taken, cs, m.groups⟩ := by
  simp [followedBy]

end Match

/-- Patterns of texts. An edge stands where a word begins or ends, `stop` at the end of a text. -/
inductive Pattern
  | empty
  | one (p : Char → Bool)
  | edge
  | stop
  | seq (a b : Pattern)
  | alt (a b : Pattern)
  | star (a : Pattern)
  | group (a : Pattern)

namespace Pattern

/-- Matches back to back, up to `n` of them; more of them come first. -/
def repeated (tries : Option Char → List Char → List Match) :
    Nat → Option Char → List Char → List Match
  | 0, _, cs => [⟨[], cs, []⟩]
  | n + 1, before, cs =>
    ((tries before cs).flatMap fun m ↦
      (repeated tries n (m.last? before) m.rest).map m.followedBy) ++ [⟨[], cs, []⟩]

/-- The matches at the front of a text that stands behind the character `before`. Those come first
that the pattern prefers: those of the left one of two alternatives, and those with more
repetitions. What is repeated takes something each time, so it fits no more often than the text is
long. -/
def tries : Pattern → Option Char → List Char → List Match
  | empty, _, cs => [⟨[], cs, []⟩]
  | one p, _, cs =>
    match cs with
    | c :: cs => if p c then [⟨[c], cs, []⟩] else []
    | [] => []
  | edge, before, cs => if before.any isWord = cs.head?.any isWord then [] else [⟨[], cs, []⟩]
  | stop, _, cs => if cs = [] then [⟨[], [], []⟩] else []
  | seq a b, before, cs =>
    (a.tries before cs).flatMap fun m ↦ (b.tries (m.last? before) m.rest).map m.followedBy
  | alt a b, before, cs => a.tries before cs ++ b.tries before cs
  | star a, before, cs => repeated a.tries cs.length before cs
  | group a, before, cs =>
    (a.tries before cs).map fun m ↦ { m with groups := m.taken :: m.groups }

def first (a : Pattern) (before : Option Char) (cs : List Char) : Option Match :=
  (a.tries before cs).head?

def find? (a : Pattern) (before : Option Char) : List Char → Option Match
  | [] => a.first before []
  | c :: cs => (a.first before (c :: cs)).or (a.find? (some c) cs)

def findAll (a : Pattern) (before : Option Char) (cs : List Char) : List Match :=
  match a.find? before cs with
  | some m =>
    if m.rest.length < cs.length then m :: a.findAll (m.last? before) m.rest else [m]
  | none => []
termination_by cs.length

def opt (a : Pattern) : Pattern :=
  alt a empty

def many (p : Char → Bool) : Pattern :=
  seq (one p) (star (one p))

def lit : List Char → Pattern
  | [] => empty
  | c :: cs => seq (one (· = c)) (lit cs)

def anyOf : List Pattern → Pattern
  | [] => one fun _ ↦ false
  | a :: as => alt a (anyOf as)

variable {a b k : Pattern} {p : Char → Bool} {before : Option Char} {c : Char} {cs : List Char}

theorem tries_empty : empty.tries before cs = [⟨[], cs, []⟩] :=
  rfl

theorem tries_alt : (alt a b).tries before cs = a.tries before cs ++ b.tries before cs :=
  rfl

theorem tries_one_nil : (one p).tries before [] = [] :=
  rfl

theorem tries_one_cons :
    (one p).tries before (c :: cs) = if p c then [⟨[c], cs, []⟩] else [] :=
  rfl

theorem tries_seq : (seq a k).tries before cs =
    (a.tries before cs).flatMap fun m ↦ (k.tries (m.last? before) m.rest).map m.followedBy :=
  rfl

theorem tries_one_seq_cons : (seq (one p) k).tries before (c :: cs) =
    if p c then (k.tries (some c) cs).map (Match.mk [c] cs []).followedBy else [] := by
  rw [tries_seq, tries_one_cons]
  split
  · exact List.flatMap_singleton ..
  · rfl

theorem tries_empty_seq : (seq empty k).tries before cs = k.tries before cs := by
  rw [tries_seq, tries_empty, List.flatMap_singleton]
  exact List.map_id _

theorem tries_alt_seq : (seq (alt a b) k).tries before cs =
    (seq a k).tries before cs ++ (seq b k).tries before cs :=
  List.flatMap_append

theorem tries_opt_seq : (seq (opt a) k).tries before cs =
    (seq a k).tries before cs ++ k.tries before cs := by
  rw [opt, tries_alt_seq, tries_empty_seq]

theorem tries_seq_assoc : (seq (seq a b) k).tries before cs = (seq a (seq b k)).tries before cs := by
  simp only [tries_seq, List.flatMap_assoc, List.map_flatMap, List.flatMap_map, List.map_map,
    Match.last?_followedBy, Match.followedBy_comp]
  rfl

/-- Before what begins with a word, an edge tells whether a word ends there. -/
theorem tries_edge_seq (h : cs.head?.any isWord = false → k.tries before cs = []) :
    (seq edge k).tries before cs = if before.any isWord then [] else k.tries before cs := by
  have hk : (k.tries before cs).map (Match.mk [] cs []).followedBy = k.tries before cs :=
    List.map_id _
  rw [tries_seq, tries]
  cases hcs : cs.head?.any isWord with
  | true =>
    split
    · rfl
    · exact (List.flatMap_singleton ..).trans hk
  | false =>
    rw [h hcs, ite_self]
    split
    · rfl
    · exact (List.flatMap_singleton ..).trans (hk.trans (h hcs))

/-- Behind a word, an edge stands where the word does not go on. -/
theorem tries_edge (h : before.any isWord) :
    edge.tries before cs = if atWordEnd cs then [⟨[], cs, []⟩] else [] := by
  rw [tries, h, atWordEnd]
  cases cs with
  | nil => rfl
  | cons c cs => cases hc : isWord c <;> simp [hc]

/-- A match loses nothing of the text. -/
theorem append_of_mem_tries {m : Match} (h : m ∈ a.tries before cs) : m.taken ++ m.rest = cs := by
  induction a generalizing before cs m with
  | empty =>
    obtain rfl := List.mem_singleton.1 h
    rfl
  | one p =>
    cases cs with
    | nil => simp [tries_one_nil] at h
    | cons c cs =>
      obtain ⟨-, h⟩ := List.mem_ite_nil_right.1 h
      obtain rfl := List.mem_singleton.1 h
      rfl
  | edge =>
    obtain ⟨-, h⟩ := List.mem_ite_nil_left.1 h
    obtain rfl := List.mem_singleton.1 h
    rfl
  | stop =>
    obtain ⟨rfl, h⟩ := List.mem_ite_nil_right.1 h
    obtain rfl := List.mem_singleton.1 h
    rfl
  | seq a b iha ihb =>
    obtain ⟨m₁, h₁, h⟩ := List.mem_flatMap.1 h
    obtain ⟨m₂, h₂, rfl⟩ := List.mem_map.1 h
    rw [Match.followedBy, List.append_assoc, ihb h₂, iha h₁]
  | alt a b iha ihb =>
    rcases List.mem_append.1 h with h | h
    · exact iha h
    · exact ihb h
  | star a ih =>
    rw [tries] at h
    generalize cs.length = n at h
    induction n generalizing before cs m with
    | zero =>
      obtain rfl := List.mem_singleton.1 h
      rfl
    | succ n ihn =>
      rcases List.mem_append.1 h with h | h
      · obtain ⟨m₁, h₁, h⟩ := List.mem_flatMap.1 h
        obtain ⟨m₂, h₂, rfl⟩ := List.mem_map.1 h
        rw [Match.followedBy, List.append_assoc, ihn h₂, ih h₁]
      · obtain rfl := List.mem_singleton.1 h
        rfl
  | group a ih =>
    obtain ⟨m', h', rfl⟩ := List.mem_map.1 h
    have happ := ih h'
    exact happ

def Takes (a : Pattern) : Prop :=
  ∀ before cs, ∀ m ∈ a.tries before cs, m.taken ≠ []

theorem Takes.one : (one p).Takes := by
  intro before cs m h
  cases cs with
  | nil => simp [tries_one_nil] at h
  | cons c cs =>
    obtain ⟨-, h⟩ := List.mem_ite_nil_right.1 h
    obtain rfl := List.mem_singleton.1 h
    exact List.cons_ne_nil _ _

theorem Takes.seq (hk : k.Takes) : (seq a k).Takes := by
  intro before cs m h
  obtain ⟨m₁, -, h⟩ := List.mem_flatMap.1 h
  obtain ⟨m₂, h₂, rfl⟩ := List.mem_map.1 h
  exact List.append_ne_nil_of_right_ne_nil _ (hk _ _ _ h₂)

theorem Takes.alt (ha : a.Takes) (hb : b.Takes) : (alt a b).Takes := by
  intro before cs m h
  rcases List.mem_append.1 h with h | h
  · exact ha _ _ _ h
  · exact hb _ _ _ h

theorem Takes.length_lt (h : a.Takes) {m : Match} (hm : m ∈ a.tries before cs) :
    m.rest.length < cs.length := by
  have := List.length_pos_iff.2 (h _ _ _ hm)
  rw [← append_of_mem_tries hm, List.length_append]
  omega

theorem Takes.tries_nil (h : a.Takes) : a.tries before [] = [] := by
  rw [List.eq_nil_iff_forall_not_mem]
  intro m hm
  exact absurd (h.length_lt hm) (Nat.not_lt_zero _)

theorem repeated_eq (h : a.Takes) {n n' : Nat} (hn : cs.length ≤ n) (hn' : cs.length ≤ n') :
    repeated a.tries n before cs = repeated a.tries n' before cs := by
  induction n generalizing n' before cs with
  | zero =>
    obtain rfl := List.length_eq_zero_iff.1 (Nat.le_zero.1 hn)
    cases n' with
    | zero => rfl
    | succ n' => rw [repeated, repeated, h.tries_nil]; rfl
  | succ n ih =>
    cases n' with
    | zero =>
      obtain rfl := List.length_eq_zero_iff.1 (Nat.le_zero.1 hn')
      rw [repeated, repeated, h.tries_nil]
      rfl
    | succ n' =>
      rw [repeated, repeated]
      congr 1
      apply List.flatMap_congr
      intro m hm
      have := h.length_lt hm
      have hn : m.rest.length ≤ n := by omega
      have hn' : m.rest.length ≤ n' := by omega
      rw [ih hn hn']

/-- A repetition is one match and a repetition behind it, or nothing. -/
theorem tries_star (h : a.Takes) : (star a).tries before cs =
    (seq a (star a)).tries before cs ++ [⟨[], cs, []⟩] := by
  calc (star a).tries before cs = repeated a.tries (cs.length + 1) before cs :=
        repeated_eq h (Nat.le_refl _) (Nat.le_succ _)
    _ = _ := by
      rw [repeated, tries_seq]
      congr 1
      apply List.flatMap_congr
      intro m hm
      rw [repeated_eq h (Nat.le_of_lt (h.length_lt hm)) (Nat.le_refl _)]
      rfl

theorem tries_star_seq (h : a.Takes) : (seq (star a) k).tries before cs =
    (seq a (seq (star a) k)).tries before cs ++ k.tries before cs := by
  rw [← tries_seq_assoc, tries_seq, tries_star h, List.flatMap_append, ← tries_seq,
    List.flatMap_singleton]
  exact congrArg _ (List.map_id _)

/-- Where nothing comes of a shorter repetition, what counts is the one up to the end of the class. -/
theorem flatMap_star_one {α : Type} {f : Match → List α}
    (hf : ∀ taken d ds, (∀ c ∈ taken, p c) → p d → f ⟨taken, d :: ds, []⟩ = []) :
    ((star (one p)).tries before cs).flatMap f = f ⟨cs.takeWhile p, cs.dropWhile p, []⟩ := by
  induction cs generalizing before f with
  | nil => exact List.flatMap_singleton ..
  | cons c cs ih =>
    rw [tries_star .one, tries_one_seq_cons, List.flatMap_append, List.flatMap_singleton]
    by_cases hc : p c
    · rw [if_pos hc, hf [] c cs (List.forall_mem_nil _) hc, List.append_nil, List.flatMap_map, ih,
        List.takeWhile_cons_of_pos hc, List.dropWhile_cons_of_pos hc]
      · rfl
      · intro taken d ds htaken hd
        exact hf (c :: taken) d ds (List.forall_mem_cons.2 ⟨hc, htaken⟩) hd
    · rw [if_neg hc, List.takeWhile_cons_of_neg hc, List.dropWhile_cons_of_neg hc]
      rfl

theorem tries_star_one_seq (hk : ∀ c d ds, p c → p d → k.tries (some c) (d :: ds) = [])
    (hb : ∀ d ds, p d → k.tries before (d :: ds) = []) :
    (seq (star (one p)) k).tries before cs =
      (k.tries ((cs.takeWhile p).getLast?.or before) (cs.dropWhile p)).map
        (Match.mk (cs.takeWhile p) (cs.dropWhile p) []).followedBy := by
  rw [tries_seq, flatMap_star_one]
  · rfl
  · intro taken d ds htaken hd
    rw [Match.last?]
    cases hlast : taken.getLast? with
    | none =>
      rw [Option.none_or, hb d ds hd]
      rfl
    | some c =>
      rw [Option.some_or, hk c d ds (htaken c (List.mem_of_getLast? hlast)) hd]
      rfl

theorem tries_many_seq (hk : ∀ c d ds, p c → p d → k.tries (some c) (d :: ds) = []) :
    (seq (many p) k).tries before cs =
      if cs.takeWhile p = [] then []
      else (k.tries (cs.takeWhile p).getLast? (cs.dropWhile p)).map
        (Match.mk (cs.takeWhile p) (cs.dropWhile p) []).followedBy := by
  rw [many, tries_seq_assoc]
  cases cs with
  | nil => rfl
  | cons c cs =>
    rw [tries_one_seq_cons]
    by_cases hc : p c
    · rw [if_pos hc, tries_star_one_seq hk (fun d ds ↦ hk c d ds hc), List.map_map,
        Match.followedBy_comp, List.takeWhile_cons_of_pos hc, List.dropWhile_cons_of_pos hc,
        if_neg (List.cons_ne_nil _ _), List.getLast?_cons]
      cases (cs.takeWhile p).getLast? <;> rfl
    · rw [if_neg hc, List.takeWhile_cons_of_neg hc, if_pos rfl]

theorem first_seq_one : first (seq (one p) k) before (c :: cs) =
    if p c then (first k (some c) cs).map (Match.mk [c] cs []).followedBy else none := by
  rw [first, tries_one_seq_cons]
  split
  · exact List.head?_map
  · rfl

theorem first_alt : first (alt a b) before cs = (first a before cs).or (first b before cs) :=
  List.head?_append

/-- A repetition with nothing behind it takes all characters of the class. -/
theorem first_star_one :
    first (star (one p)) before cs = some (Match.ofCut (cs.takeWhile p, cs.dropWhile p)) := by
  induction cs generalizing before with
  | nil => rfl
  | cons c cs ih =>
    rw [first, tries_star .one, List.head?_append, ← first, first_seq_one, ih]
    by_cases hc : p c
    · rw [if_pos hc, List.takeWhile_cons_of_pos hc, List.dropWhile_cons_of_pos hc]
      rfl
    · rw [if_neg hc, List.takeWhile_cons_of_neg hc, List.dropWhile_cons_of_neg hc]
      rfl

theorem first_many : first (many p) before cs =
    if cs.takeWhile p = [] then none
    else some (Match.ofCut (cs.takeWhile p, cs.dropWhile p)) := by
  cases cs with
  | nil => rfl
  | cons c cs =>
    rw [many, first_seq_one, first_star_one]
    by_cases hc : p c
    · rw [if_pos hc, List.takeWhile_cons_of_pos hc, List.dropWhile_cons_of_pos hc,
        if_neg (List.cons_ne_nil _ _)]
      rfl
    · rw [if_neg hc, List.takeWhile_cons_of_neg hc, if_pos rfl]

theorem first_anyOf_cons {as : List Pattern} :
    first (anyOf (a :: as)) before cs = (first a before cs).or (first (anyOf as) before cs) :=
  first_alt

theorem first_anyOf_nil : first (anyOf []) before cs = none := by
  cases cs <;> rfl

theorem tries_lit {text : List Char} : (lit text).tries before cs =
    if text.isPrefixOf cs then [⟨text, cs.drop text.length, []⟩] else [] := by
  induction text generalizing before cs with
  | nil => cases cs <;> rfl
  | cons t text ih =>
    cases cs with
    | nil => rfl
    | cons c cs =>
      rw [lit, tries_one_seq_cons, ih, List.isPrefixOf_cons_cons]
      by_cases hc : t = c
      · subst hc
        simp only [decide_true, BEq.rfl, Bool.true_and, if_true]
        split <;> rfl
      · rw [if_neg (by simpa using Ne.symm hc), if_neg (by simp [hc])]

theorem tries_lit_seq {text : List Char} : (seq (lit text) k).tries before cs =
    if text.isPrefixOf cs then
      (k.tries (text.getLast?.or before) (cs.drop text.length)).map
        (Match.mk text (cs.drop text.length) []).followedBy
    else [] := by
  rw [tries_seq, tries_lit]
  split
  · exact List.flatMap_singleton ..
  · rfl

/-- What is found is a match of a suffix of the text. -/
theorem exists_of_find? {m : Match} (h : find? a before cs = some m) :
    ∃ before' cs', cs' <:+ cs ∧ m ∈ a.tries before' cs' := by
  induction cs generalizing before with
  | nil => exact ⟨before, [], List.suffix_refl _, List.mem_of_mem_head? h⟩
  | cons c cs ih =>
    rcases Option.or_eq_some_iff.1 h with h | ⟨-, h⟩
    · exact ⟨before, c :: cs, List.suffix_refl _, List.mem_of_mem_head? h⟩
    · obtain ⟨before', cs', hcs, hm⟩ := ih h
      exact ⟨before', cs', hcs.trans (List.suffix_cons c cs), hm⟩

theorem Takes.length_find? (h : a.Takes) {m : Match} (hm : find? a before cs = some m) :
    m.rest.length < cs.length := by
  obtain ⟨before', cs', hcs, hm⟩ := exists_of_find? hm
  exact Nat.lt_of_lt_of_le (h.length_lt hm) hcs.length_le

theorem findAll_eq (h : a.Takes) : findAll a before cs =
    match find? a before cs with
    | some m => m :: findAll a (m.last? before) m.rest
    | none => [] := by
  rw [findAll]
  cases hm : find? a before cs with
  | none => rfl
  | some m => exact if_pos (h.length_find? hm)

end Pattern

end Folio.Code
