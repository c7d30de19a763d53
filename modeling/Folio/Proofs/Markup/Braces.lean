import Folio.Markup.Document
import Folio.Proofs.Markup.Lexing
import Folio.Text.Split

namespace Folio.Markup

/-- Nowhere are more braces closed than opened. A brace that is opened before such a word is not
closed in it. -/
def NeverExceeds (w : List Char) : Prop :=
  ∀ p, p <+: w → p.count '\x7d' ≤ p.count '\x7b'

structure Balanced (w : List Char) : Prop where
  never : NeverExceeds w
  total : w.count '\x7b' = w.count '\x7d'

theorem NeverExceeds.append {u v : List Char} (hu : NeverExceeds u) (hv : NeverExceeds v) :
    NeverExceeds (u ++ v) := by
  intro p hp
  rcases List.prefix_or_prefix_of_prefix hp (List.prefix_append u v) with h | ⟨q, rfl⟩
  · exact hu p h
  · have hq := hv q ((List.prefix_append_right_inj u).1 hp)
    have hall := hu u (List.prefix_refl u)
    rw [List.count_append, List.count_append]
    omega

theorem NeverExceeds.append_open {u : List Char} (hu : NeverExceeds u) :
    NeverExceeds (u ++ ['\x7b']) := by
  intro p hp
  rcases List.prefix_concat_iff.1 hp with rfl | hp
  · have hall := hu u (List.prefix_refl u)
    rw [List.count_append, List.count_append]
    exact Nat.le_add_right_of_le hall
  · exact hu p hp

theorem Balanced.nil : Balanced [] := by
  refine ⟨fun p hp ↦ ?_, rfl⟩
  rw [List.prefix_nil.1 hp]
  rfl

theorem Balanced.append {u v : List Char} (hu : Balanced u) (hv : Balanced v) :
    Balanced (u ++ v) := by
  refine ⟨hu.never.append hv.never, ?_⟩
  rw [List.count_append, List.count_append, hu.total, hv.total]

theorem Balanced.wrap {u : List Char} (hu : Balanced u) :
    Balanced ('\x7b' :: (u ++ ['\x7d'])) := by
  have htotal : ('\x7b' :: (u ++ ['\x7d'])).count '\x7b' =
      ('\x7b' :: (u ++ ['\x7d'])).count '\x7d' := by
    simp [hu.total]
  refine ⟨fun p hp ↦ ?_, htotal⟩
  rw [← List.cons_append] at hp
  rcases List.prefix_concat_iff.1 hp with rfl | hp
  · exact htotal.ge
  · exact (Balanced.nil.never.append_open.append hu.never) p hp

/-- The closing brace after a balanced word is one too many. -/
theorem Balanced.not_neverExceeds_append {u : List Char} (hu : Balanced u) :
    ¬ NeverExceeds (u ++ ['\x7d']) := by
  intro h
  have hall := h _ (List.prefix_refl _)
  have htotal := hu.total
  simp at hall
  omega

/-- Every brace that is opened in a balanced word is closed there. -/
theorem Balanced.not_neverExceeds_of_open {u v w : List Char} (hw : Balanced w)
    (h : w = u ++ '\x7b' :: v) : ¬ NeverExceeds v := by
  subst h
  intro hv
  have hu := hw.never u (List.prefix_append ..)
  have hv' := hv v (List.prefix_refl v)
  have htotal := hw.total
  simp at htotal
  omega

mutual

def Block.braces : Block → List Char
  | .segment blocks => '\x7b' :: (Block.bracesAll blocks ++ ['\x7d'])
  | .paragraph _ | .list _ | .table _ => []

def Block.bracesAll : List Block → List Char
  | [] => []
  | b :: bs => b.braces ++ Block.bracesAll bs

end

def Document.braces (d : Document) : List Char :=
  Block.bracesAll d.blocks

theorem bracesAll_append (bs cs : List Block) :
    Block.bracesAll (bs ++ cs) = Block.bracesAll bs ++ Block.bracesAll cs := by
  induction bs with
  | nil => rfl
  | cons b bs ih => simp only [List.cons_append, Block.bracesAll, ih, List.append_assoc]

mutual

theorem Block.balanced_braces : (b : Block) → Balanced b.braces
  | .segment blocks => (Block.balanced_bracesAll blocks).wrap
  | .paragraph _ | .list _ | .table _ => .nil

theorem Block.balanced_bracesAll : (bs : List Block) → Balanced (Block.bracesAll bs)
  | [] => .nil
  | b :: bs => b.balanced_braces.append (Block.balanced_bracesAll bs)

end

def isBrace (c : Char) : Bool :=
  c == '\x7b' || c == '\x7d'

/-- The braces that the lines of a text begin with, one line after another. -/
def lineBraces (text : List Char) : List Char :=
  (Text.splitOn '\n' text).flatMap (·.takeWhile isBrace)

def Kind.brace? : Kind → Option Char
  | .braceOpen => some '\x7b'
  | .braceClose => some '\x7d'
  | _ => none

/-- Whether a block may begin after a token; `start` says whether one may begin with it. -/
def startsAfter (start : Bool) (k : Kind) : Bool :=
  k == .newline || (start && k.brace?.isSome)

def atStart (start : Bool) (ts : List Token) : Bool :=
  ts.foldl (fun s t ↦ startsAfter s t.kind) start

def startBraces : Bool → List Token → List Char
  | _, [] => []
  | start, t :: ts =>
    (if start then t.kind.brace?.toList else []) ++ startBraces (startsAfter start t.kind) ts

theorem atStart_append (start : Bool) (ts us : List Token) :
    atStart start (ts ++ us) = atStart (atStart start ts) us :=
  List.foldl_append ..

theorem startBraces_append (start : Bool) (ts us : List Token) :
    startBraces start (ts ++ us) = startBraces start ts ++ startBraces (atStart start ts) us := by
  induction ts generalizing start with
  | nil => rfl
  | cons t ts ih => simp only [List.cons_append, startBraces, ih, List.append_assoc]; rfl

def lineBracesFrom (start : Bool) (text : List Char) : List Char :=
  if start then lineBraces text
  else (Text.splitOn '\n' text).tail.flatMap (·.takeWhile isBrace)

theorem lineBracesFrom_cons (start : Bool) (c : Char) (cs : List Char) :
    lineBracesFrom start (c :: cs) =
      (if start && isBrace c then [c] else []) ++
        lineBracesFrom (c == '\n' || (start && isBrace c)) cs := by
  by_cases hn : c = '\n'
  · subst hn
    have hb : isBrace '\n' = false := by decide
    cases start <;> simp [lineBracesFrom, lineBraces, Text.splitOn, hb]
  · obtain ⟨p, ps, hp, hc⟩ := Text.splitOn_cons_of_ne hn cs
    have hn' : (c == '\n') = false := by simpa using hn
    cases start <;> cases hb : isBrace c <;>
      simp [lineBracesFrom, lineBraces, hp, hc, hb, hn']

theorem lineBracesFrom_prose {w : List Char} (hw : ∀ c ∈ w, isProse c) (hne : w ≠ [])
    (start : Bool) (rest : List Char) :
    lineBracesFrom start (w ++ rest) = lineBracesFrom false rest := by
  induction w generalizing start with
  | nil => exact absurd rfl hne
  | cons c w ih =>
    have hc : isProse c := hw c (by simp)
    have hb : isBrace c = false := by
      rw [Bool.eq_false_iff]
      intro hb
      rcases Bool.or_eq_true_iff.1 hb with hb | hb <;>
        · obtain rfl := eq_of_beq hb
          revert hc
          decide
    have hn : (c == '\n') = false := by
      rw [beq_eq_false_iff_ne]
      rintro rfl
      revert hc
      decide
    rw [List.cons_append, lineBracesFrom_cons, hb, hn, Bool.and_false, Bool.or_false]
    by_cases hw' : w = []
    · subst hw'
      rfl
    · exact ih (fun d hd ↦ hw d (by simp [hd])) hw' false

/-- The tokens of a text show the braces that its lines begin with. -/
theorem startBraces_lexChars (start : Bool) (cs : List Char) :
    startBraces start (lexChars cs) = lineBracesFrom start cs := by
  induction cs using runs_induction generalizing start with
  | nil => cases start <;> simp [lexChars, startBraces, lineBracesFrom, lineBraces, Text.splitOn]
  | mark k c cs hk ih =>
    have hc := Kind.ofChar?_eq_some_iff.1 hk
    rw [lexChars_mark hk, startBraces, ih, lineBracesFrom_cons]
    cases k <;> cases hc <;> cases start <;> rfl
  | prose w rest hw hne hr ih =>
    rw [lexChars_prose hw hne hr, startBraces, ih, lineBracesFrom_prose hw hne]
    cases start <;> rfl

end Folio.Markup
