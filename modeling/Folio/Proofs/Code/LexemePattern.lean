import Folio.Proofs.Code.Margins
import Folio.Proofs.Code.NumberPattern

namespace Folio.Code.Pattern

open Text

variable {before : Option Char} {c : Char} {cs : List Char}

def quotedCharacter (quote : Char) : Pattern :=
  alt (seq (one (· = '\\')) (one (· ≠ '\n'))) (one fun c ↦ c ≠ quote ∧ c ≠ '\\')

def quoted (quote : Char) : Pattern :=
  seq (one (· = quote)) <| seq (star (quotedCharacter quote)) <| one (· = quote)

def call : Pattern :=
  seq (many isWord) <| seq (star (one isBlank)) <| one (· = '(')

def comment : Pattern :=
  seq (lit ['/', '/']) (star (one (· ≠ '\n')))

def path (opening closing : Char) : Pattern :=
  seq (one (· = opening)) <| seq (many (· ≠ closing)) <| one (· = closing)

def directive (path : Pattern) : Pattern :=
  seq (lit includeKeyword) <| seq (star (one isBlank)) path

def lexeme : Pattern :=
  anyOf
    [seq edge (based 'x' isHexDigit edge), seq edge (based 'b' isBinaryDigit edge),
     seq edge (decimal edge), quoted '"', quoted '\x27', call, comment,
     directive (path '<' '>'), directive (path '"' '"'), many isWord, many isBlank, many isSymbol]

def charLiteral : Pattern :=
  seq (one (· = '\x27')) <| seq (quotedCharacter '\x27') <| seq (one (· = '\x27')) stop

/-- The pattern has one match at most, and that is the cut. -/
def Finds (a : Pattern) (cut : List Char → Option Cut) : Prop :=
  ∀ before cs, a.tries before cs = ((cut cs).map Match.ofCut).toList

section

variable {a : Pattern} {cut : List Char → Option Cut}

theorem Finds.first_eq (h : a.Finds cut) (before : Option Char) (cs : List Char) :
    first a before cs = (cut cs).map Match.ofCut := by
  rw [first, h]
  cases cut cs <;> rfl

/-- The cut is the whole text where the pattern goes up to its end. -/
theorem Finds.isWhole_eq (h : a.Finds cut) (cs : List Char) :
    isWhole cut cs = (first (seq a stop) none cs).isSome := by
  rw [isWhole, first, tries_seq, h]
  cases cut cs with
  | none => rfl
  | some found =>
    rw [Option.map_some, Option.toList_some, List.flatMap_singleton, tries, Match.ofCut]
    cases hrest : found.2 <;> simp [hrest]

end

theorem takes_quotedCharacter (quote : Char) : (quotedCharacter quote).Takes :=
  .alt (.seq .one) .one

theorem tries_quotedCharacter_backslash (quote : Char) :
    (quotedCharacter quote).tries before ('\\' :: cs) =
      match cs with
      | [] => []
      | d :: ds => if d = '\n' then [] else [⟨['\\', d], ds, []⟩] := by
  rw [quotedCharacter, tries_alt, tries_one_seq_cons, if_pos (by simp), tries_one_cons,
    if_neg (by simp), List.append_nil]
  cases cs with
  | nil => rfl
  | cons d ds => by_cases hd : d = '\n' <;> simp [tries_one_cons, hd, Match.followedBy]

theorem tries_quotedCharacter_cons {quote c : Char} (hc : c ≠ '\\') :
    (quotedCharacter quote).tries before (c :: cs) =
      if c = quote then [] else [⟨[c], cs, []⟩] := by
  rw [quotedCharacter, tries_alt, tries_one_seq_cons, if_neg (by simpa using hc), tries_one_cons,
    List.nil_append]
  by_cases hq : c = quote <;> simp [hc, hq]

theorem tries_toQuote {quote : Char} (hq : quote ≠ '\\') :
    (seq (star (quotedCharacter quote)) (one (· = quote))).Finds (cutToQuote quote) := by
  intro before cs
  have hbackslash {before : Option Char} {cs : List Char} :
      (one (· = quote)).tries before ('\\' :: cs) = [] :=
    if_neg (by simpa using hq.symm)
  fun_induction cutToQuote quote cs generalizing before with
  | case1 =>
    rw [tries_star_seq (takes_quotedCharacter quote), tries_seq,
      (takes_quotedCharacter quote).tries_nil]
    rfl
  | case2 | case3 =>
    rw [tries_star_seq (takes_quotedCharacter quote), tries_seq, tries_quotedCharacter_backslash,
      hbackslash]
    rfl
  | case4 c cs hc ih =>
    rw [tries_star_seq (takes_quotedCharacter quote), tries_seq, tries_quotedCharacter_backslash,
      hbackslash]
    dsimp only
    rw [if_neg hc, List.flatMap_singleton, ih]
    cases cutToQuote quote cs <;> rfl
  | case5 cs =>
    rw [tries_star_seq (takes_quotedCharacter quote), tries_seq, tries_quotedCharacter_cons hq,
      if_pos rfl, tries_one_cons, if_pos (by simp)]
    rfl
  | case6 c cs hend hpair hc ih =>
    rw [tries_star_seq (takes_quotedCharacter quote), tries_seq,
      tries_quotedCharacter_cons (ne_backslash hend hpair), if_neg hc, List.flatMap_singleton, ih,
      tries_one_cons, if_neg (by simpa using hc)]
    cases cutToQuote quote cs <;> rfl

theorem quoted_finds {quote : Char} (hq : quote ≠ '\\') : (quoted quote).Finds (cutQuoted quote) := by
  intro before cs
  cases cs with
  | nil => rfl
  | cons c cs =>
    rw [quoted, tries_one_seq_cons, cutQuoted, tries_toQuote hq]
    by_cases hc : c = quote
    · rw [if_pos (by simpa using hc), if_pos hc]
      cases cutToQuote quote cs <;> rfl
    · rw [if_neg (by simpa using hc), if_neg hc]
      rfl

theorem isCharLiteral_escaped (d : Char) (cs : List Char) :
    isCharLiteral ('\x27' :: '\\' :: d :: cs) = decide (d ≠ '\n' ∧ cs = ['\x27']) := by
  rcases cs with _ | ⟨e, _ | ⟨f, cs⟩⟩
  · simp [isCharLiteral]
  · rw [Bool.eq_iff_iff]
    simp [isCharLiteral]
  · simp [isCharLiteral]

theorem isCharLiteral_plain (h : c ≠ '\\') (cs : List Char) :
    isCharLiteral ('\x27' :: c :: cs) = decide (c ≠ '\x27' ∧ cs = ['\x27']) := by
  rcases cs with _ | ⟨d, _ | ⟨e, cs⟩⟩
  · simp [isCharLiteral]
  · rw [Bool.eq_iff_iff]
    simp [isCharLiteral, h]
  · cases cs <;> simp [isCharLiteral, h]

theorem tries_one_seq_stop (x : Char) : (seq (one (· = x)) stop).tries before cs =
    if cs = [x] then [⟨[x], [], []⟩] else [] := by
  cases cs with
  | nil => rfl
  | cons c cs =>
    rw [tries_one_seq_cons]
    cases cs with
    | nil => by_cases hc : c = x <;> simp [hc, tries, Match.followedBy]
    | cons d cs => simp [tries_stop_cons]

theorem isCharLiteral_eq (cs : List Char) :
    isCharLiteral cs = (first charLiteral none cs).isSome := by
  match cs with
  | [] => rfl
  | q :: cs =>
    rw [first, charLiteral, tries_one_seq_cons]
    by_cases hq : q = '\x27'
    · subst hq
      rw [if_pos (by simp), tries_seq]
      match cs with
      | [] => rfl
      | c :: cs =>
        by_cases hc : c = '\\'
        · subst hc
          rw [tries_quotedCharacter_backslash]
          match cs with
          | [] => rfl
          | d :: cs =>
            rw [isCharLiteral_escaped]
            by_cases hd : d = '\n'
            · simp [hd]
            · by_cases hcs : cs = ['\x27'] <;> simp [tries_one_seq_stop, hd, hcs]
        · rw [tries_quotedCharacter_cons hc, isCharLiteral_plain hc]
          by_cases hc' : c = '\x27'
          · simp [hc']
          · by_cases hcs : cs = ['\x27'] <;> simp [tries_one_seq_stop, hc', hcs]
    · rw [if_neg (by simpa using hq), isCharLiteral_of_ne hq]
      rfl

theorem tries_star_one_one {p : Char → Bool} {x : Char} (hx : p x = false) :
    (seq (star (one p)) (one (· = x))).tries before cs =
      match cs.dropWhile p with
      | [] => []
      | d :: rest => if d = x then [⟨cs.takeWhile p ++ [d], rest, []⟩] else [] := by
  have hone : ∀ before d ds, p d → (one (· = x)).tries before (d :: ds) = [] := by
    intro before d ds hd
    rw [tries_one_cons, if_neg]
    intro hdx
    rw [of_decide_eq_true hdx, hx] at hd
    cases hd
  rw [tries_star_one_seq (fun c d ds _ ↦ hone (some c) d ds) (hone before)]
  cases cs.dropWhile p with
  | nil => rfl
  | cons d rest => by_cases hd : d = x <;> simp [tries_one_cons, hd, Match.followedBy]

theorem call_finds : call.Finds cutCall := by
  intro before cs
  have hgap : ∀ c d ds, isWord c → isWord d →
      (seq (star (one isBlank)) (one (· = '('))).tries (some c) (d :: ds) = [] := by
    intro c d ds _ hd
    have hdrop : (d :: ds).dropWhile isBlank = d :: ds :=
      List.dropWhile_cons_of_neg (by rw [isBlank_eq_false_of_isWord hd]; simp)
    rw [tries_star_one_one (by decide), hdrop]
    dsimp only
    rw [if_neg]
    rintro rfl
    exact absurd hd (by decide)
  rw [call, tries_many_seq hgap, tries_star_one_one (by decide), cutCall]
  generalize cs.takeWhile isWord = word
  cases (cs.dropWhile isWord).dropWhile isBlank with
  | nil => simp
  | cons d rest =>
    by_cases hd : d = '('
    · subst hd
      by_cases hw : word = [] <;> simp [hw, Match.followedBy, Match.ofCut]
    · simp [hd]

theorem path_finds (opening closing : Char) :
    (path opening closing).Finds (cutPath opening closing) := by
  intro before cs
  have hbody : ∀ c d ds, decide (c ≠ closing) → decide (d ≠ closing) →
      (one (· = closing)).tries (some c) (d :: ds) = [] := by
    intro c d ds _ hd
    rw [tries_one_cons, if_neg (by simpa using hd)]
  cases cs with
  | nil => rfl
  | cons c cs =>
    rw [path, tries_one_seq_cons, cutPath, tries_many_seq hbody]
    have hclosing := head_dropWhile (p := fun x ↦ decide (x ≠ closing)) (l := cs)
    generalize cs.takeWhile (· ≠ closing) = body
    generalize cs.dropWhile (· ≠ closing) = rest at hclosing
    cases rest with
    | nil => simp [tries_one_nil]
    | cons d rest =>
      obtain rfl : d = closing := by simpa using hclosing d rfl
      by_cases hc : c = opening
      · by_cases hb : body = [] <;>
          simp [hc, hb, tries_one_cons, Match.followedBy, Match.ofCut]
      · simp [hc]

theorem Finds.alt {a b : Pattern} {f g : List Char → Option Cut} (ha : a.Finds f) (hb : b.Finds g)
    (h : ∀ cs, (f cs).isSome → g cs = none) : (alt a b).Finds fun cs ↦ (f cs).or (g cs) := by
  intro before cs
  have hg := h cs
  rw [tries_alt, ha, hb]
  dsimp only
  cases hf : f cs with
  | none => rfl
  | some cut =>
    rw [hf] at hg
    rw [hg rfl]
    rfl

def cutDirective (cut : List Char → Option Cut) (cs : List Char) : Option Cut :=
  if includeKeyword.isPrefixOf cs then
    let rest := cs.drop includeKeyword.length
    (cut (rest.dropWhile isBlank)).map fun (path, after) ↦
      (includeKeyword ++ rest.takeWhile isBlank ++ path, after)
  else none

theorem directive_finds {a : Pattern} {cut : List Char → Option Cut} (h : a.Finds cut)
    (hcut : ∀ c cs, isBlank c → cut (c :: cs) = none) :
    (directive a).Finds (cutDirective cut) := by
  intro before cs
  have hgap : ∀ before d ds, isBlank d → a.tries before (d :: ds) = [] := by
    intro before d ds hd
    rw [h, hcut d ds hd]
    rfl
  rw [directive, tries_lit_seq, cutDirective,
    tries_star_one_seq (fun c d ds _ ↦ hgap (some c) d ds) (hgap _)]
  split
  · dsimp only
    rw [h]
    cases cut _ <;> simp [Match.followedBy, Match.ofCut]
  · rfl

theorem ne_of_isBlank {d : Char} (hd : isBlank d = false) (hc : isBlank c) : c ≠ d := by
  rintro rfl
  rw [hd] at hc
  cases hc

theorem directive_path_finds {opening closing : Char} (h : isBlank opening = false) :
    (directive (path opening closing)).Finds (cutDirective (cutPath opening closing)) :=
  directive_finds (path_finds opening closing) fun _ cs hc ↦ cutPath_of_ne (ne_of_isBlank h hc) cs

theorem cutInclude_eq_or : cutInclude cs =
    (cutDirective (cutPath '<' '>') cs).or (cutDirective (cutPath '"' '"') cs) := by
  rw [cutInclude, cutDirective, cutDirective]
  split
  · exact Option.map_or
  · rfl

/-- An include directive, whose path stands in angle brackets or in quotes. -/
theorem include_finds : (directive (alt (path '<' '>') (path '"' '"'))).Finds cutInclude := by
  apply directive_finds (.alt (path_finds '<' '>') (path_finds '"' '"') _)
  · intro c cs hc
    rw [cutPath_of_ne (ne_of_isBlank (by decide) hc), cutPath_of_ne (ne_of_isBlank (by decide) hc)]
    rfl
  · intro cs h
    cases cs with
    | nil => rfl
    | cons c cs =>
      by_cases hc : c = '<'
      · exact cutPath_of_ne (by rw [hc]; decide) cs
      · rw [cutPath_of_ne hc] at h
        cases h

theorem cutComment_eq_none (h : ['/', '/'].isPrefixOf cs = false) : cutComment cs = none := by
  unfold cutComment
  split
  · cases h
  · rfl

theorem first_comment : first comment before cs = (cutComment cs).map Match.ofCut := by
  rw [first, comment, tries_lit_seq]
  cases h : ['/', '/'].isPrefixOf cs with
  | false =>
    rw [cutComment_eq_none h]
    rfl
  | true =>
    obtain ⟨cs, rfl⟩ := List.isPrefixOf_iff_prefix.1 h
    rw [if_pos rfl, List.head?_map]
    exact congrArg _ first_star_one

theorem first_quoted {quote : Char} (hq : quote ≠ '\\') :
    first (quoted quote) before cs = (cutQuoted quote cs).map Match.ofCut :=
  (quoted_finds hq).first_eq before cs

theorem first_directive {opening closing : Char} (h : isBlank opening = false) :
    first (directive (path opening closing)) before cs =
      (cutDirective (cutPath opening closing) cs).map Match.ofCut :=
  (directive_path_finds h).first_eq before cs

theorem first_many_of_pos {p : Char → Bool} (h : p c) :
    first (many p) before (c :: cs) = some (Match.ofCut (cutWhile p c cs)) := by
  rw [first_many, List.takeWhile_cons_of_pos h, List.dropWhile_cons_of_pos h,
    if_neg (List.cons_ne_nil _ _)]
  rfl

theorem first_many_of_neg {p : Char → Bool} (h : ¬p c) : first (many p) before (c :: cs) = none := by
  rw [first_many, List.takeWhile_cons_of_neg h, if_pos rfl]

/-- A lexeme that begins with a word or with a blank is neither a literal nor a comment nor a
directive. -/
theorem cuts_of_not_symbol (h : isWord c ∨ isBlank c) (cs : List Char) :
    cutQuoted '"' (c :: cs) = none ∧ cutQuoted '\x27' (c :: cs) = none ∧
      cutComment (c :: cs) = none ∧ cutInclude (c :: cs) = none := by
  have hne : ∀ d, isWord d = false → isBlank d = false → c ≠ d := by
    rintro d hw hb rfl
    rw [hw, hb] at h
    simp at h
  exact ⟨if_neg (hne '"' (by decide) (by decide)), if_neg (hne '\x27' (by decide) (by decide)),
    cutComment_of_ne (hne '/' (by decide) (by decide)) cs,
    cutInclude_of_ne (hne '#' (by decide) (by decide)) cs⟩

theorem or_some_ofCut (x : Option Cut) (cut : Cut) :
    (x.map Match.ofCut).or (some (Match.ofCut cut)) = some (Match.ofCut (x.getD cut)) := by
  cases x <;> rfl

/-- What each alternative of the pattern prefers. -/
theorem first_lexeme_eq : first lexeme before cs =
    ((if before.any isWord then none else (cutHexadecimal cs).map Match.ofCut).or
    ((if before.any isWord then none else (cutBinary cs).map Match.ofCut).or
    ((if before.any isWord then none else (cutDecimal cs).map Match.ofCut).or
    (((cutQuoted '"' cs).map Match.ofCut).or (((cutQuoted '\x27' cs).map Match.ofCut).or
    (((cutCall cs).map Match.ofCut).or (((cutComment cs).map Match.ofCut).or
    (((cutInclude cs).map Match.ofCut).or ((first (many isWord) before cs).or
    ((first (many isBlank) before cs).or (first (many isSymbol) before cs))))))))))) := by
  have hangles : isBlank '<' = false := by decide
  have hquotes : isBlank '"' = false := by decide
  have hdouble : '"' ≠ '\\' := by decide
  have hsingle : '\x27' ≠ '\\' := by decide
  rw [lexeme]
  simp only [first_anyOf_cons, first_anyOf_nil, first_based_edge fun _ ↦ isWord_of_isHexDigit,
    first_based_edge fun _ ↦ isWord_of_isBinaryDigit, first_decimal_edge, first_quoted hdouble,
    first_quoted hsingle, call_finds.first_eq, first_comment, first_directive hangles,
    first_directive hquotes, Option.or_none, cutHexadecimal, cutBinary, cutInclude_eq_or,
    Option.map_or, Option.or_assoc]

/-- Where no word runs on, the pattern prefers the lexeme. -/
theorem first_lexeme (h : isWord c → before.any isWord = false) :
    first lexeme before (c :: cs) = some (Match.ofCut (Code.lexeme c cs)) := by
  rw [first_lexeme_eq, Code.lexeme]
  by_cases hw : isWord c
  · obtain ⟨hdouble, hsingle, hcomment, hinclude⟩ := cuts_of_not_symbol (.inl hw) cs
    rw [if_pos hw, h hw, hdouble, hsingle, hcomment, hinclude, first_many_of_pos hw]
    simp only [Bool.false_eq_true, if_false, Option.map_none, Option.none_or, Option.some_or,
      or_some_ofCut, Option.getD_or]
  · have hzero : c ≠ '0' := by
      rintro rfl
      exact hw (by decide)
    have hdigit : ¬isDecimal c := mt isWord_of_isDecimal hw
    rw [if_neg hw, cutHexadecimal, cutBased_of_ne hzero, cutBinary, cutBased_of_ne hzero,
      cutDecimal_of_not_digit hdigit, cutCall_of_not_word hw, first_many_of_neg hw]
    by_cases hb : isBlank c
    · obtain ⟨hdouble, hsingle, hcomment, hinclude⟩ := cuts_of_not_symbol (.inr hb) cs
      rw [if_pos hb, hdouble, hsingle, hcomment, hinclude, first_many_of_pos hb, Option.map_none,
        ite_self]
      rfl
    · have hs : isSymbol c := by simp [isSymbol, hw, hb]
      rw [if_neg hb, first_many_of_neg hb, first_many_of_pos hs, Option.map_none, ite_self]
      simp only [Option.none_or, or_some_ofCut, Option.getD_or]

theorem first_lexeme_nil : first lexeme before [] = none := by
  rw [first_lexeme_eq]
  cases before.any isWord <;> rfl

/-- The matches of the pattern in a text are its lexemes. -/
theorem findAll_lexeme (h : ∀ c ∈ cs.head?, isWord c → before.any isWord = false) :
    (findAll lexeme before cs).map Match.taken = lexCode cs := by
  fun_induction lexCode cs generalizing before with
  | case1 => rw [findAll, find?, first_lexeme_nil]; rfl
  | case2 c cs ih =>
    have hfind : find? lexeme before (c :: cs) = some (Match.ofCut (Code.lexeme c cs)) := by
      rw [find?, first_lexeme (h c rfl), Option.some_or]
    obtain ⟨hsplit, hne⟩ := lexeme_splits c cs
    have hlength : (Code.lexeme c cs).2.length < (c :: cs).length := by
      have := List.length_pos_iff.2 hne
      rw [← hsplit, List.length_append]
      omega
    rw [findAll, hfind]
    dsimp only [Match.ofCut]
    rw [if_pos hlength, List.map_cons]
    congr 1
    apply ih
    -- a lexeme that ends with a word ends where the word does
    intro d hd hword
    rw [Match.last?, List.getLast?_eq_some_getLast hne, Option.some_or, Option.any_some]
    by_contra hlast
    have hend := (lexeme_clean c cs).word ⟨_, List.getLast?_eq_some_getLast hne, by simpa using hlast⟩
    rw [atWordEnd, Option.mem_def.1 hd] at hend
    simp [hword] at hend

theorem isWhole_cutQuoted (cs : List Char) :
    isWhole (cutQuoted '"') cs = (first (seq (quoted '"') stop) none cs).isSome :=
  (quoted_finds (by decide)).isWhole_eq cs

theorem isNumber_eq (cs : List Char) : isNumber cs =
    ((first (based 'x' isHexDigit stop) none cs).isSome ||
      (first (based 'b' isBinaryDigit stop) none cs).isSome ||
      (first (decimal stop) none cs).isSome) := by
  rw [isNumber, cutHexadecimal, isWhole_cutBased, cutBinary, isWhole_cutBased, isWhole_cutDecimal]

theorem isWhole_cutCall (cs : List Char) :
    isWhole cutCall cs = (first (seq call stop) none cs).isSome :=
  call_finds.isWhole_eq cs

theorem isWhole_cutInclude (cs : List Char) : isWhole cutInclude cs =
    (first (seq (directive (alt (path '<' '>') (path '"' '"'))) stop) none cs).isSome :=
  include_finds.isWhole_eq cs

theorem leadingWord_eq (cs : List Char) : leadingWord cs =
    String.ofList (((first (many isWord) none cs).map Match.taken).getD []) := by
  rw [leadingWord, first_many]
  split
  · next h => rw [h]; rfl
  · rfl

end Folio.Code.Pattern
