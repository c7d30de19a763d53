import Folio.Proofs.Code.Breaks

namespace Folio.Code

open Text

/-- Code in which no literal, comment or directive begins. -/
def Unmarked (p : List Char) : Prop :=
  ∀ c ∈ p, c ∉ ['"', '\x27', '/', '#']

/-- The last lexeme is a run of symbols. -/
def EndsInSymbols (p : List Char) : Prop :=
  ∃ t ∈ (lexCode p).getLast?, ∀ c ∈ t, isSymbol c

instance (p : List Char) : Decidable (Unmarked p) :=
  List.decidableBAll (· ∉ ['"', '\x27', '/', '#']) p

instance (p : List Char) : Decidable (EndsInSymbols p) :=
  decidable_of_iff ((lexCode p).getLast?.any (·.all isSymbol)) (by
    simp [EndsInSymbols, Option.any_eq_true])

theorem isSymbol_eq_true_iff {c : Char} :
    isSymbol c = true ↔ isWord c = false ∧ isBlank c = false := by
  simp [isSymbol]

theorem lexeme_symbols {c : Char} (hc : isSymbol c) (hm : c ∉ ['"', '\x27', '/', '#'])
    (cs : List Char) : lexeme c cs = cutWhile isSymbol c cs := by
  obtain ⟨hw, hb⟩ := isSymbol_eq_true_iff.1 hc
  simp only [List.mem_cons, List.not_mem_nil, or_false, not_or] at hm
  obtain ⟨hdouble, hsingle, hslash, hnumber⟩ := hm
  rw [lexeme, if_neg (by simp [hw]), if_neg (by simp [hb]), cutQuoted, if_neg hdouble, cutQuoted,
    if_neg hsingle, cutComment_of_ne hslash, cutInclude_of_ne hnumber]
  rfl

theorem lexCode_symbols {c : Char} {cs : List Char} (hm : c ∉ ['"', '\x27', '/', '#'])
    (hs : ∀ x ∈ c :: cs, isSymbol x) : lexCode (c :: cs) = [c :: cs] := by
  have htail : ∀ x ∈ cs, isSymbol x := fun x hx ↦ hs x (List.mem_cons_of_mem c hx)
  have htake : cs.takeWhile isSymbol = cs := List.takeWhile_eq_self_iff.2 htail
  have hdrop : cs.dropWhile isSymbol = [] := List.dropWhile_eq_nil_iff.2 htail
  rw [lexCode, lexeme_symbols (hs c (List.mem_cons_self ..)) hm, cutWhile, htake, hdrop, lexCode]

theorem endsInSymbols_cons {c : Char} {cs : List Char} (hs : ¬∀ x ∈ c :: cs, isSymbol x) :
    EndsInSymbols (c :: cs) ↔ EndsInSymbols (lexeme c cs).2 := by
  unfold EndsInSymbols
  rw [lexCode, List.getLast?_cons]
  cases hlast : (lexCode (lexeme c cs).2).getLast? with
  | some u => simp
  | none =>
    -- the only lexeme is then the whole code
    have hrest := flatten_lexCode (lexeme c cs).2
    rw [List.getLast?_eq_none_iff.1 hlast, List.flatten_nil] at hrest
    have hsplit := (lexeme_splits c cs).1
    rw [← hrest, List.append_nil] at hsplit
    simpa [hsplit] using hs

section

variable {d : Char} (hd : d = '"' ∨ d = '/')

include hd

theorem breaksWord_mark (rest : List Char) : BreaksWord (d :: rest) := by
  have hblank : isBlank d = false := by rcases hd with rfl | rfl <;> decide
  have hcall : dropBlank (d :: rest) = d :: rest := by simp [dropBlank, hblank]
  refine ⟨forall_head_cons ?_ rest, forall_head_cons ?_ rest, ?_⟩
  · rcases hd with rfl | rfl <;> decide
  · rcases hd with rfl | rfl <;> decide
  · rw [hcall]
    refine forall_head_cons ?_ rest
    rcases hd with rfl | rfl <;> decide

/-- Only a run of symbols that nothing else follows goes on over the mark. -/
theorem lexeme_extend {c : Char} {cs : List Char} (hp : Unmarked (c :: cs))
    (hs : ¬∀ x ∈ c :: cs, isSymbol x) (rest : List Char) :
    lexeme c (cs ++ d :: rest) = (lexeme c cs).extend (d :: rest) := by
  have hblank : ∀ x ∈ (d :: rest).head?, isBlank x = false := by
    refine forall_head_cons ?_ rest
    rcases hd with rfl | rfl <;> decide
  by_cases hw : isWord c
  · exact (breaksWord_mark hd rest).lexeme_word_extend hw cs
  by_cases hb : isBlank c
  · rw [lexeme, lexeme, if_neg hw, if_neg hw, if_pos hb, if_pos hb, cutWhile_extend hblank]
  · have hc : isSymbol c := isSymbol_eq_true_iff.2 ⟨by simpa using hw, by simpa using hb⟩
    have hm := hp c (List.mem_cons_self ..)
    have hstop : ∃ x ∈ cs, ¬isSymbol x := by
      simpa [hc] using hs
    rw [lexeme_symbols hc hm, lexeme_symbols hc hm, cutWhile_extend_of_not hstop]

theorem lexCode_append {p : List Char} (hp : Unmarked p) (hs : ¬EndsInSymbols p)
    (rest : List Char) : lexCode (p ++ d :: rest) = lexCode p ++ lexCode (d :: rest) := by
  fun_induction lexCode p with
  | case1 => rfl
  | case2 c cs ih =>
    have hsymbols : ¬∀ x ∈ c :: cs, isSymbol x := by
      intro h
      refine hs ⟨c :: cs, ?_, h⟩
      rw [lexCode_symbols (hp c (List.mem_cons_self ..)) h]
      rfl
    have hrest : Unmarked (lexeme c cs).2 :=
      fun x hx ↦ hp x ((lexeme_splits c cs).1 ▸ List.mem_append_right _ hx)
    rw [List.cons_append, lexCode, lexeme_extend hd hp hsymbols, List.cons_append]
    exact congrArg _ (ih hrest fun h ↦ hs ((endsInSymbols_cons hsymbols).2 h))

/-- The run of symbols before the mark takes the mark with it. -/
theorem lexCode_append_symbols {p : List Char} (hp : Unmarked p) (hs : EndsInSymbols p)
    (rest : List Char) : ∃ ts t us, lexCode p = ts ++ [t] ∧
      lexCode (p ++ d :: rest) = ts ++ (t ++ (d :: rest).takeWhile isSymbol) :: us := by
  fun_induction lexCode p with
  | case1 => simp [EndsInSymbols, lexCode] at hs
  | case2 c cs ih =>
    have hm := hp c (List.mem_cons_self ..)
    by_cases hsymbols : ∀ x ∈ c :: cs, isSymbol x
    · have htail : ∀ x ∈ cs, isSymbol x := fun x hx ↦ hsymbols x (List.mem_cons_of_mem c hx)
      refine ⟨[], c :: cs, lexCode ((d :: rest).dropWhile isSymbol), ?_, ?_⟩
      · have hcode := lexCode_symbols hm hsymbols
        rwa [lexCode] at hcode
      · rw [List.cons_append, lexCode, lexeme_symbols (hsymbols c (List.mem_cons_self ..)) hm,
          cutWhile, List.takeWhile_append_of_pos htail, List.dropWhile_append_of_pos htail]
        rfl
    · have hrest : Unmarked (lexeme c cs).2 :=
        fun x hx ↦ hp x ((lexeme_splits c cs).1 ▸ List.mem_append_right _ hx)
      obtain ⟨ts, t, us, hts, hus⟩ := ih hrest ((endsInSymbols_cons hsymbols).1 hs)
      refine ⟨(lexeme c cs).1 :: ts, t, us, by rw [hts, List.cons_append], ?_⟩
      rw [List.cons_append, lexCode, lexeme_extend hd hp hsymbols, List.cons_append]
      exact congrArg _ hus

/-- The code is cut where the mark stands exactly when no run of symbols ends there. -/
theorem lexCode_cut_iff {p : List Char} (hp : Unmarked p) (rest : List Char) :
    (∃ before after, lexCode (p ++ d :: rest) = before ++ after ∧ before.flatten = p) ↔
      ¬EndsInSymbols p := by
  constructor
  · rintro ⟨before, after, hcut, hflat⟩ hs
    obtain ⟨ts, t, us, hts, hus⟩ := lexCode_append_symbols hd hp hs rest
    have ht : t ≠ [] := lexCode_ne_nil (by rw [hts]; exact List.mem_append_right _ (by simp))
    have hmark : (d :: rest).takeWhile isSymbol ≠ [] := by
      have hsymbol : isSymbol d := by rcases hd with rfl | rfl <;> decide
      simp [hsymbol]
    have hp' : ts.flatten ++ t = before.flatten := by
      rw [hflat, ← flatten_lexCode p, hts]
      simp
    rw [hcut] at hus
    -- a cut at the end of `p` would fall into the lexeme that reaches over it
    rcases List.append_eq_append_iff.1 hus with ⟨between, rfl, hbetween⟩ | ⟨between, rfl, hbetween⟩
    · rw [List.flatten_append, List.append_assoc] at hp'
      have hnil := congrArg List.length hp'
      simp only [List.length_append] at hnil
      exact ht (List.length_eq_zero_iff.1 (by omega))
    · rw [List.flatten_append] at hp'
      have htail : t = between.flatten := List.append_cancel_left hp'
      cases between with
      | nil => exact ht htail
      | cons u between =>
        obtain rfl := (List.cons.inj hbetween).1
        have hlength := congrArg List.length htail
        rw [List.flatten_cons, List.length_append, List.length_append] at hlength
        exact hmark (List.length_eq_zero_iff.1 (by omega))
  · intro hs
    exact ⟨_, _, lexCode_append hd hp hs rest, flatten_lexCode p⟩

end

theorem QuotedBody.cutToQuote_eq {quote : Char} {body : List Char} (h : QuotedBody quote body)
    (hq : quote ≠ '\\') (rest : List Char) :
    cutToQuote quote (body ++ quote :: rest) = some (body ++ [quote], rest) := by
  induction h with
  | nil => rw [List.nil_append, cutToQuote_cons hq, if_pos rfl, List.nil_append]
  | plain hc hslash _ ih =>
    rw [List.cons_append, cutToQuote_cons hslash, if_neg hc, ih]
    rfl
  | escaped hc _ ih =>
    rw [List.cons_append, List.cons_append, cutToQuote, if_neg hc, ih]
    rfl

def quotedText (body : List Char) : List Char :=
  '"' :: body ++ ['"']

def commentText (body : List Char) : List Char :=
  '/' :: '/' :: body

theorem cutQuoted_quotedText {body : List Char} (h : QuotedBody '"' body) (rest : List Char) :
    cutQuoted '"' (quotedText body ++ rest) = some (quotedText body, rest) := by
  have hcut := h.cutToQuote_eq (by decide) rest
  have htext : quotedText body ++ rest = '"' :: (body ++ '"' :: rest) := by simp [quotedText]
  rw [htext, cutQuoted, if_pos rfl, hcut]
  rfl

theorem lexCode_quotedText {body : List Char} (h : QuotedBody '"' body) (rest : List Char) :
    lexCode (quotedText body ++ rest) = quotedText body :: lexCode rest := by
  have hcut := cutQuoted_quotedText h rest
  have hlexeme : lexeme '"' (body ++ '"' :: rest) = (quotedText body, rest) := by
    have htext : '"' :: (body ++ '"' :: rest) = quotedText body ++ rest := by simp [quotedText]
    rw [lexeme, if_neg (by decide), if_neg (by decide), htext, hcut]
    rfl
  have htext : quotedText body ++ rest = '"' :: (body ++ '"' :: rest) := by simp [quotedText]
  rw [htext, lexCode, hlexeme]

theorem lexeme_slashes (cs : List Char) :
    lexeme '/' ('/' :: cs) = (commentText (cs.takeWhile (· ≠ '\n')), cs.dropWhile (· ≠ '\n')) := by
  rw [lexeme, if_neg (by decide), if_neg (by decide), cutQuoted, if_neg (by decide), cutQuoted,
    if_neg (by decide)]
  rfl

theorem lexCode_commentText {body rest : List Char} (hb : '\n' ∉ body)
    (hr : ∀ c ∈ rest.head?, c = '\n') :
    lexCode (commentText body ++ rest) = commentText body :: lexCode rest := by
  have hstop : ∀ c ∈ rest.head?, decide (c ≠ '\n') = false := by
    intro c hc
    simp [hr c hc]
  have hbody : ∀ c ∈ body, decide (c ≠ '\n') = true :=
    fun c hc ↦ by simpa using ne_of_mem_of_not_mem hc hb
  obtain ⟨htake, hdrop⟩ := span_run hbody hstop
  rw [commentText, List.cons_append, List.cons_append, lexCode, lexeme_slashes, htake, hdrop]
  rfl

theorem categoryOf_quotedText {body : List Char} (h : QuotedBody '"' body) (names : Declared) :
    categoryOf .cpp names (String.ofList (quotedText body)) = .textLiteral := by
  have hcut := cutQuoted_quotedText h []
  rw [List.append_nil] at hcut
  have hwhole : isWhole (cutQuoted '"') (quotedText body) := by
    rw [isWhole, hcut]
    rfl
  have hword : leadingWord (quotedText body) = "" := rfl
  have hslash : ['/', '/'].isPrefixOf (quotedText body) = false := rfl
  have hcontrol : Language.cpp.isControl "" = false := by decide
  have htype : Language.cpp.isType "" = false := by decide
  simp only [categoryOf, String.toList_ofList, hslash, hword, hcontrol, htype, hwhole]
  rfl

theorem categoryOf_commentText (body : List Char) (names : Declared) :
    categoryOf .cpp names (String.ofList (commentText body)) = .comment := by
  have hslash : ['/', '/'].isPrefixOf (commentText body) = true := rfl
  simp only [categoryOf, String.toList_ofList, hslash]
  rfl

/-- Between `p` and `q` the text of `t` is the token `t`. -/
def Recognised (p : String) (t : Token) (q : String) : Prop :=
  ∃ before after, classify .cpp (p ++ t.text ++ q) = before ++ t :: after ∧
    codeText before = p.toList

theorem recognised_iff {p q : String} {d : Char} {cs : List Char} {k : Category}
    (hp : Unmarked p.toList) (hd : d = '"' ∨ d = '/')
    (hlex : lexCode (d :: cs ++ q.toList) = (d :: cs) :: lexCode q.toList)
    (hk : ∀ names, categoryOf .cpp names (String.ofList (d :: cs)) = k) :
    Recognised p ⟨k, String.ofList (d :: cs)⟩ q ↔ ¬EndsInSymbols p.toList := by
  have hcode : (p ++ String.ofList (d :: cs) ++ q).toList = p.toList ++ d :: (cs ++ q.toList) := by
    simp
  constructor
  · rintro ⟨before, after, hclassify, hbefore⟩
    refine (lexCode_cut_iff hd hp (cs ++ q.toList)).1 ?_
    refine ⟨before.map (·.text.toList), (⟨k, String.ofList (d :: cs)⟩ :: after).map (·.text.toList),
      ?_, ?_⟩
    · have htexts := congrArg (List.map (·.text.toList)) hclassify
      rw [List.map_append] at htexts
      rw [← htexts, ← hcode, classify_eq]
      simp [tokenOf, Function.comp_def]
    · rw [← hbefore, codeText, List.flatMap_def]
  · intro hs
    have hcut := lexCode_append hd hp hs (cs ++ q.toList)
    rw [← hcode, ← List.cons_append, hlex] at hcut
    let names := Declared.ofCode (p ++ String.ofList (d :: cs) ++ q) .cpp
    refine ⟨(lexCode p.toList).map (tokenOf .cpp names),
      (lexCode q.toList).map (tokenOf .cpp names), ?_, ?_⟩
    · rw [classify_eq, hcut, List.map_append, List.map_cons, ← hk names]
      rfl
    · rw [codeText_map_tokenOf, flatten_lexCode]

/-- Behind code in which nothing of the kind begins, a literal in double quotes is one token, and so
is a comment up to the end of its line, unless a run of symbols stands right before them. -/
theorem classify_recognises {p q : String} (hp : Unmarked p.toList) :
    (∀ body, QuotedBody '"' body →
      (Recognised p ⟨.textLiteral, String.ofList (quotedText body)⟩ q ↔
        ¬EndsInSymbols p.toList)) ∧
    ∀ body, '\n' ∉ body → (∀ c ∈ q.toList.head?, c = '\n') →
      (Recognised p ⟨.comment, String.ofList (commentText body)⟩ q ↔ ¬EndsInSymbols p.toList) := by
  refine ⟨fun body hbody ↦ ?_, fun body hbody hq ↦ ?_⟩
  · exact recognised_iff hp (.inl rfl) (lexCode_quotedText hbody q.toList)
      (categoryOf_quotedText hbody)
  · exact recognised_iff hp (.inr rfl) (lexCode_commentText hbody hq)
      (categoryOf_commentText body)

/-- A call ends with a symbol too, but is no run of symbols. -/
theorem classify_recognises_call :
    Recognised "if (x) f (" ⟨.textLiteral, String.ofList (quotedText "P\\\"".toList)⟩ ");" ∧
      Recognised "f\n(" ⟨.comment, String.ofList (commentText " if \"".toList)⟩ "\n)" := by
  have hcall : Unmarked "if (x) f (".toList ∧ ¬EndsInSymbols "if (x) f (".toList := by
    decide +kernel
  have hlines : Unmarked "f\n(".toList ∧ ¬EndsInSymbols "f\n(".toList := by decide +kernel
  refine ⟨((classify_recognises hcall.1).1 _ ?_).2 hcall.2,
    ((classify_recognises hlines.1).2 _ ?_ ?_).2 hlines.2⟩
  · exact .plain (by decide) (by decide) (.escaped (by decide) .nil)
  · decide
  · rintro c ⟨⟩
    rfl

/-- The operator in front takes the quote with it, and the declared name inside is tagged. -/
theorem classify_missed_literal :
    Unmarked "struct P \x7b\x7d; x+=".toList ∧ QuotedBody '"' "P".toList ∧
      classify .cpp "struct P \x7b\x7d; x+=\"P\"" = classify .cpp "struct P \x7b\x7d; x" ++
        [⟨.identifier, "+=\""⟩, ⟨.customType, "P"⟩, ⟨.identifier, "\""⟩] ∧
      ¬Recognised "struct P \x7b\x7d; x+="
        ⟨.textLiteral, String.ofList (quotedText "P".toList)⟩ "" := by
  refine ⟨by decide +kernel, .plain (by decide) (by decide) .nil, by decide +kernel, ?_⟩
  rintro ⟨before, after, h, -⟩
  have hmem : ⟨.textLiteral, "\"P\""⟩ ∈ classify .cpp "struct P \x7b\x7d; x+=\"P\"" := by
    refine h ▸ List.mem_append_right before ?_
    exact List.mem_cons_self ..
  revert hmem
  decide +kernel

end Folio.Code
