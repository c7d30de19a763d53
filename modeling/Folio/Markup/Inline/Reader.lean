import Folio.Markup.Inline
import Folio.Markup.Inline.Span
import Folio.Text.Split

namespace Folio.Markup

/-- The title of a heading: further heading marks, then at most one run of prose. -/
def readTitle (level : Nat) (ts : List Token) : Inline × List Token :=
  let marks := Token.spell (ts.takeWhile (·.kind == .hashtag))
  match ts.dropWhile (·.kind == .hashtag) with
  | ⟨.text, v⟩ :: rest => (.heading level (Text.trim (marks ++ v)), rest)
  | rest => (.heading level (Text.trim marks), rest)

/-- A heading after its first mark; a second mark makes it one of level 2. -/
def readHeading : List Token → Inline × List Token
  | ⟨.hashtag, _⟩ :: rest => readTitle 2 rest
  | ts => readTitle 1 ts

def readEmphasis (ctx : Context) (ts : List Token) : Inline × List Token :=
  match ts with
  | ⟨.star, _⟩ :: rest =>
    match upTo ctx [.star, .star] rest with
    | some (body, rest) => (.bold (Token.spell body), rest)
    | none => (.text "**", rest)
  | _ =>
    match upTo ctx [.star] ts with
    | some (body, rest) => (.italic (Token.spell body), rest)
    | none => (.text "*", ts)

def isTagChar (c : Char) : Bool :=
  c.isAlphanum || c == '+' || c == '-' || c == '#' || c == '_' || c == '.'

/-- A fenced block from what stands between its fences: a first line that is a single tag names
the language, all else is code. -/
def codeBlockOf (raw : String) : Inline :=
  match Text.splitFirst '\n' raw.toList with
  | none => .codeBlock none raw
  | some (first, rest) =>
    let tag := Text.trim (String.ofList first)
    if !tag.isEmpty && tag.toList.all isTagChar then .codeBlock (some tag) (String.ofList rest)
    else .codeBlock none raw

theorem exists_codeBlockOf_eq (raw : String) :
    ∃ language body, codeBlockOf raw = .codeBlock language body := by
  unfold codeBlockOf
  split
  · exact ⟨_, _, rfl⟩
  · simp only
    split
    · exact ⟨_, _, rfl⟩
    · exact ⟨_, _, rfl⟩

/-- Code, with the list still at its first mark. -/
def readCode (ctx : Context) (ts : List Token) : Except Failure (Inline × List Token) :=
  if startsWith fence ts then
    (upToFence (ts.drop fence.length)).map fun (body, rest) ↦ (codeBlockOf (Token.spell body), rest)
  else
    match upTo ctx [.backtick] ts.tail with
    | some (body, rest) => .ok (.code (Token.spell body), rest)
    | none => .ok (.text "\x60", ts.tail)

def readLinkParts (ts : List Token) : Except Failure ((String × String) × List Token) := do
  let (label, rest) ← enclosed .bracket 0 ts
  match rest with
  | ⟨.parenOpen, _⟩ :: rest =>
    let (address, rest) ← enclosed .paren 0 rest
    .ok ((Token.spell label, Text.trim (Token.spell address)), rest)
  | _ => .error (.missing .parenOpen rest)

/-- A bang that begins no image: it is text, and so is the next token of the run. -/
def readBangText (ctx : Context) : List Token → Inline × List Token
  | [] => (.text "!", [])
  | t :: ts => if ctx.endsAt t.kind then (.text "!", t :: ts) else (.text ("!" ++ t.value), ts)

/-- An image after its bang. Where its label or source is not closed, the bang is text. -/
def readImage (ctx : Context) (ts : List Token) : Inline × List Token :=
  match ts with
  | ⟨.bracketOpen, _⟩ :: rest =>
    match readLinkParts rest with
    | .ok ((alt, source), rest) => (.image alt source, rest)
    | .error _ => readBangText ctx ts
  | _ => readBangText ctx ts

def readInline (ctx : Context) (t : Token) (ts : List Token) :
    Except Failure (Inline × List Token) :=
  match t.kind with
  | .hashtag => .ok (readHeading ts)
  | .star => .ok (readEmphasis ctx ts)
  | .backtick => readCode ctx (t :: ts)
  | .bracketOpen =>
    (readLinkParts ts).map fun ((label, address), rest) ↦ (.link label address, rest)
  | .dollar =>
    match ts with
    | ⟨.bracketOpen, _⟩ :: rest =>
      (readLinkParts rest).map fun ((label, address), rest) ↦ (.view label address, rest)
    | _ => .ok (.text "$", ts)
  | .bang => .ok (readImage ctx ts)
  | _ => .ok (.text t.value, ts)

theorem readTitle_suffix (level : Nat) (ts : List Token) : (readTitle level ts).2 <:+ ts := by
  unfold readTitle
  split
  · next h => exact (List.suffix_cons ..).trans (h ▸ List.dropWhile_suffix _)
  · exact List.dropWhile_suffix _

theorem readHeading_suffix (ts : List Token) : (readHeading ts).2 <:+ ts := by
  unfold readHeading
  split
  · exact (readTitle_suffix ..).trans (List.suffix_cons ..)
  · exact readTitle_suffix ..

theorem readEmphasis_suffix (ctx : Context) (ts : List Token) :
    (readEmphasis ctx ts).2 <:+ ts := by
  unfold readEmphasis
  split
  · split
    · next h => exact (upTo_suffix h).trans (List.suffix_cons ..)
    · exact List.suffix_cons ..
  · split
    · next h => exact upTo_suffix h
    · exact List.suffix_refl _

theorem readCode_suffix {ctx : Context} {t : Token} {ts rest : List Token} {n : Inline}
    (h : readCode ctx (t :: ts) = .ok (n, rest)) : rest <:+ ts := by
  unfold readCode at h
  split at h
  · obtain ⟨p, hp, h⟩ := map_eq_ok_iff.1 h
    obtain ⟨-, rfl⟩ := Prod.mk.inj h
    exact (upToFence_suffix hp).trans (List.drop_suffix 2 ts)
  · split at h
    · next he =>
      obtain ⟨-, rfl⟩ := Prod.mk.inj (Except.ok.inj h)
      exact upTo_suffix he
    · obtain ⟨-, rfl⟩ := Prod.mk.inj (Except.ok.inj h)
      exact List.suffix_refl _

theorem readLinkParts_suffix {ts rest : List Token} {parts : String × String}
    (h : readLinkParts ts = .ok (parts, rest)) : rest <:+ ts := by
  unfold readLinkParts at h
  cases hl : enclosed .bracket 0 ts with
  | error e => simp [hl, bind, Except.bind] at h
  | ok p =>
    obtain ⟨label, r⟩ := p
    simp only [hl, bind, Except.bind] at h
    split at h
    · next r' =>
      cases ha : enclosed .paren 0 r' with
      | error e => simp [ha] at h
      | ok q =>
        obtain ⟨address, r''⟩ := q
        simp only [ha, Except.ok.injEq, Prod.mk.injEq] at h
        exact h.2 ▸ (enclosed_suffix ha).trans ((List.suffix_cons ..).trans (enclosed_suffix hl))
    · simp at h

theorem readBangText_suffix (ctx : Context) (ts : List Token) :
    (readBangText ctx ts).2 <:+ ts := by
  unfold readBangText
  split
  · exact List.suffix_refl _
  · split
    · exact List.suffix_refl _
    · exact List.suffix_cons ..

theorem readImage_suffix (ctx : Context) (ts : List Token) : (readImage ctx ts).2 <:+ ts := by
  unfold readImage
  split
  · split
    · next h => exact (readLinkParts_suffix h).trans (List.suffix_cons ..)
    · exact readBangText_suffix ..
  · exact readBangText_suffix ..

theorem readInline_suffix {ctx : Context} {t : Token} {ts rest : List Token} {n : Inline}
    (h : readInline ctx t ts = .ok (n, rest)) : rest <:+ ts := by
  unfold readInline at h
  split at h
  · obtain ⟨rfl, rfl⟩ := Prod.mk.inj (Except.ok.inj h)
    exact readHeading_suffix ts
  · obtain ⟨rfl, rfl⟩ := Prod.mk.inj (Except.ok.inj h)
    exact readEmphasis_suffix ctx ts
  · exact readCode_suffix h
  · obtain ⟨p, hp, h⟩ := map_eq_ok_iff.1 h
    obtain ⟨-, rfl⟩ := Prod.mk.inj h
    exact readLinkParts_suffix hp
  · split at h
    · obtain ⟨p, hp, h⟩ := map_eq_ok_iff.1 h
      obtain ⟨-, rfl⟩ := Prod.mk.inj h
      exact (readLinkParts_suffix hp).trans (List.suffix_cons ..)
    · obtain ⟨-, rfl⟩ := Prod.mk.inj (Except.ok.inj h)
      exact List.suffix_refl _
  · obtain ⟨rfl, rfl⟩ := Prod.mk.inj (Except.ok.inj h)
    exact readImage_suffix ctx ts
  · obtain ⟨-, rfl⟩ := Prod.mk.inj (Except.ok.inj h)
    exact List.suffix_refl _

end Folio.Markup
