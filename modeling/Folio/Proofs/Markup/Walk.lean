import Folio.Proofs.Markup.Stretch

namespace Folio.Markup

/-- Reading that moves a cursor. It comes to nothing where a stretch would be cut out of bounds, a
counter would go below zero or a loop would not end within the rounds that it is given. -/
abbrev Walk := ExceptT ParseError (StateT Cursor Option)

namespace Walk

variable {α β : Type}

def look (f : Cursor → α) : Walk α :=
  fun c ↦ some (.ok (f c), c)

def move (f : Cursor → Cursor) : Walk Unit :=
  fun c ↦ some (.ok (), f c)

def advance : Walk (Option Token) :=
  fun c ↦ some (.ok c.current, c.advance)

def eat (k : Kind) : Walk Bool :=
  fun c ↦ some (.ok (c.isAt k), c.eat k)

def expect (k : Kind) : Walk Token :=
  fun c ↦ some (c.expect k)

def fail (f : Cursor → ParseError) : Walk α :=
  fun c ↦ some (.error (f c), c)

def attempt (m : Walk α) : Walk (Option α) :=
  fun c ↦ (m c).map fun p ↦ (.ok p.1.toOption, p.2)

def enclosed (d : Delimiter) : Walk String :=
  fun c ↦ (c.enclosed? d c.index 0).map fun p ↦ (p.1.map Token.spell, p.2)

def upTo (ctx : Context) (mark : List Kind) : Walk (Option String) :=
  fun c ↦ (c.upTo? ctx mark c.index).map fun p ↦ (.ok (p.1.map Token.spell), p.2)

def upToFence : Walk String :=
  fun c ↦ (c.upToFence? c.index).map fun p ↦ (p.1.map Token.spell, p.2)

def title : Walk String :=
  fun c ↦ c.title?.map fun p ↦ (.ok (Token.spell p.1), p.2)

def heading : Walk Inline := do
  let _ ← eat .hashtag
  let level := if ← eat .hashtag then 2 else 1
  return .heading level (Text.trim (← title))

def emphasis (ctx : Context) : Walk Inline := do
  let _ ← eat .star
  if ← eat .star then
    match ← upTo ctx [.star, .star] with
    | some body =>
      let _ ← eat .star
      let _ ← eat .star
      return .bold body
    | none => return .text "**"
  else
    match ← upTo ctx [.star] with
    | some body =>
      let _ ← eat .star
      return .italic body
    | none => return .text "*"

def eatFence : Walk Unit := do
  let _ ← eat .backtick
  let _ ← eat .backtick
  let _ ← eat .backtick

def codeBlock : Walk Inline := do
  eatFence
  let raw ← upToFence
  eatFence
  return codeBlockOf raw

def code (ctx : Context) : Walk Inline := do
  if ← look (·.isAtSequence fence) then codeBlock
  else
    let _ ← eat .backtick
    match ← upTo ctx [.backtick] with
    | some body =>
      let _ ← eat .backtick
      return .code body
    | none => return .text "\x60"

def linkParts : Walk (String × String) := do
  let _ ← expect .bracketOpen
  let label ← enclosed .bracket
  let _ ← expect .parenOpen
  let address ← enclosed .paren
  return (label, Text.trim address)

def link : Walk Inline := do
  let (label, address) ← linkParts
  return .link label address

def view : Walk Inline := do
  if (← look (·.peek 1)) = some .bracketOpen then
    let _ ← eat .dollar
    let (label, address) ← linkParts
    return .view label address
  else
    let _ ← advance
    return .text "$"

def endsRun (ctx : Context) : Walk Bool :=
  look (·.kind?.all ctx.endsAt)

def bangText (ctx : Context) : Walk Inline := do
  if ← endsRun ctx then return .text "!"
  match ← advance with
  | some t => return .text ("!" ++ t.value)
  | none => return .text "!"

def image (ctx : Context) : Walk Inline := do
  let _ ← eat .bang
  let start ← look (·.index)
  if ← look (·.isAt .bracketOpen) then
    match ← attempt linkParts with
    | some (alt, source) => return .image alt source
    | none =>
      move (·.seek start)
      bangText ctx
  else bangText ctx

def inline (ctx : Context) : Walk (Option Inline) := do
  match ← look (·.kind?) with
  | some .hashtag => some <$> heading
  | some .star => some <$> emphasis ctx
  | some .backtick => some <$> code ctx
  | some .bracketOpen => some <$> link
  | some .dollar => some <$> view
  | some .bang => some <$> image ctx
  | _ => return (← advance).map fun t ↦ .text t.value

def stuck : Walk α :=
  fun _ ↦ none

def run (ctx : Context) : Nat → Run → Walk Run
  | 0, _ => stuck
  | n + 1, nodes => do
    if ← endsRun ctx then return nodes
    match ← inline ctx with
    | some node => run ctx n (Run.push nodes node)
    | none => return nodes

def trimmedRun (ctx : Context) (n : Nat) : Walk Run := do
  return Run.trim (← run ctx n [])

def lines (mark : Kind) (line : Walk α) : Nat → List α → Walk (List α)
  | 0, _ => stuck
  | n + 1, read => do
    if ← eat mark then
      let next ← line
      let _ ← eat .newline
      lines mark line n (read ++ [next])
    else return read

def cells : Nat → List Run → Walk (List Run)
  | 0, _ => stuck
  | n + 1, read => do
    let cell ← trimmedRun .cell n
    let closed ← eat .pipe
    if cell.isEmpty && (← look (·.isAtLineEnd)) then return read
    if closed then cells n (read ++ [cell]) else return read ++ [cell]

def paragraph (n : Nat) : Walk (Option Block) := do
  let content ← trimmedRun .line n
  let _ ← eat .newline
  return if content.isEmpty then none else some (.paragraph content)

mutual

def block : Nat → Walk (Option Block)
  | 0 => stuck
  | n + 1 => do
    match ← look (·.kind?) with
    | some .dash => return some (.list (← lines .dash (trimmedRun .line n) n []))
    | some .braceOpen =>
      let opening ← look id
      let _ ← eat .braceOpen
      return some (.segment (← segment opening n []))
    | some .braceClose => fail (·.unmatched .braceOpen .braceClose)
    | some .pipe =>
      let rows := (← lines .pipe (cells n []) n []).filter (!·.isEmpty)
      return if rows.isEmpty then none else some (.table rows)
    | _ => paragraph n

def segment (opening : Cursor) : Nat → List Block → Walk (List Block)
  | 0, _ => stuck
  | n + 1, read => do
    move (·.skipNewlines)
    match ← look (·.kind?) with
    | none => fail fun _ ↦ .unexpected .braceClose none opening.index opening.line
    | some .braceClose =>
      let _ ← advance
      return read
    | some _ =>
      let next ← block n
      segment opening n (read ++ next.toList)

end

def blocks : Nat → List Block → Walk (List Block)
  | 0, _ => stuck
  | n + 1, read => do
    move (·.skipNewlines)
    if ← look (·.atEnd) then return read
    let next ← block n
    blocks n (read ++ next.toList)

end Walk

end Folio.Markup
