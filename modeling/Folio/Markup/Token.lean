import Folio.Text.Quoted

namespace Folio.Markup

inductive Kind
  | hashtag | backtick | dash | pipe
  | parenOpen | parenClose | bracketOpen | bracketClose | braceOpen | braceClose
  | dollar | bang | star
  | newline
  | text
deriving DecidableEq, Repr, Inhabited

namespace Kind

def name : Kind → String
  | hashtag => "heading-mark"
  | backtick => "code-mark"
  | dash => "dash"
  | pipe => "pipe"
  | parenOpen => "paren-open"
  | parenClose => "paren-close"
  | bracketOpen => "bracket-open"
  | bracketClose => "bracket-close"
  | braceOpen => "brace-open"
  | braceClose => "brace-close"
  | dollar => "dollar"
  | bang => "bang"
  | star => "star"
  | newline => "newline"
  | text => "text"

/-- The word for a kind where tokens are written out as data. -/
def label : Kind → String
  | hashtag => "hashtag"
  | backtick => "backtick"
  | k => k.name

def all : List Kind :=
  [hashtag, backtick, dash, pipe, parenOpen, parenClose, bracketOpen, bracketClose, braceOpen,
   braceClose, dollar, bang, star, newline, text]

def ofLabel? (s : String) : Option Kind :=
  all.find? fun k ↦ k.label == s

def ofChar? : Char → Option Kind
  | '#' => some hashtag
  | '\x60' => some backtick
  | '-' => some dash
  | '|' => some pipe
  | '(' => some parenOpen
  | ')' => some parenClose
  | '[' => some bracketOpen
  | ']' => some bracketClose
  | '\x7b' => some braceOpen
  | '\x7d' => some braceClose
  | '$' => some dollar
  | '!' => some bang
  | '*' => some star
  | '\n' => some newline
  | _ => none

def char? : Kind → Option Char
  | hashtag => some '#'
  | backtick => some '\x60'
  | dash => some '-'
  | pipe => some '|'
  | parenOpen => some '('
  | parenClose => some ')'
  | bracketOpen => some '['
  | bracketClose => some ']'
  | braceOpen => some '\x7b'
  | braceClose => some '\x7d'
  | dollar => some '$'
  | bang => some '!'
  | star => some '*'
  | newline => some '\n'
  | text => none

def isMark (k : Kind) : Bool :=
  k != text

theorem ofChar?_eq_some_iff {c : Char} {k : Kind} : ofChar? c = some k ↔ k.char? = some c := by
  constructor
  · intro h
    unfold ofChar? at h
    split at h <;> cases h <;> rfl
  · intro h
    cases k <;> cases h <;> rfl

theorem ofChar?_ne_text (c : Char) : ofChar? c ≠ some text := by
  simp [ofChar?_eq_some_iff, char?]

end Kind

structure Token where
  kind : Kind
  value : String
deriving DecidableEq, Repr, Inhabited

namespace Token

def display (t : Token) : String :=
  match t.kind with
  | .text => "<text:" ++ Text.quoted t.value ++ ">"
  | k => "<" ++ k.name ++ ">"

def spell (ts : List Token) : String :=
  String.join (ts.map Token.value)

@[simp] theorem spell_nil : spell [] = "" := rfl

@[simp] theorem spell_cons (t : Token) (ts : List Token) :
    spell (t :: ts) = t.value ++ spell ts := by
  simp [spell]

@[simp] theorem spell_append (ts us : List Token) : spell (ts ++ us) = spell ts ++ spell us := by
  simp [spell]

end Token

end Folio.Markup
