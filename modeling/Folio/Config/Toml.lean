import Folio.Config.Key

namespace Folio.Config

inductive Scalar
  | integer (n : Int)
  | boolean (b : Bool)
  | string (s : String)
deriving DecidableEq, Repr

def Scalar.text : Scalar → String
  | integer n => toString n
  | boolean b => toString b
  | string s => s

end Folio.Config

namespace Folio.Config.Toml

def isSpace (c : Char) : Bool :=
  c == ' ' || c == '\t'

def skipSpaces (cs : List Char) : List Char :=
  cs.dropWhile isSpace

def isControl (c : Char) : Bool :=
  (c.toNat < 0x20 && c != '\t') || c.toNat == 0x7f

def takeLineEnd : List Char → Option (List Char)
  | [] => some []
  | '\n' :: cs => some cs
  | '\r' :: '\n' :: cs => some cs
  | _ => none

def takeRemark (cs : List Char) : Option (List Char) :=
  match skipSpaces cs with
  | '#' :: cs => takeLineEnd (cs.dropWhile fun c ↦ !isControl c)
  | cs => takeLineEnd cs

def skipLines : Nat → List Char → List Char
  | 0, cs => cs
  | fuel + 1, cs =>
    match skipSpaces cs with
    | '\n' :: cs => skipLines fuel cs
    | '\r' :: '\n' :: cs => skipLines fuel cs
    | '#' :: cs => skipLines fuel (cs.dropWhile fun c ↦ !isControl c)
    | cs => cs

def hexValue? (c : Char) : Option Nat :=
  if c.isDigit then some (c.toNat - '0'.toNat)
  else if 'a' ≤ c ∧ c ≤ 'f' then some (c.toNat - 'a'.toNat + 10)
  else if 'A' ≤ c ∧ c ≤ 'F' then some (c.toNat - 'A'.toNat + 10)
  else none

def digitsValue? (base : Nat) (ds : List Char) : Option Nat :=
  ds.foldl (fun n c ↦ do
    let n ← n
    let d ← hexValue? c
    if d < base then some (base * n + d) else none) (some 0)

def charOf? (ds : List Char) : Option Char := do
  let n ← digitsValue? 16 ds
  if n.isValidChar then some (Char.ofNat n) else none

def takeBasic : List Char → Option (List Char × List Char)
  | [] => none
  | '"' :: cs => some ([], cs)
  | '\\' :: 'u' :: a :: b :: c :: d :: cs => do
    let u ← charOf? [a, b, c, d]
    let (s, rest) ← takeBasic cs
    some (u :: s, rest)
  | '\\' :: 'U' :: a :: b :: c :: d :: e :: f :: g :: h :: cs => do
    let u ← charOf? [a, b, c, d, e, f, g, h]
    let (s, rest) ← takeBasic cs
    some (u :: s, rest)
  | '\\' :: c :: cs => do
    let u ← match c with
      | 'b' => some '\x08'
      | 't' => some '\t'
      | 'n' => some '\n'
      | 'f' => some '\x0c'
      | 'r' => some '\r'
      | '"' => some '"'
      | '\\' => some '\\'
      | _ => none
    let (s, rest) ← takeBasic cs
    some (u :: s, rest)
  | c :: cs => do
    if isControl c || c == '\\' then none
    else
      let (s, rest) ← takeBasic cs
      some (c :: s, rest)

def takeLiteral : List Char → Option (List Char × List Char)
  | [] => none
  | '\x27' :: cs => some ([], cs)
  | c :: cs => do
    if isControl c then none
    else
      let (s, rest) ← takeLiteral cs
      some (c :: s, rest)

def isBareChar (c : Char) : Bool :=
  c.isAlphanum || c == '_' || c == '-'

def takeName : List Char → Option (String × List Char)
  | '"' :: cs => (takeBasic cs).map fun (s, rest) ↦ (String.ofList s, rest)
  | '\x27' :: cs => (takeLiteral cs).map fun (s, rest) ↦ (String.ofList s, rest)
  | cs =>
    let name := cs.takeWhile isBareChar
    if name = [] then none else some (String.ofList name, cs.dropWhile isBareChar)

/-- A key has at most this many names, and values are nested at most this deep. -/
def deepest : Nat :=
  79

def takeNames : Nat → List Char → Option (List String × List Char)
  | 0, _ => none
  | limit + 1, cs => do
    let (name, rest) ← takeName (skipSpaces cs)
    match skipSpaces rest with
    | '.' :: rest =>
      let (names, rest) ← takeNames limit rest
      some (name :: names, rest)
    | rest => some ([name], rest)

def takeKey (cs : List Char) : Option (List String × List Char) :=
  takeNames deepest cs

def digitsOf (base : Nat) (cs : List Char) : Option Nat :=
  if cs.isEmpty || cs.head? = some '_' || cs.getLast? = some '_'
    || (cs.zip cs.tail).contains ('_', '_') then none
  else digitsValue? base (cs.filter (· ≠ '_'))

def integerOf (cs : List Char) : Option Int :=
  let decimal (cs : List Char) : Option Nat :=
    if cs.head? = some '0' ∧ 1 < cs.length then none else digitsOf 10 cs
  let n : Option Int := match cs with
    | '0' :: 'x' :: ds => (digitsOf 16 ds).map Int.ofNat
    | '0' :: 'o' :: ds => (digitsOf 8 ds).map Int.ofNat
    | '0' :: 'b' :: ds => (digitsOf 2 ds).map Int.ofNat
    | '+' :: ds => (decimal ds).map Int.ofNat
    | '-' :: ds => (decimal ds).map fun n ↦ -Int.ofNat n
    | ds => (decimal ds).map Int.ofNat
  n.filter fitsWord

def wordOf (word : List Char) : Option (Value Scalar) :=
  if word = ['t', 'r', 'u', 'e'] then some (.scalar (.boolean true))
  else if word = ['f', 'a', 'l', 's', 'e'] then some (.scalar (.boolean false))
  else (integerOf word).map fun n ↦ .scalar (.integer n)

/-- How a table came about, which decides what may still be added to it. -/
inductive Opened
  /-- by a header of its own, or as a root -/
  | header
  /-- on the way to a table of a header -/
  | implied
  /-- on the way to a dotted key -/
  | dotted
deriving DecidableEq

inductive Item
  | value (v : Value Scalar)
  | table (opened : Opened) (entries : List (String × Item))

abbrev Entries := List (String × Item)

def find? (name : String) (entries : Entries) : Option Item :=
  (entries.find? (·.1 == name)).map Prod.snd

def replace (name : String) (item : Item) (entries : Entries) : Entries :=
  if entries.any (·.1 == name) then
    entries.map fun e ↦ if e.1 == name then (name, item) else e
  else entries ++ [(name, item)]

/-- Sets a dotted key within a table that was opened so. A key is set once, and dots do not lead
into a table that headers opened. -/
def setKey (v : Value Scalar) (opened : Opened) : List String → Entries → Option Entries
  | [], _ => none
  | [name], entries =>
    match opened, find? name entries with
    | .implied, _ | _, some _ => none
    | _, none => some (replace name (.value v) entries)
  | name :: names, entries =>
    match find? name entries with
    | none =>
      (setKey v .dotted names []).map fun inner ↦ replace name (.table .dotted inner) entries
    | some (.table .header _) | some (.value _) => none
    | some (.table opened inner) =>
      (setKey v opened names inner).map fun inner ↦ replace name (.table opened inner) entries

mutual

def Item.toValue (origin : Option String) : Item → Value Scalar
  | .value v => v
  | .table _ entries => .table origin (toValues origin entries)

def toValues (origin : Option String) : Entries → List (String × Value Scalar)
  | [] => []
  | (name, item) :: entries => (name, item.toValue origin) :: toValues origin entries

end

mutual

/-- Takes a value, in which lists and tables may be nested `depth` deep; they keep their origin.
Each step takes a character at least, so the length of the text is fuel enough. -/
def takeValue (origin : Option String) (depth : Nat) :
    Nat → List Char → Option (Value Scalar × List Char)
  | 0, _ => none
  | fuel + 1, cs =>
    match cs, depth with
    | '"' :: cs, _ => (takeBasic cs).map fun (s, rest) ↦ (.scalar (.string (String.ofList s)), rest)
    | '\x27' :: cs, _ =>
      (takeLiteral cs).map fun (s, rest) ↦ (.scalar (.string (String.ofList s)), rest)
    | '[' :: _, 0 | '\x7b' :: _, 0 => none
    | '[' :: cs, depth + 1 =>
      (takeItems origin depth fuel cs).map fun (items, rest) ↦ (.list origin items, rest)
    | '\x7b' :: cs, depth + 1 =>
      match skipSpaces cs with
      | '\x7d' :: rest => some (.table origin [], rest)
      | _ =>
        (takeEntries origin depth fuel [] cs).map fun (entries, rest) ↦
          (.table origin (toValues origin entries), rest)
    | cs, _ =>
      let isWordChar (c : Char) : Bool := isBareChar c || c == '+' || c == '.'
      (wordOf (cs.takeWhile isWordChar)).map fun v ↦ (v, cs.dropWhile isWordChar)

def takeItems (origin : Option String) (depth : Nat) :
    Nat → List Char → Option (List (Value Scalar) × List Char)
  | 0, _ => none
  | fuel + 1, cs =>
    match skipLines (cs.length + 1) cs with
    | ']' :: rest => some ([], rest)
    | cs => do
      let (v, rest) ← takeValue origin depth fuel cs
      match skipLines (rest.length + 1) rest with
      | ',' :: rest =>
        let (vs, rest) ← takeItems origin depth fuel rest
        some (v :: vs, rest)
      | ']' :: rest => some ([v], rest)
      | _ => none

def takeEntries (origin : Option String) (depth : Nat) :
    Nat → Entries → List Char → Option (Entries × List Char)
  | 0, _, _ => none
  | fuel + 1, entries, cs => do
    let (names, rest) ← takeKey cs
    match rest with
    | '=' :: rest =>
      let (v, rest) ← takeValue origin depth fuel (skipSpaces rest)
      let entries ← setKey v .header names entries
      match skipSpaces rest with
      | ',' :: rest => takeEntries origin depth fuel entries rest
      | '\x7d' :: rest => some (entries, rest)
      | _ => none
    | _ => none

end

/-- Opens the table of a header. A table has one header at most. -/
def openHeader : List String → Entries → Option Entries
  | [], _ => none
  | [name], entries =>
    match find? name entries with
    | none => some (replace name (.table .header []) entries)
    | some (.table .implied inner) => some (replace name (.table .header inner) entries)
    | some _ => none
  | name :: names, entries =>
    match find? name entries with
    | none => (openHeader names []).map fun inner ↦ replace name (.table .implied inner) entries
    | some (.table opened inner) =>
      (openHeader names inner).map fun inner ↦ replace name (.table opened inner) entries
    | some (.value _) => none

def setIn (header : List String) (names : List String) (v : Value Scalar) (entries : Entries) :
    Option Entries :=
  match header with
  | [] => setKey v .header names entries
  | name :: header =>
    match find? name entries with
    | some (.table opened inner) =>
      (setIn header names v inner).map fun inner ↦ replace name (.table opened inner) entries
    | _ => none

/-- One line: a header, a key with its value, or nothing but a comment. Gives the header that is
now open, the entries, and the text after the line. -/
def readLine (origin : Option String) (header : List String) (entries : Entries)
    (cs : List Char) : Option (List String × Entries × List Char) :=
  match skipSpaces cs with
  | '[' :: cs => do
    let (names, rest) ← takeKey cs
    match rest with
    | ']' :: rest =>
      let entries ← openHeader names entries
      let rest ← takeRemark rest
      some (names, entries, rest)
    | _ => none
  | cs =>
    match takeRemark cs with
    | some rest => some (header, entries, rest)
    | none => do
      let (names, rest) ← takeKey cs
      match rest with
      | '=' :: rest =>
        let (v, rest) ← takeValue origin deepest (2 * rest.length + 2) (skipSpaces rest)
        let entries ← setIn header names v entries
        let rest ← takeRemark rest
        some (header, entries, rest)
      | _ => none

def readLines (origin : Option String) : Nat → List String → Entries → List Char → Option Entries
  | _, _, entries, [] => some entries
  | 0, _, _, _ => none
  | fuel + 1, header, entries, cs => do
    let (header, entries, rest) ← readLine origin header entries cs
    readLines origin fuel header entries rest

/-- The entries of the root table of a text. Each line takes a character at least, so the length
is fuel enough. -/
def readChars (origin : Option String) (cs : List Char) : Option (List (String × Value Scalar)) :=
  let cs := match cs with
    | '\uFEFF' :: cs => cs
    | cs => cs
  (readLines origin cs.length [] [] cs).map (toValues origin)

def read (origin : Option String) (text : String) : Option (List (String × Value Scalar)) :=
  readChars origin text.toList

end Folio.Config.Toml
