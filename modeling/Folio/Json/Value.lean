import Folio.Text.Quoted

namespace Folio.Json

inductive Value
  | null
  | number (n : Nat)
  | string (s : String)
  | array (items : List Value)
  | object (fields : List (String × Value))

def hexByte (n : Nat) : String :=
  String.ofList [Nat.digitChar (n / 16), Nat.digitChar (n % 16)]

def quoteChar (c : Char) : String :=
  if c == '"' then "\\\""
  else if c == '\\' then "\\\\"
  else if c == '\x08' then "\\b"
  else if c == '\x0c' then "\\f"
  else if c == '\n' then "\\n"
  else if c == '\r' then "\\r"
  else if c == '\t' then "\\t"
  else if c.toNat < 0x20 then "\\u00" ++ hexByte c.toNat
  else c.toString

def quoted (s : String) : String :=
  "\"" ++ String.join (s.toList.map quoteChar) ++ "\""

def bracketed (opening closing : String) (depth : Nat) (entries : List String) : String :=
  let newline (depth : Nat) : String := "\n" ++ String.join (List.replicate depth "  ")
  if entries.isEmpty then opening ++ closing
  else
    opening ++ newline (depth + 1) ++ ("," ++ newline (depth + 1)).intercalate entries ++
      newline depth ++ closing

namespace Value

mutual

def pretty (depth : Nat) : Value → String
  | null => "null"
  | number n => toString n
  | string s => quoted s
  | array items => bracketed "[" "]" depth (prettyItems (depth + 1) items)
  | object fields => bracketed "\x7b" "\x7d" depth (prettyFields (depth + 1) fields)

def prettyItems (depth : Nat) : List Value → List String
  | [] => []
  | v :: vs => pretty depth v :: prettyItems depth vs

def prettyFields (depth : Nat) : List (String × Value) → List String
  | [] => []
  | (k, v) :: fs => (quoted k ++ ": " ++ pretty depth v) :: prettyFields depth fs

end

end Value

/-- Prints values as texts, and may fail with a reason. -/
abbrev Printer :=
  Value → Except String String

def Printer.pretty : Printer :=
  fun v ↦ .ok (v.pretty 0)

end Folio.Json
