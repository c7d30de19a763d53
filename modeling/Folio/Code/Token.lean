import Folio.Code.Category
import Folio.Code.Declared
import Folio.Code.Lexeme

namespace Folio.Code

structure Token where
  category : Category
  text : String
deriving DecidableEq, Repr, Inhabited

def isWhole (cut : List Char → Option Cut) (cs : List Char) : Bool :=
  (cut cs).any fun c ↦ c.2.isEmpty

def isCharLiteral : List Char → Bool
  | [q, c, q'] => q == '\x27' && c != '\x27' && c != '\\' && q' == '\x27'
  | [q, b, c, q'] => q == '\x27' && b == '\\' && c != '\n' && q' == '\x27'
  | _ => false

def isNumber (cs : List Char) : Bool :=
  isWhole cutHexadecimal cs || isWhole cutBinary cs || isWhole cutDecimal cs

def leadingWord (cs : List Char) : String :=
  String.ofList (cs.takeWhile Text.isWord)

def categoryOf (l : Language) (names : Declared) (text : String) : Category :=
  let cs := text.toList
  let word := leadingWord cs
  if ['/', '/'].isPrefixOf cs then .comment
  else if l.isControl word then .controlKeyword
  else if l.isType word then .typeKeyword
  else if isWhole (cutQuoted '"') cs || isCharLiteral cs then .textLiteral
  else if isNumber cs then .numericalLiteral
  else if isWhole cutCall cs then .functionName
  else if isWhole cutInclude cs then .include
  else if names.isType word then .customType
  else if names.isMember word then .enumType
  else if l.isOperatorRun text then .operator
  else .identifier

def lexemes (code : String) : List String :=
  (lexCode code.toList).map String.ofList

def classify (l : Language) (code : String) : List Token :=
  let names := Declared.ofCode code l
  (lexemes code).map fun text ↦ ⟨categoryOf l names text, text⟩

end Folio.Code
