namespace Folio.Code

inductive Category
  | comment
  | controlKeyword
  | typeKeyword
  | textLiteral
  | numericalLiteral
  | functionName
  | include
  | customType
  | enumType
  | operator
  | identifier
deriving DecidableEq, Repr, Inhabited

namespace Category

def name : Category → String
  | comment => "comment"
  | controlKeyword => "control-keyword"
  | typeKeyword => "type-keyword"
  | textLiteral => "text-literal"
  | numericalLiteral => "numerical-literal"
  | functionName => "function-name"
  | .include => "include"
  | customType => "custom-type"
  | enumType => "enum-type"
  | operator => "operator"
  | identifier => "identifier"

def all : List Category :=
  [comment, controlKeyword, typeKeyword, textLiteral, numericalLiteral, functionName, .include,
   customType, enumType, operator, identifier]

def ofName? (s : String) : Option Category :=
  all.find? fun c ↦ c.name == s

def spanClass? : Category → Option String
  | identifier => none
  | c => some c.name

end Category

end Folio.Code
