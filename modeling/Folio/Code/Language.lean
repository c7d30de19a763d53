namespace Folio.Code

structure Language where
  name : String
  control : List String
  types : List String
  operators : List String
  builtin : List String

namespace Language

def isControl (l : Language) (word : String) : Bool :=
  l.control.contains word

def isType (l : Language) (word : String) : Bool :=
  l.types.contains word

def builtinTypes (l : Language) : List String :=
  l.builtin.eraseDups.mergeSort (· ≤ ·)

/-- For each suffix of the text, longest first, whether it is made of operators back to back. -/
def operatorSuffixes (ops : List (List Char)) : List Char → List Bool
  | [] => [true]
  | c :: cs =>
    let shorter := operatorSuffixes ops cs
    ops.any (fun
      | [] => false
      | o :: op => (o :: op).isPrefixOf (c :: cs) && shorter[op.length]?.getD false) :: shorter

/-- Whether a text is one or more operators back to back. Only where the table lists the empty
operator, or no operator at all, is the empty text such a run. -/
def isOperatorRun (l : Language) (text : String) : Bool :=
  if text.isEmpty then l.operators.isEmpty || l.operators.contains ""
  else (operatorSuffixes (l.operators.map String.toList) text.toList).headD false

def cpp : Language where
  name := "cpp"
  control :=
   ["if", "else", "switch", "case", "default", "do", "while", "for", "break", "continue",
   "return", "goto", "try", "catch", "throw"]
  types :=
   ["bool", "char", "short", "int", "long", "signed", "unsigned", "float", "double", "void",
   "auto", "decltype", "const", "volatile", "mutable", "static", "extern", "register",
   "thread_local", "namespace", "using", "class", "struct", "union", "friend", "public",
   "private", "protected", "virtual", "explicit", "final", "override", "sizeof", "alignof",
   "new", "delete", "co_await", "co_return", "co_yield", "static_cast", "dynamic_cast",
   "const_cast", "reinterpret_cast", "and", "and_eq", "bitand", "bitor", "not", "not_eq",
   "or", "or_eq", "xor", "xor_eq", "compl", "asm", "static_assert", "noexcept", "nullptr",
   "typeid", "typedef", "requires", "concept", "alignas", "consteval", "constexpr",
   "constinit", "import", "module", "reflexpr", "synchronized", "enum", "template", "typename"]
  operators :=
   [">", "<", ",", "\x7b", "\x7d", "(", ")", "+", "-", "*", "/", "%", "++", "--", "==", "!=",
   "<=", ">=", "&&", "||", "!", "&", "|", "^", "~", "<<", ">>", "+=", "-=", "*=", "/=", "%=",
   "&=", "|=", "^=", "<<=", ">>=", "->", ".", "->*", ".*", "::", ";", "[", "]"]
  builtin :=
   ["size_t", "char8_t", "char16_t", "char32_t", "wchar_t", "int8_t", "int16_t", "int32_t",
   "int64_t", "uint8_t", "uint16_t", "uint32_t", "uint64_t"]

end Language

end Folio.Code
