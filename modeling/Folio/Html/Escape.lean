namespace Folio.Html

def escapeChar : Char → String
  | '&' => "&amp;"
  | '<' => "&lt;"
  | '>' => "&gt;"
  | c => c.toString

def escapeAttributeChar : Char → String
  | '"' => "&quot;"
  | c => escapeChar c

def escapeXmlChar : Char → String
  | '\x27' => "&apos;"
  | c => escapeAttributeChar c

def escape (s : String) : String :=
  String.join (s.toList.map escapeChar)

def escapeAttribute (s : String) : String :=
  String.join (s.toList.map escapeAttributeChar)

def escapeXml (s : String) : String :=
  String.join (s.toList.map escapeXmlChar)

end Folio.Html
