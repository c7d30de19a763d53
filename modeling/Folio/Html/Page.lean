import Folio.Html.Escape

namespace Folio.Html

structure Shell where
  stylesheet : String
deriving DecidableEq, Repr

def Shell.standard : Shell :=
  ⟨"source/style/utilities.css"⟩

def Shell.page (shell : Shell) (name fragment : String) : String :=
  "<!DOCTYPE html>\n" ++
  "<html lang=\"en\">\n" ++
  "<head>\n" ++
  "    <meta charset=\"UTF-8\">\n" ++
  "    <meta name=\"viewport\" content=\"width=device-width, initial-scale=1.0\">\n" ++
  "    <link rel=\"stylesheet\" href=\"" ++ escape shell.stylesheet ++ "\">\n" ++
  "    <title>" ++ escape name ++ "</title>\n" ++
  "</head>\n" ++
  "<body>\n" ++
  "    <div id=\"main\">\n" ++
  "        <div id=\"header\"></div>\n" ++
  "        <div id=\"content\">" ++ fragment ++ "</div>\n" ++
  "        <div id=\"footer\"></div>\n" ++
  "    </div>\n" ++
  "</body>\n" ++
  "</html>\n"

end Folio.Html
