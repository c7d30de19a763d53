import Folio.Files.Path

namespace Folio.Config

open Files

structure Settings where
  sourceDir : Path
  outputDir : Path
  /-- of the documents, without its dot -/
  extension : String
  stylesheet : String
deriving DecidableEq

inductive Setting
  | sourceDir
  | outputDir
  | extension
  | stylesheet
deriving DecidableEq, Repr

def Setting.name : Setting → String
  | sourceDir => "source_dir"
  | outputDir => "output_dir"
  | extension => "extension"
  | stylesheet => "stylesheet"

def Setting.standard : Setting → String
  | sourceDir => "content"
  | outputDir => "public"
  | extension => "md"
  | stylesheet => "source/style/utilities.css"

namespace Settings

def standardText : String :=
  "# Built-in defaults for the quire site builder.\n" ++
  "# User files and command-line flags are layered on top of these values.\n" ++
  "\n" ++
  "[site]\n" ++
  "# Directory holding the markup documents.\n" ++
  "source_dir = \"content\"\n" ++
  "# Directory the rendered pages are written to.\n" ++
  "output_dir = \"public\"\n" ++
  "# Only files with this extension are treated as documents.\n" ++
  "extension = \"md\"\n" ++
  "# Stylesheet linked from every page shell.\n" ++
  "stylesheet = \"source/style/utilities.css\"\n"

end Settings

end Folio.Config
