import Folio.Config.Settings
import Folio.Html.Page
import Folio.Site.Sources

namespace Folio.Site

open Files Config

def pagePath (outputDir : Path) (name : String) : Path :=
  join outputDir (Text.bytes (name ++ ".html"))

def writePage (sys : System) (outputDir : Path) (shell : Html.Shell) : Assembler Tree :=
  fun name fragment files ↦
    let path := pagePath outputDir name
    match sys.write files path (Text.bytes (shell.page name fragment)) with
    | .ok files => (.ok (), files)
    | .error e => (.error (.io path e.message), files)

/-- Builds the site of the settings. It fails as a whole only where the documents cannot be read
or the output directory cannot be made. -/
def buildFiles (sys : System) (s : Settings) (files : Tree) : Except SiteError Report × Tree :=
  match collect sys files s.sourceDir s.extension with
  | .error e => (.error e, files)
  | .ok sources =>
    match sys.makeDirectories files s.outputDir with
    | (.error e, files) => (.error (.io s.outputDir e.message), files)
    | (.ok _, files) =>
      let (report, files) := build (writePage sys s.outputDir ⟨s.stylesheet⟩) sources files
      (.ok report, files)

end Folio.Site
