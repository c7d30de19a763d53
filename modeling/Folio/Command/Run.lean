import Folio.Command.Arguments
import Folio.Config.Standard
import Folio.Inspection
import Folio.Site.Pages

namespace Folio.Command

open Files Config Site

/-- The document in a file, inspected. The stem of the file's name is the name of the document. -/
def inspectFile (sys : System) (files : Tree) (path : Path) (i : Inspection) :
    Except InspectionError String :=
  match sys.readText files path with
  | .error e => .error (.unreadable (Text.lossy path) e.message)
  | .ok source => i.render .pretty ((fileName? path).elim "" fun n ↦ Text.lossy (stem n)) source

inductive Failure
  | unknownFormat (format : String) (cause : InspectionError)
  | process (path : String) (cause : InspectionError)
  | config (cause : ConfigError)
  | site (cause : SiteError)

namespace Failure

def message : Failure → String
  | unknownFormat format _ =>
    "unknown format '" ++ format ++ "', expected one of: " ++ ", ".intercalate Inspection.names
  | process path _ => "failed to process " ++ path
  | config _ => "failed to load configuration"
  | site cause => cause.message

def inspectionCauses (e : InspectionError) : List String :=
  match e with
  | .malformed error => [e.message, error.message]
  | e => [e.message]

def causes : Failure → List String
  | unknownFormat _ cause | process _ cause => inspectionCauses cause
  | config cause => [cause.message]
  | site (.io _ reason) => [reason]
  | site (.malformed _ error) => [error.message]

/-- Puts a text after a heading, its further lines under its first one. -/
def under (heading blank text : String) : String :=
  heading ++ ("\n" ++ blank).intercalate
    ((Text.splitOn '\n' text.toList).map String.ofList)

def report (f : Failure) : String :=
  "Error: " ++ f.message ++
    (match f.causes with
      | [] => ""
      | [cause] => "\n\nCaused by:\n" ++ under "    " "    " cause
      | causes =>
        "\n\nCaused by:" ++ String.join (causes.zipIdx.map fun (cause, i) ↦
          "\n" ++ under ("    " ++ toString i ++ ": ") "       " cause)) ++ "\n"

end Failure

def BuildOptions.layers (o : BuildOptions) : List (Layer Scalar) :=
  (o.config.map fun path ↦ Layer.file (Text.bytes path)).toList ++
    (o.source.map fun dir ↦ Layer.override "site.source_dir" (.string dir)).toList ++
    (o.output.map fun dir ↦ Layer.override "site.output_dir" (.string dir)).toList

structure Outcome where
  code : Nat
  output : String
  errors : String
  files : Tree

def Outcome.ofFailure (files : Tree) (f : Failure) : Outcome :=
  ⟨1, "", f.report, files⟩

def usage : String :=
  "usage: quire formats\n" ++
  "       quire process <path> <format>\n" ++
  "       quire build [-c|--config file] [-s|--source dir] [-o|--output dir]\n"

def runProcess (sys : System) (files : Tree) (path format : String) : Except Failure String :=
  match Inspection.ofName format with
  | .error e => .error (.unknownFormat format e)
  | .ok i =>
    match inspectFile sys files (Text.bytes path) i with
    | .error e => .error (.process path e)
    | .ok text => .ok (text ++ "\n")

def skippedLines (r : Report) : String :=
  String.join (r.skipped.map fun (name, e) ↦ "skipped " ++ name ++ ": " ++ e.message ++ "\n")

def runBuild (sys : System) (files : Tree) (options : BuildOptions) : Outcome :=
  match load sys files options.layers with
  | .error e => .ofFailure files (.config e)
  | .ok settings =>
    match buildFiles sys settings files with
    | (.error e, files) => .ofFailure files (.site e)
    | (.ok report, files) => ⟨0, "", skippedLines report, files⟩

/-- The paths that must be known before a request can be answered: a document, or settings. -/
def Request.paths : Request → List Path
  | .process path _ => [Text.bytes path]
  | .build o => o.config.toList.flatMap fun path ↦ [Text.bytes path, Text.bytes (path ++ ".toml")]
  | _ => []

/-- The directories that a build works in, once its settings are known. -/
def Request.directories (sys : System) (files : Tree) : Request → List Path
  | .build o =>
    match load sys files o.layers with
    | .ok s => [s.sourceDir, s.outputDir]
    | .error _ => []
  | _ => []

def run (sys : System) (files : Tree) : Request → Outcome
  | .help => ⟨0, usage, "", files⟩
  | .version => ⟨0, "quire 0.1.0\n", "", files⟩
  | .formats => ⟨0, String.join (Inspection.names.map (· ++ "\n")), "", files⟩
  | .process path format =>
    match runProcess sys files path format with
    | .ok text => ⟨0, text, "", files⟩
    | .error f => .ofFailure files f
  | .build options => runBuild sys files options

def misused (files : Tree) : Outcome :=
  ⟨2, "", usage, files⟩

def runArguments (sys : System) (files : Tree) (args : List String) : Outcome :=
  match readRequest args with
  | some request => run sys files request
  | none => misused files

end Folio.Command
