import Folio.Config.Loader
import Folio.Config.Merge
import Folio.Config.Toml
import Folio.Files.System
import Folio.Text.Quoted

namespace Folio.Config

open Files

/-- What may stand where a text or a table of settings is needed. -/
inductive Found
  | nothing
  | integer (n : Int)
  | boolean (b : Bool)
  | string (s : String)
  | list
  | table
deriving DecidableEq, Repr

def Found.text : Found → String
  | nothing => "unit value"
  | integer n => "integer \x60" ++ toString n ++ "\x60"
  | boolean b => "boolean \x60" ++ toString b ++ "\x60"
  | string s => "string " ++ Text.quoted s
  | list => "sequence"
  | table => "map"

inductive ConfigError
  /-- an override's key is no path -/
  | badKey (key : String)
  /-- a required file is missing -/
  | notFound (path : Path)
  /-- a required file cannot be read as a text -/
  | unreadable (cause : FileError)
  /-- a file breaks the rules of TOML -/
  | badFile (origin : String)
  /-- a setting is no text -/
  | noText (found : Found) (key : String) (origin : Option String)
  /-- the settings of the site are no table -/
  | noTable (found : Found)
  /-- a setting is missing -/
  | missing (name : String)
  /-- the settings are given as a list, and this many are too few -/
  | tooShort (length : Nat)
deriving DecidableEq, Repr

def ConfigError.message : ConfigError → String
  | badKey key => "invalid path " ++ Text.quoted key
  | notFound path => "configuration file \"" ++ Text.lossy path ++ "\" not found"
  | unreadable cause => cause.message
  | badFile origin => "invalid TOML in " ++ origin
  | noText found key origin =>
    "invalid type: " ++ found.text ++ ", expected a string for key \x60" ++ key ++ "\x60" ++
      (match origin with
        | some path => " in " ++ path
        | none => "")
  | noTable found => "invalid type: " ++ found.text ++ ", expected struct SiteConfig"
  | missing name => "missing field \x60" ++ name ++ "\x60"
  | tooShort length =>
    "invalid length " ++ toString length ++ ", expected struct SiteConfig with 4 elements"

/-- The file of a layer: the one at the path itself, or else at the path with the extension of TOML
added. -/
def findFile? (sys : System) (files : Tree) (path : Path) : Option Path :=
  let path' := pathFromHome sys.home path
  let withExtension := path' ++ Text.bytes ".toml"
  if sys.isFile files path then some path'
  else if (fileName? path).isSome && sys.isFile files withExtension then some withExtension
  else none

def readEntries (origin : String) (s : String) :
    Except ConfigError (List (String × Value Scalar)) :=
  match Toml.read (some origin) s with
  | some entries => .ok entries
  | none => .error (.badFile origin)

/-- The entries that a file sets. A file that need not exist may also hold no text, but a text must
be TOML. -/
def readFile (sys : System) (files : Tree) (isRequired : Bool) (path : Path) :
    Except ConfigError (List (String × Value Scalar)) :=
  match findFile? sys files path with
  | none => if isRequired then .error (.notFound path) else .ok []
  | some path =>
    match sys.readText files path with
    | .ok s => readEntries (Text.lossy path) s
    | .error e => if isRequired then .error (.unreadable e) else .ok []

def readSource (sys : System) (files : Tree) :
    Source → Except ConfigError (List (String × Value Scalar))
  | .text s =>
    match Toml.read none s with
    | some entries => .ok entries
    | none => .error (.badFile "")
  | .file path isRequired => readFile sys files isRequired path

def mergeFile (root : Value Scalar) (entries : List (String × Value Scalar)) : Value Scalar :=
  entries.foldl (fun root (name, v) ↦ Value.set ((Key.ofText name).getD ⟨name, []⟩) v root) root

structure Collected where
  sources : List Source
  overrides : List (Key × Scalar)

namespace Collected

def setOverride (key : String) (s : Scalar) (b : Collected) : Except ConfigError Collected :=
  match Key.ofText key with
  | some k => .ok { b with overrides := b.overrides ++ [(k, s)] }
  | none => .error (.badKey key)

def build (sys : System) (files : Tree) (b : Collected) : Except ConfigError (Value Scalar) := do
  let added ← b.sources.mapM (readSource sys files)
  .ok (b.overrides.foldl (fun root (key, s) ↦ Value.set key (.scalar s) root)
    (mergeFile .emptyTable added.flatten))

end Collected

def Value.found : Value Scalar → Found
  | nothing => .nothing
  | scalar (.integer n) => .integer n
  | scalar (.boolean b) => .boolean b
  | scalar (.string s) => .string s
  | list .. => .list
  | table .. => .table

def Value.origin? : Value Scalar → Option String
  | list origin _ | table origin _ => origin
  | _ => none

/-- A setting as text; integers and booleans are written out. -/
def textOf (key : String) : Value Scalar → Except ConfigError String
  | .scalar s => .ok s.text
  | v => .error (.noText v.found key v.origin?)

/-- The settings that a merged tree spells. They may also stand in a list, in their order. -/
def settingsOf (root : Value Scalar) : Except ConfigError Settings :=
  match root.get? "site" with
  | none => .error (.missing "site")
  | some (.table origin entries) => do
    let read (name : String) : Except ConfigError (Option String) :=
      ((Value.table origin entries : Value Scalar).get? name).mapM (textOf ("site." ++ name))
    let need (name : String) (text : Option String) : Except ConfigError String :=
      match text with
      | some s => .ok s
      | none => .error (.missing name)
    let sourceDir ← read "source_dir"
    let outputDir ← read "output_dir"
    let extension ← read "extension"
    let stylesheet ← read "stylesheet"
    .ok ⟨Text.bytes (← need "source_dir" sourceDir), Text.bytes (← need "output_dir" outputDir),
      ← need "extension" extension, ← need "stylesheet" stylesheet⟩
  | some (.list _ items) => do
    let texts ← (items.take 4).zipIdx.mapM fun (v, i) ↦ textOf ("site[" ++ toString i ++ "]") v
    match texts with
    | [sourceDir, outputDir, extension, stylesheet] =>
      .ok ⟨Text.bytes sourceDir, Text.bytes outputDir, extension, stylesheet⟩
    | _ => .error (.tooShort texts.length)
  | some v => .error (.noTable v.found)

def findText? (sys : System) (files : Tree) (path : Path) : Option (String × String) :=
  (findFile? sys files path).bind fun path ↦
    (sys.readText files path).toOption.map (Text.lossy path, ·)

def engine (sys : System) (files : Tree) : Engine Scalar where
  text := Scalar.text
  fold := String.toLower
  key? := Key.ofText
  find := findText? sys files
  read := Toml.read
  put := Value.set
  Error := ConfigError
  Builder := Collected
  sources := Collected.sources
  overrides := Collected.overrides
  empty := ⟨[], []⟩
  addSource s b := { b with sources := b.sources ++ [s] }
  setOverride := Collected.setOverride
  build := Collected.build sys files
  settings := settingsOf

def load (sys : System) (files : Tree) (layers : List (Layer Scalar)) :
    Except ConfigError Settings :=
  (engine sys files).load layers

end Folio.Config
