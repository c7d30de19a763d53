namespace Folio.Command

structure BuildOptions where
  config : Option String
  source : Option String
  output : Option String
deriving DecidableEq, Repr

inductive Request
  | help
  | version
  | formats
  | process (path format : String)
  | build (options : BuildOptions)
deriving DecidableEq, Repr

inductive BuildOption
  | config | source | output
deriving DecidableEq, Repr

namespace BuildOption

def ofLong? : List Char → Option BuildOption
  | ['c', 'o', 'n', 'f', 'i', 'g'] => some config
  | ['s', 'o', 'u', 'r', 'c', 'e'] => some source
  | ['o', 'u', 't', 'p', 'u', 't'] => some output
  | _ => none

def ofShort? : Char → Option BuildOption
  | 'c' => some config
  | 's' => some source
  | 'o' => some output
  | _ => none

end BuildOption

/-- Sets an option, which may be done once only. -/
def BuildOptions.set? (o : BuildOptions) (value : String) : BuildOption → Option BuildOptions
  | .config => if o.config.isSome then none else some { o with config := value }
  | .source => if o.source.isSome then none else some { o with source := value }
  | .output => if o.output.isSome then none else some { o with output := value }

/-- An argument that begins with a dash is an option; a single dash is a value. -/
def isOption (arg : String) : Bool :=
  arg.toList.head? = some '-' && arg != "-"

/-- Letters after the short form of an option that has no value do not count. -/
def isHelp (arg : String) : Bool :=
  arg == "--help" || ['-', 'h'].isPrefixOf arg.toList

def attached? (arg : String) : Option (BuildOption × Option String) :=
  match arg.toList with
  | '-' :: '-' :: cs =>
    (BuildOption.ofLong? (cs.takeWhile (· ≠ '='))).map fun o ↦
      (o, match cs.dropWhile (· ≠ '=') with
        | '=' :: v => some (String.ofList v)
        | _ => none)
  | '-' :: c :: cs =>
    (BuildOption.ofShort? c).map fun o ↦
      (o, match cs with
        | [] => none
        | '=' :: v => some (String.ofList v)
        | v => some (String.ofList v))
  | _ => none

/-- Arguments of `build`. A value that is not attached is the next argument, which must be no
option. -/
def readBuild (o : BuildOptions) : List String → Option Request
  | [] => some (.build o)
  | arg :: args =>
    if isHelp arg then some .help
    else if arg = "--" then if args.isEmpty then some (.build o) else none
    else match attached? arg, args with
      | some (option, some value), args => do readBuild (← o.set? value option) args
      | some (option, none), value :: args =>
        if isOption value then none else do readBuild (← o.set? value option) args
      | _, _ => none

def readProcess (values : List String) : List String → Option Request
  | [] =>
    match values with
    | [path, format] => some (.process path format)
    | _ => none
  | arg :: args =>
    if 2 < values.length then none
    else if isHelp arg then some .help
    else if arg = "--" then
      match values ++ args with
      | [path, format] => some (.process path format)
      | _ => none
    else if isOption arg then none
    else readProcess (values ++ [arg]) args

def readFormats : List String → Option Request
  | [] | ["--"] => some .formats
  | arg :: _ => if isHelp arg then some .help else none

def readHelp : List String → Option Request
  | [] => some .help
  | [arg] => if ["formats", "process", "build", "help"].contains arg then some .help else none
  | _ => none

def readRequest : List String → Option Request
  | [] => none
  | arg :: args =>
    if arg = "--version" ∨ ['-', 'V'].isPrefixOf arg.toList then some .version
    else if isHelp arg then some .help
    else if arg = "help" then readHelp args
    else if arg = "formats" then readFormats args
    else if arg = "process" then readProcess [] args
    else if arg = "build" then readBuild ⟨none, none, none⟩ args
    else none

end Folio.Command
