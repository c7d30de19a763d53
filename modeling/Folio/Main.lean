import Folio.Command.Run
import Folio.Files.Local

namespace Folio

open Files Command

def pathOf (p : Place) : String :=
  "/" ++ Text.lossy (Tree.pathFrom [] p)

def look (path : String) : IO (Option Node × List Name) := do
  let entry : IO.FS.DirEntry := ⟨".", path⟩
  try
    let entries ← entry.path.readDir
    let names := entries.toList.filterMap fun e ↦ fileName? (Text.bytes e.fileName)
    return (some .directory, names)
  catch _ =>
    try
      let content ← IO.FS.readBinFile path
      return (some (.file content.toList), [])
    catch _ => return (none, [])

def copy (files : Tree) (p : Place) : IO (Tree × List Name) := do
  let (node, names) ← look (pathOf p)
  return (node.elim files (files.put p), names)

def copyAlong (files : Tree) (here : Place) : List Step → IO Tree
  | [] => do
    let (_, names) ← look (pathOf here)
    names.foldlM (fun files n ↦ do return (← copy files (here ++ [n])).1) files
  | .root :: rest => copyAlong files [] rest
  | .here :: rest => copyAlong files here rest
  | .above :: rest => copyAlong files here.dropLast rest
  | .name n :: rest => do
    let (files, _) ← copy files (here ++ [n])
    copyAlong files (here ++ [n]) rest

def copyPaths (home : Place) (files : Tree) (paths : List Path) : IO Tree :=
  paths.foldlM (fun files path ↦ copyAlong files home (parts path)) files

/-- Writes the changes between two trees to disk, directories before what is in them. -/
def putBack (before after : Tree) : IO Unit :=
  (Tree.changes [] before after).forM fun (path, content) ↦ do
    let shown := "/" ++ Text.lossy path
    if path.getLast? = some slash then IO.FS.createDirAll shown
    else IO.FS.writeBinFile shown ⟨content.toArray⟩

def workingPlace : IO Place := do
  let here ← IO.currentDir
  return (steps (Text.bytes here.toString)).filterMap fun
    | .name n => some n
    | _ => none

end Folio

open Folio Folio.Command Folio.Files in
def main (args : List String) : IO UInt32 := do
  let home ← workingPlace
  let sys := System.local home
  let bare := Tree.ofPlace home
  let (before, outcome) ← match readRequest args with
    | none => pure (bare, misused bare)
    | some request =>
      let files ← copyPaths home bare request.paths
      let files ← copyPaths home files (request.directories sys files)
      pure (files, run sys files request)
  putBack before outcome.files
  IO.print outcome.output
  IO.eprint outcome.errors
  return outcome.code.toUInt32
