import Folio.Files.System
import Folio.Site.Build

namespace Folio.Site

open Files Text

/-- What a name in a directory adds to its documents: a file with the extension, under its stem. A
stem that is no text is passed over. -/
def sourceOf (sys : System) (files : Tree) (directory : Path) (extension : String) (n : Name) :
    Except SiteError (Option Source) :=
  let path := join directory n.bytes
  if !sys.isFile files path || (extension? n).bind ofBytes? ≠ some extension then .ok none
  else
    match ofBytes? (stem n) with
    | none => .ok none
    | some name =>
      match sys.readText files path with
      | .error e => .error (.io path e.message)
      | .ok text => .ok (some ⟨name, text⟩)

def visit (sys : System) (files : Tree) (directory : Path) (extension : String) (n : Name) :
    Except SiteError (Option Source) :=
  match sys.next files directory n with
  | .error e => .error (.io directory e.message)
  | .ok n => sourceOf sys files directory extension n

def collect (sys : System) (files : Tree) (directory : Path) (extension : String) :
    Except SiteError (List Source) :=
  match sys.list files directory with
  | .error e => .error (.io directory e.message)
  | .ok names => do
    let found ← names.mapM (visit sys files directory extension)
    .ok (found.reduceOption.mergeSort fun a b ↦ a.name ≤ b.name)

end Folio.Site
