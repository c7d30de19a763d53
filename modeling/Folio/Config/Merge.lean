import Folio.Config.Value

namespace Folio.Config.Value

variable {S : Type}

/-- Replaces or adds an entry; what is no table becomes one. -/
def withEntry (key : String) (v : Value S) : Value S → Value S
  | table origin entries =>
    if entries.any (·.1 == key) then
      table origin (entries.map fun e ↦ if e.1 == key then (key, v) else e)
    else table origin (entries ++ [(key, v)])
  | _ => table none [(key, v)]

mutual

/-- Puts a value under a key. The entries of a table are merged into what is there, one by one;
any other value replaces it. -/
def merge (key : String) (target : Value S) : Value S → Value S
  | table _ entries =>
    withEntry key.toLower
      (mergeEntries ((target.get? key.toLower).getD emptyTable) entries) target
  | v => withEntry key.toLower v target

def mergeEntries (target : Value S) : List (String × Value S) → Value S
  | [] => target
  | (key, v) :: entries => mergeEntries (merge key target v) entries

end

/-- The items of a list, lengthened so that there is an item at `i`; what is no list becomes
one. -/
def listUpTo (i : Nat) : Value S → Option String × List (Value S)
  | list origin items => (origin, items ++ List.replicate (i + 1 - items.length) nothing)
  | _ => (none, List.replicate (i + 1) nothing)

/-- The index of a place; a negative one counts from the end. -/
def indexOf (i : Int) : Value S → Nat
  | list _ items => if i < 0 then (items.length + i).toNat else i.toNat
  | _ => i.toNat

def putAt (i : Int) (f : Value S → Value S) (target : Value S) : Value S :=
  let n := target.indexOf i
  let (origin, items) := target.listUpTo n
  list origin (items.modify n f)

def setSteps (v : Value S) (target : Value S) : String → List Step → Value S
  | name, [] => merge name target v
  | name, .name next :: steps =>
    let inner := (target.get? name.toLower).getD nothing
    withEntry name.toLower (setSteps v inner next steps) target
  | name, .place i :: steps =>
    let inner := (target.get? name.toLower).getD nothing
    withEntry name.toLower (setPlace v i inner steps) target
where
  setPlace (v : Value S) (i : Int) (target : Value S) : List Step → Value S
    | [] => target.putAt i fun _ ↦ v
    | .name next :: steps => target.putAt i fun inner ↦ setSteps v inner next steps
    | .place j :: steps => target.putAt i fun inner ↦ setPlace v j inner steps

def set (key : Key) (v target : Value S) : Value S :=
  setSteps v target key.first key.steps

end Folio.Config.Value
