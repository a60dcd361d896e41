import Formulary.Toml.Scalar

set_option autoImplicit false

/- Tables of TOML and the rules on who may add to them. A table can be written inline, opened by a
header, or only implied: by a longer header or by a dotted key. An inline table is closed for
good. Headers may pass through every other table; dotted keys may only pass through implied ones
and only add to those that dotted keys implied. -/
namespace Formulary.Toml

/-- How a table came about. -/
inductive Origin where
  | inline
  | header
  | impliedByHeader
  | impliedByKey
  deriving DecidableEq, Repr

inductive Node where
  | scalar (value : Scalar)
  | array (items : List Node)
  | table (origin : Origin) (entries : List (String × Node))
  /-- The tables opened by headers in double brackets, the last one first. -/
  | tables (items : List (List (String × Node)))

abbrev Entries := List (String × Node)

/-- A key with its dots: the tables that it passes, and its last part. -/
structure KeyPath where
  parents : List String
  last : String
  deriving DecidableEq, Repr

namespace KeyPath

def toList (path : KeyPath) : List String := path.parents ++ [path.last]

end KeyPath

namespace Entries

/-- Gives a key a node, in place of the one that it has. -/
def set (entries : Entries) (key : String) (node : Node) : Entries :=
  (key, node) :: entries.filter fun entry => entry.1 != key

/-- Adds an entry under a key that is not there yet. -/
def add (entries : Entries) (key : String) (node : Node) : Option Entries :=
  match entries.lookup key with
  | none => some (entries.set key node)
  | some _ => none

/-- Adds an entry by a dotted key. -/
def assign (key : String) (node : Node) : List String → Entries → Option Entries
  | [], entries => entries.add key node
  | step :: rest, entries =>
    match entries.lookup step with
    | none =>
      (assign key node rest []).map fun child => entries.set step (.table .impliedByKey child)
    | some (.table .impliedByKey child) =>
      (assign key node rest child).map fun child => entries.set step (.table .impliedByKey child)
    | some (.table .impliedByHeader child) =>
      if rest = [] then none
      else (assign key node rest child).map fun child =>
        entries.set step (.table .impliedByHeader child)
    | some (.tables (child :: others)) =>
      if rest = [] then none
      else (assign key node rest child).map fun child =>
        entries.set step (.tables (child :: others))
    | _ => none

/-- Changes the table that the keys of a header lead to. Tables on the way that are not there yet
are implied, and in place of several tables the last one is meant. -/
def modify (change : Entries → Option Entries) : List String → Entries → Option Entries
  | [], entries => change entries
  | step :: rest, entries =>
    match entries.lookup step with
    | none => (modify change rest []).map fun child =>
      entries.set step (.table .impliedByHeader child)
    | some (.table .inline _) => none
    | some (.table origin child) =>
      (modify change rest child).map fun child => entries.set step (.table origin child)
    | some (.tables (child :: others)) =>
      (modify change rest child).map fun child => entries.set step (.tables (child :: others))
    | _ => none

/-- Opens a table by its header. It may have been implied by a longer one. -/
def openTable (key : String) (entries : Entries) : Option Entries :=
  match entries.lookup key with
  | none => some (entries.set key (.table .header []))
  | some (.table .impliedByHeader child) => some (entries.set key (.table .header child))
  | _ => none

/-- Opens one more table by a header in double brackets. -/
def openTables (key : String) (entries : Entries) : Option Entries :=
  match entries.lookup key with
  | none => some (entries.set key (.tables [[]]))
  | some (.tables items) => some (entries.set key (.tables ([] :: items)))
  | _ => none

/-- The entries of an inline table. -/
def ofPairs (pairs : List (KeyPath × Node)) : Option Entries :=
  pairs.foldlM (fun entries (path, node) => assign path.last node path.parents entries) []

end Entries

/-- A line of a document that is not empty. -/
inductive Statement where
  | pair (path : KeyPath) (node : Node)
  | table (path : KeyPath)
  | tables (path : KeyPath)

namespace Statement

/-- Carries out a statement on a document whose last header is given. Gives the document and its
last header. -/
def run (document : List String × Entries) : Statement → Option (List String × Entries)
  | pair path node => do
    let root ← Entries.modify (Entries.assign path.last node path.parents) document.1 document.2
    return (document.1, root)
  | table path => do
    let root ← Entries.modify (Entries.openTable path.last) path.parents document.2
    return (path.toList, root)
  | tables path => do
    let root ← Entries.modify (Entries.openTables path.last) path.parents document.2
    return (path.toList, root)

/-- The document that statements make. -/
def runAll (statements : List Statement) : Option Entries :=
  (statements.foldlM run ([], [])).map Prod.snd

end Statement

end Formulary.Toml
