import LateBinding.Document.Basic
import LateBinding.Table

/-!
# LateBinding.Toml.Section

The tables of a TOML document while it is being read.  Keys and headers name
tables by their paths, and a table may be named again only in certain ways; what
is allowed depends on how the table came into being.

* A header names a table that does not exist yet, or that exists only because a
  longer header passed through it.
* A header in double brackets adds a table to a list of such tables.
* A dotted key passes only through tables that are not defined by a header, and
  ends in one that dotted keys made.
-/

namespace LateBinding.Toml

/-- How a table came into being: by a header of its own, by a longer header that
passed through it, or by a dotted key. -/
inductive Origin where
  | defined
  | implied
  | dotted
  deriving DecidableEq, Repr

/-- What a key stands for: a value, a table, or a list of tables made by headers
in double brackets. -/
inductive Node where
  | value (d : Document)
  | table (origin : Origin) (entries : List (String × Node))
  | tables (items : List (List (String × Node)))

/-- The entries of one table. -/
abbrev Entries := List (String × Node)

/-- Change the last element of a list. -/
def changeLast {α : Type} (f : α → Option α) : List α → Option (List α)
  | [] => none
  | [a] => (f a).map ([·])
  | a :: rest => (changeLast f rest).map (a :: ·)

/-- Change the table at the end of a path, making the tables on the way that do
not exist.  A list of tables stands for its last table. -/
def changeAt (byKey : Bool) (f : Origin → Entries → Option Entries) :
    (path : List String) → Origin → Entries → Option Entries
  | [], origin, entries => f origin entries
  | k :: path, _, entries =>
    match entries.lookup k with
    | none =>
      let origin := if byKey then Origin.dotted else Origin.implied
      (changeAt byKey f path origin []).map fun below => entries ++ [(k, .table origin below)]
    | some (.value _) => none
    | some (.table origin below) =>
      if byKey && origin == .defined then none
      else
        (changeAt byKey f path origin below).map fun below =>
          Table.put k (.table origin below) entries
    | some (.tables items) =>
      (changeLast (changeAt byKey f path .defined) items).map fun items =>
        Table.put k (.tables items) entries

/-- Enter a value under a key; the key must be new. -/
def enter (k : String) (v : Document) (entries : Entries) : Option Entries :=
  if (entries.lookup k).isSome then none else some (entries ++ [(k, .value v)])

/-- Enter a value under a dotted key, whose parts before the last lead to a table
made by dotted keys. -/
def assign (path : List String) (v : Document) : Origin → Entries → Option Entries :=
  match path.getLast? with
  | none => fun _ _ => none
  | some k =>
    changeAt true
      (fun origin entries =>
        if (origin == .dotted) == path.dropLast.isEmpty then none else enter k v entries)
      path.dropLast

/-- Open the table that a header names. -/
def openTable (path : List String) (root : Entries) : Option Entries :=
  match path.getLast? with
  | none => none
  | some k =>
    changeAt false
      (fun _ entries =>
        match entries.lookup k with
        | none => some (entries ++ [(k, .table .defined [])])
        | some (.table .implied below) => some (Table.put k (.table .defined below) entries)
        | some _ => none)
      path.dropLast .defined root

/-- Open a further table in the list that a header in double brackets names. -/
def openItem (path : List String) (root : Entries) : Option Entries :=
  match path.getLast? with
  | none => none
  | some k =>
    changeAt false
      (fun _ entries =>
        match entries.lookup k with
        | none => some (entries ++ [(k, .tables [[]])])
        | some (.tables items) => some (Table.put k (.tables (items ++ [[]])) entries)
        | some _ => none)
      path.dropLast .defined root

/-! ## finished tables -/

mutual

/-- A finished node as a document. -/
def Node.document : Node → Document
  | .value d => d
  | .table _ entries => .table (finishEntries entries)
  | .tables items => .array (finishItems items)

/-- Finished entries. -/
def finishEntries : List (String × Node) → List (String × Document)
  | [] => []
  | (k, n) :: rest => (k, n.document) :: finishEntries rest

/-- Finished tables of a list. -/
def finishItems : List (List (String × Node)) → List Document
  | [] => []
  | entries :: rest => .table (finishEntries entries) :: finishItems rest

end

end LateBinding.Toml
