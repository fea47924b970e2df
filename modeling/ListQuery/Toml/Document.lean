/-
Documents of TOML: what the lines say, put together into one table.

A line sets the value of a key, in the table of the last header, or is a header.  A table that a header
opens is kept apart while lines add to it, and takes its place when the next header or the end comes;
a table that had been implied is taken up again and then stands last.

* `descend` — follows a path of keys, making the tables on it that are missing, and changes the table
  at its end;
* `Document.ofLines` — the entries of a document.

Design notes: a key with dots may pass through tables that keys with dots or longer headers have made,
but not through one that has its own header; and it may add only to a table that keys with dots have
made.  A header may not open what is there already, implied tables apart.
-/
import ListQuery.Toml.Basic

namespace ListQuery.Toml

/-- What a line of a document says. -/
inductive Line where
  /-- A key, the keys before its dots first, has a value. -/
  | pair (path : List String) (key : String) (value : Toml)
  /-- The lines that follow are about one table. -/
  | header (path : List String) (key : String)
  /-- The lines that follow are about a new table among others. -/
  | item (path : List String) (key : String)

/-- Follows a path from a table and lets `change` make new entries of the table at its end, given its
form; tables that are missing are made, and `dotted` says whether by a key with dots. -/
def descend {α : Type} (dotted : Bool) (change : TableForm → Entries → Option (α × Entries)) :
    List String → TableForm → Entries → Option (α × Entries)
  | [], form, entries => change form entries
  | key :: path, _, entries =>
    match List.lookup key entries with
    | none => do
      let form := if dotted then .dotted else .implied
      let (a, inner) ← descend dotted change path form []
      return (a, entries ++ [(key, .table form inner)])
    | some (.table form inner) =>
      if form = .inline ∨ (dotted ∧ form = .header) then none
      else do
        let (a, inner) ← descend dotted change path form inner
        return (a, replaceEntry key (.table form inner) entries)
    | some (.tables before last) => do
      let (a, last) ← descend dotted change path .header last
      return (a, replaceEntry key (.tables before last) entries)
    | some _ => none

/-- Sets a key in the table that its dots lead to. -/
def setKey? (path : List String) (key : String) (value : Toml) (entries : Entries) :
    Option Entries := do
  let add (form : TableForm) (inner : Entries) : Option (Unit × Entries) :=
    if form ≠ .dotted ∧ path ≠ [] then none else (addNew? key value inner).map ((), ·)
  let (_, entries) ← descend true add path .header entries
  return entries

/-- The entries of a table written out in braces. -/
def inlineEntries? (pairs : List (List String × String × Toml)) : Option Entries :=
  pairs.foldlM (fun entries (path, key, value) => setKey? path key value entries) []

/-- The table that lines are about. -/
structure Section where
  path : List String
  key : String
  /-- Whether it is one among others. -/
  isItem : Bool

/-- A document that is being put together. -/
structure Document where
  /-- The entries that have their place. -/
  entries : Entries
  /-- The table of the last header; none before the first header. -/
  current : Option Section
  /-- The entries of that table. -/
  inner : Entries

namespace Document

/-- The document before its first line. -/
def empty : Document :=
  ⟨[], none, []⟩

/-- Puts a table among others at a key. -/
def addItem (key : String) (table entries : Entries) : Option Entries :=
  match List.lookup key entries with
  | none => some (entries ++ [(key, .tables [] table)])
  | some (.tables before last) => some (replaceEntry key (.tables (before ++ [last]) table) entries)
  | some _ => none

/-- The entries of the document with the current table in its place. -/
def close (d : Document) : Option Entries :=
  match d.current with
  | none => some d.inner
  | some s => do
    let place (_ : TableForm) (inner : Entries) : Option (Unit × Entries) :=
      (if s.isItem then addItem s.key d.inner inner
        else addNew? s.key (.table .header d.inner) inner).map ((), ·)
    let (_, entries) ← descend false place s.path .header d.entries
    return entries

/-- The entries that a header finds at its key, the key being taken out: those of an implied table, or
none. -/
def takeUp (key : String) (_ : TableForm) (entries : Entries) : Option (Entries × Entries) :=
  match List.lookup key entries with
  | none => some ([], entries)
  | some (.table .implied inner) => some (inner, removeEntry key entries)
  | some _ => none

/-- Whether a key is free or holds tables that share a header; the entries stay as they are. -/
def admitsItem (key : String) (_ : TableForm) (entries : Entries) : Option (Entries × Entries) :=
  match List.lookup key entries with
  | none | some (.tables ..) => some ([], entries)
  | some _ => none

/-- The document with one more line. -/
def addLine (d : Document) : Line → Option Document
  | .pair path key value => do
    return { d with inner := ← setKey? path key value d.inner }
  | .header path key => do
    let (inner, entries) ← descend false (takeUp key) path .header (← d.close)
    return ⟨entries, some ⟨path, key, false⟩, inner⟩
  | .item path key => do
    let (inner, entries) ← descend false (admitsItem key) path .header (← d.close)
    return ⟨entries, some ⟨path, key, true⟩, inner⟩

/-- The entries of the document that some lines make. -/
def ofLines (lines : List Line) : Option Entries := do
  (← lines.foldlM addLine empty).close

end Document

end ListQuery.Toml
