/-
Registries read from TOML.

A document has a table `resource` of settings and a table `fields` of tables, one a field.  A setting
that is not known, is missing where it has no usual value, or has a value of another type refuses the
document as a whole; the settings are checked afterwards as those of any registry.

* `Registry.Outline` — what a document says, before operators are known and limits are checked;
* `Registry.ofToml` — the registry of a text;
* `Registry.ofFile` — the same for the contents of a file, if it could be read.

Design notes: settings may also be listed by place, in an array.  There a setting without a usual value
cannot be left out, and what follows the last setting does not count.
-/
import ListQuery.Registry
import ListQuery.Toml.Reader

namespace ListQuery

namespace Toml

/-- The text of a string. -/
def text? : Toml → Option String
  | .string s => some s
  | _ => none

/-- The truth value. -/
def flag? : Toml → Option Bool
  | .boolean b => some b
  | _ => none

/-- The integer, if it is not negative. -/
def count? : Toml → Option Nat
  | .integer n => if 0 ≤ n then some n.toNat else none
  | _ => none

/-- The entries of a table in any form. -/
def entries? : Toml → Option Entries
  | .table _ entries => some entries
  | _ => none

/-- The items of an array; tables that share a header are one too. -/
def items? : Toml → Option (List Toml)
  | .array items => some items
  | .tables before last => some ((before ++ [last]).map (.table .header))
  | _ => none

/-- Whether a value holds nothing. -/
def isEmpty : Toml → Bool
  | .array [] | .table _ [] => true
  | _ => false

/-- The name that a value is a choice of: a string, or a table whose one key holds nothing. -/
def choice? : Toml → Option String
  | .string s => some s
  | .table _ [(key, v)] => if v.isEmpty then some key else none
  | _ => none

/-- The texts of an array of strings. -/
def texts? (v : Toml) : Option (List String) :=
  v.items?.bind (·.mapM text?)

end Toml

/-- Settings by name. -/
structure Settings where
  values : Toml.Entries
  /-- Whether the settings were listed by place. -/
  byPlace : Bool

namespace Settings

/-- The settings that a value holds: a table of known keys, or an array. -/
def ofToml? (names : List String) (v : Toml) : Option Settings :=
  match v.entries? with
  | some entries =>
    if entries.all fun (key, _) => names.contains key then some ⟨entries, false⟩ else none
  | none => v.items?.map fun items => ⟨names.zip items, true⟩

/-- The value of a setting that has to be there. -/
def need? {α : Type} (s : Settings) (name : String) (read : Toml → Option α) : Option α :=
  (List.lookup name s.values).bind read

/-- The value of a setting, or its usual value. -/
def usual? {α : Type} (s : Settings) (name : String) (read : Toml → Option α) (usual : α) :
    Option α :=
  match List.lookup name s.values with
  | some v => read v
  | none => some usual

/-- The value of a setting that may be left out, unless settings are listed by place. -/
def option? {α : Type} (s : Settings) (name : String) (read : Toml → Option α) :
    Option (Option α) :=
  match List.lookup name s.values with
  | some v => (read v).map some
  | none => if s.byPlace then none else some none

end Settings

/-- A field as a document describes it. -/
structure Field.Outline where
  name : String
  type : FieldType
  column : Option String
  filterable : Bool
  sortable : Bool
  textSearch : Bool
  /-- The tags of the operators, if they are listed. -/
  operators : Option (List String)

/-- A registry as a document describes it. -/
structure Registry.Outline where
  name : String
  table : Option String
  primaryKey : Option String
  maxItems : Nat
  defaultItems : Nat
  defaultOrderBy : Option String
  defaultDirection : Direction
  fields : List Field.Outline

/-- The field of a name that a value describes. -/
def Field.Outline.ofToml? (name : String) (v : Toml) : Option Field.Outline := do
  let s ← Settings.ofToml?
    ["type", "column", "filterable", "sortable", "text_search", "operators"] v
  let type ← s.need? "type" fun v => v.choice?.bind FieldType.ofName?
  let column ← s.option? "column" Toml.text?
  let filterable ← s.usual? "filterable" Toml.flag? true
  let sortable ← s.usual? "sortable" Toml.flag? false
  let textSearch ← s.usual? "text_search" Toml.flag? false
  let operators ← s.option? "operators" Toml.texts?
  return ⟨name, type, column, filterable, sortable, textSearch, operators⟩

namespace Registry.Outline

/-- The registry that the entries of a document describe. -/
def ofEntries? (entries : Toml.Entries) : Option Registry.Outline := do
  let document ← Settings.ofToml? ["resource", "fields"] (.table .header entries)
  let s ← document.need? "resource" (Settings.ofToml?
    ["name", "table", "primary_key", "max_items", "default_items", "default_order_by",
     "default_direction"])
  let name ← s.need? "name" Toml.text?
  let table ← s.option? "table" Toml.text?
  let primaryKey ← s.option? "primary_key" Toml.text?
  let maxItems ← s.usual? "max_items" Toml.count? Registry.usualMaxItems
  let defaultItems ← s.usual? "default_items" Toml.count? Registry.usualItems
  let orderBy ← s.option? "default_order_by" Toml.text?
  let direction ← s.usual? "default_direction" (fun v => v.choice?.bind Direction.ofName?) .asc
  let fields ← document.usual? "fields" Toml.entries? []
  let fields ← fields.mapM fun (name, v) => Field.Outline.ofToml? name v
  return ⟨name, table, primaryKey, maxItems, defaultItems, orderBy, direction, fields⟩

/-- The operator of a tag of a field. -/
def readOperator (resource field tag : String) : Except QueryError Operator :=
  match Operator.ofTag? tag with
  | some op => .ok op
  | none => .error (.config (.unknownOperator resource field tag))

/-- The field that a description asks for. -/
def readField (resource : String) (c : Field.Outline) : Except QueryError Field := do
  let operators ←
    match c.operators with
    | some tags => tags.mapM (readOperator resource c.name)
    | none => pure c.type.operators
  return ⟨c.name, c.column.getD c.name, c.type, operators, c.filterable, c.sortable, c.textSearch⟩

/-- The settings that a description asks for. -/
def draft (c : Registry.Outline) : Except QueryError Registry.Draft := do
  let fields ← c.fields.mapM (readField c.name)
  return ⟨c.name, c.table, c.primaryKey, fields.foldl (fun fs f => Fields.insert f fs) [],
    c.maxItems, c.defaultItems, c.defaultOrderBy, c.defaultDirection⟩

end Registry.Outline

namespace Registry

/-- The registry of a TOML text. -/
def ofToml (text : String) : Except QueryError Registry :=
  match (Toml.read? text).bind Outline.ofEntries? with
  | some c => do (← c.draft).build
  | none => .error .toml

/-- The registry of a file, given its path and its contents, if it could be read. -/
def ofFile (path : String) (contents : Option String) : Except QueryError Registry :=
  match contents with
  | some text => ofToml text
  | none => .error (.file path)

end Registry

end ListQuery
