/-
Names in SQL text.

A name stands bare if it is made of letters, digits and underscores of ASCII, starts with no digit,
and is no reserved word; otherwise it stands in double quotes, a quote inside being written twice.

* `literalPattern` — a text as a pattern that matches it alone.
-/
namespace ListQuery.Sql

/-- The words that no bare name may be, in lower case. -/
def reservedWords : List String :=
  ["user", "order", "group", "select", "from", "where", "table", "index", "key", "primary",
   "foreign", "check", "default", "null", "not", "and", "or", "in", "is", "like", "between",
   "case", "when", "then", "else", "end", "as", "on", "join", "left", "right", "inner",
   "outer", "cross", "natural", "using", "limit", "offset", "union", "intersect", "except",
   "all", "distinct", "having", "create", "alter", "drop", "insert", "update", "delete",
   "into", "values", "set", "returning"]

/-- Whether a character may stand in a bare name. -/
def isNameChar (c : Char) : Bool :=
  c.isAlphanum || c == '_'

/-- Whether a name has to stand in quotes.  A reserved word is one in any case of its letters; case is
that of ASCII, since a name with other letters is quoted anyway. -/
def needsQuotes (name : String) : Bool :=
  let cs := name.toList
  cs.isEmpty || reservedWords.contains (String.ofList (cs.map Char.toLower))
    || !cs.all isNameChar || cs.head?.any Char.isDigit

/-- A name in double quotes. -/
def quoteAlways (name : String) : String :=
  String.ofList ('"' :: name.toList.flatMap (fun c => if c = '"' then ['"', '"'] else [c]) ++ ['"'])

/-- A name, in quotes if it has to be. -/
def quote (name : String) : String :=
  if needsQuotes name then quoteAlways name else name

/-- A column with its table. -/
def qualified (table column : String) : String :=
  quote table ++ "." ++ quote column

/-- Whether a character has a meaning of its own in patterns. -/
def isPatternChar (c : Char) : Bool :=
  c == '%' || c == '_' || c == '\\'

/-- A text as a pattern that matches it alone: a backslash in front of each character with a meaning
of its own. -/
def literalPattern (text : String) : String :=
  String.ofList (text.toList.flatMap fun c => if isPatternChar c then ['\\', c] else [c])

end ListQuery.Sql
