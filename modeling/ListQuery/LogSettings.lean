/-
Settings of the log, as texts set them.

Three texts may be set: whether to debug, the level, and the format.  Case of letters does not matter,
and a text that names nothing known counts as not set.  All names are ASCII, so is the case.
-/
namespace ListQuery

/-- The least weight of what is logged. -/
inductive LogLevel where
  | trace
  | debug
  | info
  | warn
  | error
deriving DecidableEq

/-- How log entries are written. -/
inductive LogFormat where
  | pretty
  | compact
  | json
deriving DecidableEq

/-- The name of a level. -/
def LogLevel.name : LogLevel → String
  | .trace => "trace"
  | .debug => "debug"
  | .info => "info"
  | .warn => "warn"
  | .error => "error"

/-- The name of a format. -/
def LogFormat.name : LogFormat → String
  | .pretty => "pretty"
  | .compact => "compact"
  | .json => "json"

/-- The settings of the log. -/
structure LogSettings where
  debug : Bool
  level : LogLevel
  format : LogFormat
deriving DecidableEq

namespace LogSettings

/-- A text in lower case. -/
def lower (s : String) : String :=
  String.ofList (s.toList.map Char.toLower)

/-- Whether a text asks for debugging. -/
def isYes (s : String) : Bool :=
  ["true", "1", "yes"].contains (lower s)

/-- The level of a name. -/
def level? (s : String) : Option LogLevel :=
  [LogLevel.trace, .debug, .info, .warn, .error].find? (·.name == lower s)

/-- The format of a name. -/
def format? (s : String) : Option LogFormat :=
  [LogFormat.pretty, .compact, .json].find? (·.name == lower s)

/-- The settings of the three texts.  Debugging lowers the level where none is named. -/
def ofTexts (debug level format : Option String) : LogSettings :=
  let debugging := debug.any isYes
  ⟨debugging, (level.bind level?).getD (if debugging then .debug else .warn),
   (format.bind format?).getD .json⟩

end LogSettings

end ListQuery
