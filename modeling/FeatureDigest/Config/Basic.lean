import FeatureDigest.Json.Value

/-!
# Configurations

A configuration says where feature files are looked for, which files count, which
paths are left out, and how the report is written.
-/

set_option autoImplicit false

namespace FeatureDigest

/-- How a report is written. -/
inductive Format
  | text
  | json
  deriving DecidableEq, Repr, Inhabited

namespace Format

/-- The name of a format. -/
def name : Format → String
  | .text => "text"
  | .json => "json"

/-- The format of a name. -/
def ofName? (name : String) : Option Format :=
  if name = "text" then some .text
  else if name = "json" then some .json
  else none

@[simp] theorem ofName?_name (format : Format) : ofName? format.name = some format := by
  cases format <;> decide

end Format

/-- What a scan is asked to do. -/
structure Config where
  /-- Where to look for feature files. -/
  root : String
  /-- The extensions of feature files, with or without leading dots. -/
  extensions : List String
  /-- Glob patterns and paths to leave out. -/
  ignores : List String
  format : Format
  deriving DecidableEq, Repr

namespace Config

/-- The configuration of a scan that nothing was said about. -/
def standard : Config := ⟨"./", ["feature"], [], .text⟩

instance : Inhabited Config := ⟨standard⟩

/-- The name of the file that configurations are kept in. -/
def fileName : String := ".gherkinrc.json"

/-- The fields of a configuration. -/
inductive Field
  | root
  | extensions
  | ignores
  | format
  deriving DecidableEq, Repr

namespace Field

/-- The fields in the order in which they are written. -/
def all : List Field := [.root, .extensions, .ignores, .format]

/-- The key of a field. -/
def name : Field → String
  | .root => "root"
  | .extensions => "extensions"
  | .ignores => "ignores"
  | .format => "format"

/-- The field of a key. -/
def ofName? (name : String) : Option Field := all.find? fun field => field.name == name

@[simp] theorem ofName?_name (field : Field) : ofName? field.name = some field := by
  cases field <;> decide

end Field

/-- The configuration as a JSON value. -/
def toValue (config : Config) : Json.Value :=
  .object
    [(Field.root.name, .text config.root),
     (Field.extensions.name, .texts config.extensions),
     (Field.ignores.name, .texts config.ignores),
     (Field.format.name, .text config.format.name)]

/-- The text of a configuration file. -/
def render (config : Config) : String := config.toValue.render

/-- The text of a new configuration file. -/
def standardText : String := standard.render

end Config

end FeatureDigest
