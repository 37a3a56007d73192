import ContractHost.Settings.Toml

/-!
# Settings of the log

The form of log lines and which of them are kept. Only the settings are here; nothing is logged.
-/

namespace ContractHost

inductive LoggingFormat
  | text
  | json
deriving DecidableEq

namespace LoggingFormat

def name : LoggingFormat → String
  | text => "text"
  | json => "json"

def ofName? (name : String) : Option LoggingFormat :=
  [text, json].find? fun f => f.name == name

/-- The format that a setting gives by its name, as text or as a choice. -/
def ofValue? : Toml.Value → Option LoggingFormat
  | .text name | .choice name => ofName? name
  | _ => none

end LoggingFormat

structure LoggingConfig where
  format : LoggingFormat
  abbreviateModules : Bool
  color : Bool
  filter : String
deriving DecidableEq

namespace LoggingConfig

def default : LoggingConfig := ⟨.text, false, true, "info"⟩

instance : Inhabited LoggingConfig := ⟨default⟩

/-- Colored output and the default filter. -/
def new (format : LoggingFormat) (abbreviateModules : Bool) : LoggingConfig :=
  { default with format := format, abbreviateModules := abbreviateModules }

/-- Takes over one pair of a document, if it is a setting of the log. -/
def adopt (c : LoggingConfig) : String × Toml.Value → Option LoggingConfig
  | ("format", v) => (LoggingFormat.ofValue? v).map fun f => { c with format := f }
  | ("abbreviate_modules", .boolean b) => some { c with abbreviateModules := b }
  | ("color", .boolean b) => some { c with color := b }
  | ("filter", .text directives) => some { c with filter := directives }
  | _ => none

def ofToml? (text : String) : Option LoggingConfig := do
  let document ← Toml.parse? text
  document.foldlM adopt default

end LoggingConfig

end ContractHost
