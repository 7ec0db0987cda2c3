import GraphPlan.Settings
import GraphPlan.Toml.Document

namespace GraphPlan.Settings

/-- One line for each setting; no line for an override that is not there. -/
def toToml (s : Settings) : String :=
  Toml.line "backend" s.backend.name ++
    (match s.combinator with
      | some name => Toml.line "recursion_combinator" name
      | none => "") ++
    Toml.line "depth_column" s.depthColumn ++
    Toml.line "path_column" s.pathColumn ++
    Toml.line "path_delimiter" s.pathDelimiter ++
    Toml.line "cast_type" s.castType ++
    Toml.line "cte_prefix" s.cteStem

/-- Set one setting by its key. -/
def set? (s : Settings) (key value : String) : Option Settings :=
  if key = "backend" then (Backend.ofName? value).map fun backend => { s with backend := backend }
  else if key = "recursion_combinator" then some { s with combinator := some value }
  else if key = "depth_column" then some { s with depthColumn := value }
  else if key = "path_column" then some { s with pathColumn := value }
  else if key = "path_delimiter" then some { s with pathDelimiter := value }
  else if key = "cast_type" then some { s with castType := value }
  else if key = "cte_prefix" then some { s with cteStem := value }
  else none

/-- The settings of a document, with defaults for those it does not give, before they are checked. -/
def parse? (document : String) : Option Settings := do
  (← Toml.pairs? document).foldlM (fun s pair => s.set? pair.1 pair.2) standard

def ofToml (document : String) : Except Error Settings :=
  match parse? document with
  | none => .error Fault.unparsed.error
  | some s => s.check.map fun _ => s

/-- The settings in a file, given its bytes if it is there. -/
def ofFile (bytes : Option ByteArray) : Except Error Settings :=
  match bytes.bind String.fromUTF8? with
  | none => .error Fault.unreadable.error
  | some document => ofToml document

end GraphPlan.Settings
