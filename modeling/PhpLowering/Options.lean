import PhpLowering.Json.Basic

/-!
# Settings of a compilation

The settings can be written down as a JSON object, where every field may be missing and
unknown fields are passed over, or as a JSON array that gives the fields by position.  A
field that is given has to be of the right type, and it may be given only once.
-/

namespace PhpLowering

/-- The settings of a compilation. -/
structure Options where
  /-- The source path that diagnostics and emitted code name. -/
  filePath : Option String := none
  /-- Tell the sink which statement the instructions come from. -/
  sequencePoints : Bool := true
  /-- Emit a `try` without handlers as a plain block. -/
  elideEmptyTry : Bool := true
  /-- Compute constant expressions and choose constant branches ahead of time. -/
  foldConstants : Bool := true
  /-- Warn about dead code. -/
  reportUnreachable : Bool := true
  deriving DecidableEq, Repr, Inhabited

namespace Options

/-- The field names, in the order in which an array gives them. -/
def fieldNames : List String :=
  ["file_path", "sequence_points", "elide_empty_try", "fold_constants", "report_unreachable"]

/-- A truth value. -/
def flag? : Json → Option Bool
  | .bool b => some b
  | _ => none

/-- A text, or none for null. -/
def path? : Json → Option (Option String)
  | .null => some none
  | .string (some text) => some (some text)
  | _ => none

/-- The settings with one field given by its name; a name that is no field changes nothing. -/
def set? (o : Options) (name : String) (value : Json) : Option Options :=
  if name = "file_path" then (path? value).map fun filePath => { o with filePath }
  else if name = "sequence_points" then (flag? value).map fun sequencePoints => { o with sequencePoints }
  else if name = "elide_empty_try" then (flag? value).map fun elideEmptyTry => { o with elideEmptyTry }
  else if name = "fold_constants" then (flag? value).map fun foldConstants => { o with foldConstants }
  else if name = "report_unreachable" then
    (flag? value).map fun reportUnreachable => { o with reportUnreachable }
  else some o

/-- The settings with the fields of an object; `seen` are the field names met before. -/
def setFields? (o : Options) (seen : List String) : List (Option String × Json) → Option Options
  | [] => some o
  | (none, _) :: _ => none
  | (some name, value) :: rest =>
    if seen.contains name then none
    else
      match o.set? name value with
      | none => none
      | some o => o.setFields? (if fieldNames.contains name then name :: seen else seen) rest

/-- The settings that a JSON value gives. -/
def ofJson? : Json → Option Options
  | .object fields => setFields? {} [] fields
  | .array items =>
    if items.length ≤ fieldNames.length then
      setFields? {} [] ((fieldNames.map some).zip items)
    else none
  | _ => none

/-- The settings that a text gives. -/
def parse? (text : String) : Option Options :=
  (Json.parse? text).bind ofJson?

/-- The settings with a source path. -/
def withFilePath (o : Options) (path : String) : Options :=
  { o with filePath := some path }

/-- The settings with sequence points on or off. -/
def withSequencePoints (o : Options) (enabled : Bool) : Options :=
  { o with sequencePoints := enabled }

/-- The settings with folding on or off. -/
def withConstantFolding (o : Options) (enabled : Bool) : Options :=
  { o with foldConstants := enabled }

end Options
end PhpLowering
