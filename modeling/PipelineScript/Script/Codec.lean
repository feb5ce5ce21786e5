import PipelineScript.Json.Decode
import PipelineScript.Json.Printer
import PipelineScript.Json.Reader
import PipelineScript.Script.Basic

/-!
# Scripts as JSON

Each type is written as a record of its fields in order. The kind of a statement is
a field that may be read from anywhere.
-/

namespace PipelineScript

def Name.toJson (n : Name) : Json := .record [("value", .text n.value), ("quoted", .bool n.quoted)]

def Name.ofJson? (j : Json) : Option Name := do
  let fs ← j.fields? ["value", "quoted"]
  let value ← fs.required? "value" Json.text?
  let quoted ← fs.required? "quoted" Json.bool?
  return ⟨value, quoted⟩

def DottedName.toJson (n : DottedName) : Json := .record [("parts", .array (n.parts.map Name.toJson))]

def DottedName.ofJson? (j : Json) : Option DottedName := do
  let fs ← j.fields? ["parts"]
  let parts ← fs.required? "parts" (Json.list? Name.ofJson?)
  return ⟨parts⟩

def FormatPath.toJson (f : FormatPath) : Json :=
  .record [("format", f.format.toJson), ("path", f.path.toJson)]

def FormatPath.ofJson? (j : Json) : Option FormatPath := do
  let fs ← j.fields? ["format", "path"]
  let format ← fs.required? "format" Name.ofJson?
  let path ← fs.required? "path" Name.ofJson?
  return ⟨format, path⟩

def Database.toJson : Database → Json
  | name n => .record [("Name", n.toJson)]
  | dotted n => .record [("Qualified", n.toJson)]

def Database.ofJson? (j : Json) : Option Database := do
  let (kind, content) ← j.variant?
  match String.ofList kind with
  | "Name" => (Name.ofJson? content).map name
  | "Qualified" => (DottedName.ofJson? content).map dotted
  | _ => none

def Assignment.toJson (a : Assignment) : Json := .record [("key", a.key.toJson), ("value", .text a.value)]

def Assignment.ofJson? (j : Json) : Option Assignment := do
  let fs ← j.fields? ["key", "value"]
  let key ← fs.required? "key" Name.ofJson?
  let value ← fs.required? "value" Json.text?
  return ⟨key, value⟩

def Marker.jsonName : Marker → String
  | options => "Options"
  | conditions => "Where"

def Marker.ofJson? : Json → Option Marker := Json.choice? Json.isEmpty [options, conditions] jsonName

def Clause.toJson (c : Clause) : Json :=
  .record [("marker", .orNull (c.marker.map fun m => .ofString m.jsonName)),
    ("assign", .orNull (c.first.map Assignment.toJson)),
    ("filters", .array (c.filters.map Assignment.toJson))]

def Clause.ofJson? (j : Json) : Option Clause := do
  let fs ← j.fields? ["marker", "assign", "filters"]
  let marker ← fs.nullable? "marker" Marker.ofJson?
  let first ← fs.nullable? "assign" Assignment.ofJson?
  let filters ← fs.required? "filters" (Json.list? Assignment.ofJson?)
  return ⟨marker, first, filters⟩

def SetValue.toJson : SetValue → Json
  | name n => .record [("Name", n.toJson)]
  | string v => .record [("String", .text v)]
  | block v => .record [("BlockString", .text v)]

def SetValue.ofJson? (j : Json) : Option SetValue := do
  let (kind, content) ← j.variant?
  match String.ofList kind with
  | "Name" => (DottedName.ofJson? content).map name
  | "String" => content.text?.map string
  | "BlockString" => content.text?.map block
  | _ => none

/-! ## Statements -/

def WriteMode.jsonName : WriteMode → String
  | overwrite => "Overwrite"
  | append => "Append"
  | errorIfExists => "ErrorIfExists"
  | ignore => "Ignore"

def WriteMode.ofJson? : Json → Option WriteMode :=
  Json.choice? Json.isEmpty [overwrite, append, errorIfExists, ignore] jsonName

def Verbatim.jsonName : Verbatim → String
  | insert => "Insert"
  | create => "Create"
  | drop => "Drop"
  | refresh => "Refresh"

def Verbatim.ofJson? : Json → Option Verbatim := Json.choice? Json.isEmpty [insert, create, drop, refresh] jsonName

def ModelAction.jsonName : ModelAction → String
  | train => "Train"
  | run => "Run"

def ModelAction.ofJson? : Json → Option ModelAction := Json.choice? Json.isEmpty [train, run] jsonName

def Registration.jsonName : Registration → String
  | register => "Register"
  | unregister => "Unregister"

def Registration.ofJson? : Json → Option Registration := Json.choice? Json.isEmpty [register, unregister] jsonName

namespace Statement

def toJson : Statement → Json
  | load source options table =>
    .record [("statement", .ofString "load"), ("source", source.toJson), ("options", options.toJson),
      ("table", table.toJson)]
  | save modes table sink options column =>
    .record [("statement", .ofString "save"), ("modes", .array (modes.map fun m => .ofString m.jsonName)),
      ("table", table.toJson), ("sink", sink.toJson), ("options", options.toJson),
      ("partition_by", .orNull (column.map Name.toJson))]
  | select sql table =>
    .record [("statement", .ofString "select_as"), ("sql", .text sql), ("table", table.toJson)]
  | verbatim kind body =>
    .record [("statement", .ofString "raw_passthrough"), ("kind", .ofString kind.jsonName), ("body", .text body)]
  | setting key value options =>
    .record [("statement", .ofString "set_config"), ("key", key.toJson), ("value", value.toJson),
      ("options", options.toJson)]
  | connect format options database =>
    .record [("statement", .ofString "connect"), ("format", format.toJson), ("options", options.toJson),
      ("db", .orNull (database.map Database.toJson))]
  | model action table target options =>
    .record [("statement", .ofString "train_or_run"), ("kind", .ofString action.jsonName),
      ("table", table.toJson), ("target", target.toJson), ("options", options.toJson)]
  | registration kind target function options =>
    .record [("statement", .ofString "register"), ("kind", .ofString kind.jsonName), ("target", target.toJson),
      ("function", .orNull (function.map Name.toJson)), ("options", options.toJson)]
  | inclusion target options =>
    .record [("statement", .ofString "include"), ("target", target.toJson), ("options", options.toJson)]
  | comment text => .record [("statement", .ofString "comment_only"), ("text", .text text)]

def maxLevel : Nat := 127

def ofTagged? (tag : Text) (j : Json) : Option Statement :=
  match String.ofList tag with
  | "load" => do
    let fs ← j.fields? ["source", "options", "table"]
    let source ← fs.required? "source" FormatPath.ofJson?
    let options ← fs.required? "options" Clause.ofJson?
    let table ← fs.required? "table" Name.ofJson?
    return load source options table
  | "save" => do
    let fs ← j.fields? ["modes", "table", "sink", "options", "partition_by"]
    let modes ← fs.required? "modes" (Json.list? WriteMode.ofJson?)
    let table ← fs.required? "table" Name.ofJson?
    let sink ← fs.required? "sink" FormatPath.ofJson?
    let options ← fs.required? "options" Clause.ofJson?
    let column ← fs.nullable? "partition_by" Name.ofJson?
    return save modes table sink options column
  | "select_as" => do
    let fs ← j.fields? ["sql", "table"]
    let sql ← fs.required? "sql" Json.text?
    let table ← fs.required? "table" Name.ofJson?
    return select sql table
  | "raw_passthrough" => do
    let fs ← j.fields? ["kind", "body"]
    let kind ← fs.required? "kind" Verbatim.ofJson?
    let body ← fs.required? "body" Json.text?
    return verbatim kind body
  | "set_config" => do
    let fs ← j.fields? ["key", "value", "options"]
    let key ← fs.required? "key" DottedName.ofJson?
    let value ← fs.required? "value" SetValue.ofJson?
    let options ← fs.required? "options" Clause.ofJson?
    return setting key value options
  | "connect" => do
    let fs ← j.fields? ["format", "options", "db"]
    let format ← fs.required? "format" Name.ofJson?
    let options ← fs.required? "options" Clause.ofJson?
    let database ← fs.nullable? "db" Database.ofJson?
    return connect format options database
  | "train_or_run" => do
    let fs ← j.fields? ["kind", "table", "target", "options"]
    let action ← fs.required? "kind" ModelAction.ofJson?
    let table ← fs.required? "table" Name.ofJson?
    let target ← fs.required? "target" FormatPath.ofJson?
    let options ← fs.required? "options" Clause.ofJson?
    return model action table target options
  | "register" => do
    let fs ← j.fields? ["kind", "target", "function", "options"]
    let kind ← fs.required? "kind" Registration.ofJson?
    let target ← fs.required? "target" FormatPath.ofJson?
    let function ← fs.nullable? "function" Name.ofJson?
    let options ← fs.required? "options" Clause.ofJson?
    return registration kind target function options
  | "include" => do
    let fs ← j.fields? ["target", "options"]
    let target ← fs.required? "target" FormatPath.ofJson?
    let options ← fs.required? "options" Clause.ofJson?
    return inclusion target options
  | "comment_only" => do
    let fs ← j.fields? ["text"]
    let text ← fs.required? "text" Json.text?
    return comment text
  | _ => none

/-- A statement that stands inside `level` arrays and objects. It is read whole before its kind is known, so
the limits also hold for fields that are then ignored. -/
def ofJson? (level : Nat) (j : Json) : Option Statement :=
  if j.isWellFormed ∧ level + j.depth ≤ maxLevel then
    match j with
    | .object members => do
      let tag ← Json.Fields.required? members "statement" Json.text?
      ofTagged? tag j
    | .array (.text tag :: items) => ofTagged? tag (.array items)
    | _ => none
  else none

end Statement

/-! ## Scripts -/

def Position.toJson (p : Position) : Json :=
  .record [("offset", .nat p.offset), ("line", .nat p.line), ("column", .nat p.column)]

def Position.ofJson? (j : Json) : Option Position := do
  let fs ← j.fields? ["offset", "line", "column"]
  let offset ← fs.required? "offset" Json.word64?
  let line ← fs.required? "line" Json.word64?
  let column ← fs.required? "column" Json.word64?
  return ⟨offset, line, column⟩

namespace Script

def toJson (s : Script) : Json :=
  .record [("statements", .array (s.statements.map Statement.toJson)),
    ("spans", .array (s.positions.map Position.toJson))]

def ofJson? (level : Nat) (j : Json) : Option Script := do
  let fs ← j.fields? ["statements", "spans"]
  let statements ← fs.required? "statements" (Json.list? (Statement.ofJson? (level + 2)))
  let positions ← fs.required? "spans" (Json.list? Position.ofJson?)
  return ⟨statements, positions⟩

def save (s : Script) : Text := s.toJson.print

def load? (t : Text) : Option Script := do
  let j ← Json.parse? t
  ofJson? 0 j

end Script

end PipelineScript
