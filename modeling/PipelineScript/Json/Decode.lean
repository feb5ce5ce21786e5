import PipelineScript.Json.Basic

/-!
# Reading values from JSON

A record is an object, whose further members are ignored, or an array with
exactly the record's fields in their order. A field must not be given twice.
-/

namespace PipelineScript.Json

variable {α : Type}

def bool? : Json → Option Bool
  | bool b => some b
  | _ => none

def text? : Json → Option Text
  | text t => some t
  | _ => none

def word64? : Json → Option Nat
  | nat n => if n < Nat.pow 2 64 then some n else none
  | _ => none

def list? (read : Json → Option α) : Json → Option (List α)
  | array items => items.mapM read
  | _ => none

def nullable? (read : Json → Option α) : Json → Option (Option α)
  | null => some none
  | j => (read j).map some

/-! ## Records -/

abbrev Fields := List (Text × Json)

def fields? (names : List String) : Json → Option Fields
  | object members => some members
  | array items => if items.length = names.length then some ((names.map String.toList).zip items) else none
  | _ => none

def Fields.named (fields : Fields) (name : String) : List Json :=
  (fields.filter fun f => f.1 == name.toList).map (·.2)

def Fields.required? (fields : Fields) (name : String) (read : Json → Option α) : Option α :=
  match fields.named name with
  | [j] => read j
  | _ => none

def Fields.optional? (fields : Fields) (name : String) (default : α) (read : Json → Option α) : Option α :=
  match fields.named name with
  | [] => some default
  | [j] => read j
  | _ => none

/-- A field that can be `null` or missing. -/
def Fields.nullable? (fields : Fields) (name : String) (read : Json → Option α) : Option (Option α) :=
  fields.optional? name none (Json.nullable? read)

/-- The name of an alternative and what it holds; one that holds nothing is just its name. -/
def variant? : Json → Option (Text × Json)
  | text name => some (name, null)
  | object [(name, j)] => some (name, j)
  | _ => none

def isNull : Json → Bool
  | null => true
  | _ => false

def isEmpty : Json → Bool
  | null => true
  | object [] => true
  | _ => false

/-- One of some alternatives that hold nothing, which `isNothing` recognizes. -/
def choice? (isNothing : Json → Bool) (all : List α) (name : α → String) (j : Json) : Option α :=
  match variant? j with
  | some (n, content) => if isNothing content then all.find? fun a => (name a).toList == n else none
  | none => none

end PipelineScript.Json
