import PipelineScript.Grammar.Query

/-!
# Statements

    load path clause as name
    save mode* name as path clause (partitionBy name | as name)?
    set dotted = value clause
    connect name clause (as dotted)?
    train name as path clause        run name as path clause
    register path as name clause     unregister path clause
    include path clause
    select ... as name
    insert ...    create ...    drop ...    refresh ...

The head keyword alone decides which form a statement has.
-/

namespace PipelineScript

def Token.writeMode? (t : Token) : Option WriteMode :=
  match t.kind with
  | .keyword .overwrite => some .overwrite
  | .keyword .append => some .append
  | .keyword .errorIfExists => some .errorIfExists
  | .keyword .ignore => some .ignore
  | _ => none

/-! ## What follows a head keyword -/

namespace Rule

def load : Rule Statement := do
  let source ← formatPath
  let options ← clause
  let _ ← keyword .asTable .as
  let table ← name .tableName
  return .load source options table

def save : Rule Statement := do
  let modes ← readAll Token.writeMode?
  let table ← name .tableName
  let _ ← keyword .asSink .as
  let sink ← formatPath
  let options ← clause
  let column ← after (fun k => k == .keyword .partitionBy || k == .keyword .as) (name .columnName)
  return .save modes table sink options column

def setting : Rule Statement := do
  let key ← dottedName .settingKey
  let _ ← expect .settingEquals .equals
  let value ← settingValue
  let options ← clause
  return .setting key value options

def connect : Rule Statement := do
  let format ← name .connectorFormat
  let options ← clause
  let database ← after (· == .keyword .as) (dottedName .connectionName)
  return .connect format options (database.map Database.ofDotted)

def model (action : ModelAction) : Rule Statement := do
  let table ← name .tableName
  let _ ← keyword .asAlgorithm .as
  let target ← formatPath
  let options ← clause
  return .model action table target options

def register : Rule Statement := do
  let target ← formatPath
  let _ ← keyword .asFunction .as
  let function ← name .functionName
  let options ← clause
  return .registration .register target (some function) options

def unregister : Rule Statement := do
  let target ← formatPath
  let options ← clause
  return .registration .unregister target none options

def inclusion : Rule Statement := do
  let target ← formatPath
  let options ← clause
  return .inclusion target options

end Rule

/-! ## Statements -/

inductive Form
  | structured (rule : Rule Statement)
  | query
  | verbatim (kind : Verbatim)

def Keyword.form? : Keyword → Option Form
  | .load => some (.structured .load)
  | .save => some (.structured .save)
  | .select => some .query
  | .insert => some (.verbatim .insert)
  | .create => some (.verbatim .create)
  | .drop => some (.verbatim .drop)
  | .refresh => some (.verbatim .refresh)
  | .set => some (.structured .setting)
  | .connect => some (.structured .connect)
  | .train => some (.structured (.model .train))
  | .run => some (.structured (.model .run))
  | .register => some (.structured .register)
  | .unregister => some (.structured .unregister)
  | .include => some (.structured .inclusion)
  | _ => none

def Token.form? (t : Token) : Option Form :=
  match t.kind with
  | .keyword k => k.form?
  | _ => none

/-- Reads the statement whose first significant token is `head`, followed by the tokens `rest`. -/
def readStatement (head : Token) (rest : List Token) : Except Failure Statement :=
  match head.form? with
  | none => .error ⟨.notAStatement, Token.significant (head :: rest)⟩
  | some (.structured rule) => rule.complete (Token.significant rest)
  | some (.verbatim kind) => .ok (verbatimStatement kind (head :: rest))
  | some .query =>
    match selectStatement? (head :: rest) with
    | some s => .ok s
    | none => .error ⟨.unexpected .queryResult, []⟩

end PipelineScript
