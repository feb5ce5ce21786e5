import PipelineScript.Cursor.Walk
import PipelineScript.Grammar.Statement

/-!
# Statements read by index

The walks for the phrases of the grammar. Query text is cut out of the stream
between the indices of its first and its last token.
-/

namespace PipelineScript.Walk

/-! ## Names, clauses and values -/

def name (wanted : Expectation) : Walk Name := do
  let t ← peek
  match t.kind with
  | .identifier =>
    let t ← advance
    return .bare t.lexeme
  | .backquoted =>
    let t ← advance
    if t.value.isEmpty then fail (Failure.emptyName wanted t) else return .backquoted t.value
  | _ => unexpected wanted

def keyword (wanted : Expectation) (k : Keyword) : Walk Token := expect wanted (.keyword k)

def ofKind (kind : Token.Kind) (t : Token) : Option Unit := if t.kind = kind then some () else none

theorem ofKind_endOfInput {kind : Token.Kind} (hk : kind ≠ .endOfInput) :
    ∀ t : Token, t.kind = .endOfInput → ofKind kind t = none :=
  fun _ ht => if_neg fun h => hk (h.symm.trans ht)

def dottedName (wanted : Expectation) : Walk DottedName := do
  let first ← name wanted
  let others ← gather (.picking (ofKind .dot) (ofKind_endOfInput nofun) fun _ => name .nextPart)
  return ⟨first :: others⟩

def formatPath : Walk FormatPath := do
  let format ← name .formatName
  let _ ← expect .pathDot .dot
  let path ← name .path
  return ⟨format, path⟩

def assignment : Walk Assignment := do
  let key ← name .optionKey
  let _ ← expect .optionEquals .equals
  let value ← expect .optionValue .string
  return ⟨key, value.value⟩

def firstAssignment : Walk (Option Assignment) := do
  let t ← peek
  if t.kind.isName then
    let a ← assignment
    return some a
  else return none

def clause : Walk Clause := do
  let marker ← optional Token.marker? pure
  let first ← firstAssignment
  let filters ← gather (.picking (ofKind (.keyword .and)) (ofKind_endOfInput nofun) fun _ => assignment)
  return ⟨marker, first, filters⟩

def settingValue : Walk SetValue := do
  let t ← peek
  match t.kind with
  | .identifier | .backquoted =>
    let n ← dottedName .valueName
    return .name n
  | .string =>
    let t ← advance
    return .string t.value
  | .blockString =>
    let t ← advance
    return .block t.value
  | _ => unexpected .settingValue

/-! ## Statements in parts -/

def load : Walk Statement := do
  let source ← formatPath
  let options ← clause
  let _ ← keyword .asTable .as
  let table ← name .tableName
  return .load source options table

theorem writeMode?_endOfInput (t : Token) (h : t.kind = .endOfInput) : t.writeMode? = none := by
  simp [Token.writeMode?, h]

def partitionColumn (t : Token) : Option Unit :=
  if t.kind = .keyword .partitionBy ∨ t.kind = .keyword .as then some () else none

def save : Walk Statement := do
  let modes ← gather (.picking Token.writeMode? writeMode?_endOfInput pure)
  let table ← name .tableName
  let _ ← keyword .asSink .as
  let sink ← formatPath
  let options ← clause
  let column ← optional partitionColumn fun _ => name .columnName
  return .save modes table sink options column

def setting : Walk Statement := do
  let key ← dottedName .settingKey
  let _ ← expect .settingEquals .equals
  let value ← settingValue
  let options ← clause
  return .setting key value options

def connect : Walk Statement := do
  let format ← name .connectorFormat
  let options ← clause
  let database ← optional (ofKind (.keyword .as)) fun _ => dottedName .connectionName
  return .connect format options (database.map Database.ofDotted)

def model (action : ModelAction) : Walk Statement := do
  let table ← name .tableName
  let _ ← keyword .asAlgorithm .as
  let target ← formatPath
  let options ← clause
  return .model action table target options

def register : Walk Statement := do
  let target ← formatPath
  let _ ← keyword .asFunction .as
  let function ← name .functionName
  let options ← clause
  return .registration .register target (some function) options

def unregister : Walk Statement := do
  let target ← formatPath
  let options ← clause
  return .registration .unregister target none options

def inclusion : Walk Statement := do
  let target ← formatPath
  let options ← clause
  return .inclusion target options

def inStatement (t : Token) : Option Unit :=
  if t.kind = .semicolon ∨ t.kind = .endOfInput then none else some ()

theorem inStatement_endOfInput (t : Token) (h : t.kind = .endOfInput) : inStatement t = none := if_pos (.inr h)

def bodyIndex : Stride Nat := .picking inStatement inStatement_endOfInput fun _ => previousIndex

def bodyIndices : Walk (List Nat) := gather bodyIndex

/-- The index that stands `n` places from the end of a list of indices; there is none in front of the first. -/
def fromEnd (indices : List Nat) (n : Nat) : Walk Nat where
  run _ i :=
    match if n ≤ indices.length then indices[indices.length - n]? else none with
    | none => .error (.noIndex n)
    | some index => .ok (.ok index, i)
  forward h := by
    split at h
    · cases h
    · cases h
      exact Nat.le_refl _

def namesResult (body : List Nat) : Walk Bool := do
  if body.length < 3 then return false
  let link ← fromEnd body 2
  let link ← token link
  if link.isKeyword .as then
    let last ← fromEnd body 1
    let last ← token last
    return last.kind.isName && !last.value.isEmpty
  else return false

def tableName (t : Token) : Name :=
  match t.kind with
  | .backquoted => .backquoted t.value
  | _ => .bare t.lexeme

/-- The query from `head` up to the link and the name that it ends in. -/
def namedQuery (head : Nat) (body : List Nat) : Walk Statement := do
  let last ← fromEnd body 1
  let last ← token last
  let stop ← fromEnd body 3
  let text ← textBetween head stop
  return .select text (tableName last)

def query : Walk Statement := do
  let head ← previousIndex
  let others ← bodyIndices
  let named ← namesResult (head :: others)
  if named then namedQuery head (head :: others) else unexpected .queryResult

def verbatim (kind : Verbatim) : Walk Statement := do
  let head ← previousIndex
  let others ← bodyIndices
  let text ← textBetween head (others.getLast?.getD head)
  return .verbatim kind text

/-! ## Any statement -/

def afterHead? : Keyword → Option (Walk Statement)
  | .load => some load
  | .save => some save
  | .select => some query
  | .insert => some (verbatim .insert)
  | .create => some (verbatim .create)
  | .drop => some (verbatim .drop)
  | .refresh => some (verbatim .refresh)
  | .set => some setting
  | .connect => some connect
  | .train => some (model .train)
  | .run => some (model .run)
  | .register => some register
  | .unregister => some unregister
  | .include => some inclusion
  | _ => none

def production? (t : Token) : Option (Walk Statement) :=
  match t.kind with
  | .keyword k => afterHead? k
  | _ => none

def statement : Walk Statement := do
  let head ← peek
  match production? head with
  | none => fail (Failure.notAStatement head)
  | some walk =>
    let _ ← advance
    walk

/-- Takes the semicolon that ends a statement; the end of input is only looked at. -/
def ender : Walk Unit := do
  let t ← peek
  match t.kind with
  | .semicolon =>
    let _ ← advance
    return ()
  | .endOfInput => return ()
  | _ => unexpected .terminator

def ended {α : Type} (walk : Walk α) : Walk α := do
  let a ← walk
  let _ ← ender
  return a

def endedStatement : Walk Statement := ended statement

end PipelineScript.Walk
