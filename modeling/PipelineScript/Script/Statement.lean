import PipelineScript.Script.Clause

/-!
# Statements

Each kind of statement holds exactly what its form says. Query text is kept
verbatim. A statement is written without the semicolon that ends it.
-/

namespace PipelineScript

inductive WriteMode
  | overwrite
  | append
  | errorIfExists
  | ignore
  deriving Repr, DecidableEq

def WriteMode.keyword : WriteMode → Keyword
  | overwrite => .overwrite
  | append => .append
  | errorIfExists => .errorIfExists
  | ignore => .ignore

inductive Verbatim
  | insert
  | create
  | drop
  | refresh
  deriving Repr, DecidableEq

def Verbatim.keyword : Verbatim → Keyword
  | insert => .insert
  | create => .create
  | drop => .drop
  | refresh => .refresh

inductive ModelAction
  | train
  | run
  deriving Repr, DecidableEq

def ModelAction.keyword : ModelAction → Keyword
  | train => .train
  | run => .run

inductive Registration
  | register
  | unregister
  deriving Repr, DecidableEq

def Registration.keyword : Registration → Keyword
  | register => .register
  | unregister => .unregister

inductive Statement
  | load (source : FormatPath) (options : Clause) (table : Name)
  | save (modes : List WriteMode) (table : Name) (sink : FormatPath) (options : Clause)
      (partitionBy : Option Name)
  | select (sql : Text) (table : Name)
  | verbatim (kind : Verbatim) (body : Text)
  | setting (key : DottedName) (value : SetValue) (options : Clause)
  | connect (format : Name) (options : Clause) (database : Option Database)
  | model (action : ModelAction) (table : Name) (target : FormatPath) (options : Clause)
  | registration (kind : Registration) (target : FormatPath) (function : Option Name) (options : Clause)
  | inclusion (target : FormatPath) (options : Clause)
  | comment (text : Text)
  deriving Repr, DecidableEq

namespace Statement

def isComment : Statement → Bool
  | comment _ => true
  | _ => false

def keyword? : Statement → Option Keyword
  | load .. => some .load
  | save .. => some .save
  | select .. => some .select
  | verbatim k _ => some k.keyword
  | setting .. => some .set
  | connect .. => some .connect
  | model a .. => some a.keyword
  | registration k .. => some k.keyword
  | inclusion .. => some .include
  | comment _ => none

def kindName (s : Statement) : String :=
  match s.keyword? with
  | some k => k.canonical
  | none => "comment"

def formatPath? : Statement → Option FormatPath
  | load source .. => some source
  | save _ _ sink .. => some sink
  | model _ _ target _ => some target
  | registration _ target .. => some target
  | inclusion target _ => some target
  | _ => none

def options? : Statement → Option Clause
  | load _ options _ => some options
  | save _ _ _ options _ => some options
  | setting _ _ options => some options
  | connect _ options _ => some options
  | model _ _ _ options => some options
  | registration _ _ _ options => some options
  | inclusion _ options => some options
  | _ => none

/-! ## Written form -/

def word (k : Keyword) : Text := k.canonical.toList

def asText : Text := " as ".toList

def renderModes (modes : List WriteMode) : Text := modes.flatMap fun m => ' ' :: word m.keyword

def renderPartition : Option Name → Text
  | some column => " partitionBy ".toList ++ column.render
  | none => []

def renderDatabase : Option Database → Text
  | some d => asText ++ d.render
  | none => []

def renderFunction : Option Name → Text
  | some f => asText ++ f.render
  | none => []

def render : Statement → Text
  | load source options table => word .load ++ ' ' :: source.render ++ options.render ++ asText ++ table.render
  | save modes table sink options column =>
    word .save ++ renderModes modes ++ ' ' :: table.render ++ asText ++ sink.render ++ options.render ++
      renderPartition column
  | select sql table => sql ++ asText ++ table.render
  | verbatim _ body => body
  | setting key value options =>
    word .set ++ ' ' :: key.render ++ " = ".toList ++ value.render ++ options.render
  | connect format options database =>
    word .connect ++ ' ' :: format.render ++ options.render ++ renderDatabase database
  | model action table target options =>
    word action.keyword ++ ' ' :: table.render ++ asText ++ target.render ++ options.render
  | registration .register target function options =>
    word .register ++ ' ' :: target.render ++ renderFunction function ++ options.render
  | registration .unregister target _ options => word .unregister ++ ' ' :: target.render ++ options.render
  | inclusion target options => word .include ++ ' ' :: target.render ++ options.render
  | comment text => text

end Statement

end PipelineScript
