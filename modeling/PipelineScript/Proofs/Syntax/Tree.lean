import PipelineScript.Grammar.Statement
import PipelineScript.Proofs.Reading.Segments

/-!
# Syntax trees

The grammar of statements, written as the trees it derives:

    load path clause as name
    save mode* name as path clause ((partitionBy | as) name)?
    select word* as name
    insert word*    create word*    drop word*    refresh word*
    set dotted = (dotted | STRING | BLOCK_STRING) clause
    connect name clause (as dotted)?
    train name as path clause    run name as path clause
    register path as name clause    unregister path clause    include path clause

with `path = name . name`, `dotted = name (. name)*` and
`clause = (options | where)? (name = STRING)? (and name = STRING)*`. The leaves
of a tree are significant tokens, and its yield lists them in order. Nothing
here mentions how statements are read.
-/

namespace PipelineScript.Syntax

/-! ## Leaves -/

@[ext] structure Terminal (kinds : List Token.Kind) where
  token : Token
  mem : token.kind ∈ kinds

structure Choice (α : Type) (kind : α → Token.Kind) where
  choice : α
  token : Token
  kind_eq : token.kind = kind choice

def IsIdent (t : Token) : Prop := t.kind = .identifier ∨ t.kind = .backquoted ∧ t.value ≠ []

@[ext] structure Ident where
  token : Token
  isIdent : IsIdent token

@[ext] structure Word where
  token : Token
  significant : token.isSignificant = true
  inner : token.IsInner

abbrev As := Terminal [.keyword .as]

instance (k : Token.Kind) (ks : List Token.Kind) : Inhabited (Terminal (k :: ks)) :=
  ⟨⟨⟨k, [], .start⟩, List.mem_cons_self⟩⟩

instance : Inhabited Ident := ⟨⟨⟨.identifier, [], .start⟩, .inl rfl⟩⟩

def Ident.name (i : Ident) : Name := ⟨i.token.value, i.token.kind == .backquoted⟩

@[ext] structure Path where
  format : Ident
  dot : Terminal [.dot]
  path : Ident
  deriving Inhabited

@[ext] structure Dotted where
  first : Ident
  others : List (Terminal [.dot] × Ident)
  deriving Inhabited

@[ext] structure Assign where
  key : Ident
  equals : Terminal [.equals]
  value : Terminal [.string]

@[ext] structure Options where
  marker : Option (Choice Marker fun m => .keyword m.keyword)
  first : Option Assign
  filters : List (Terminal [.keyword .and] × Assign)
  deriving Inhabited

inductive Value
  | name (n : Dotted)
  | string (t : Terminal [.string])
  | block (t : Terminal [.blockString])
  deriving Inhabited

namespace Path

def yield (p : Path) : List Token := [p.format.token, p.dot.token, p.path.token]

def ast (p : Path) : FormatPath := ⟨p.format.name, p.path.name⟩

end Path

namespace Dotted

def part (p : Terminal [.dot] × Ident) : List Token := [p.1.token, p.2.token]

def yield (d : Dotted) : List Token := d.first.token :: d.others.flatMap part

def ast (d : Dotted) : DottedName := ⟨d.first.name :: d.others.map fun p => p.2.name⟩

end Dotted

namespace Assign

def yield (a : Assign) : List Token := [a.key.token, a.equals.token, a.value.token]

def ast (a : Assign) : Assignment := ⟨a.key.name, a.value.token.value⟩

end Assign

namespace Options

def filter (f : Terminal [.keyword .and] × Assign) : List Token := f.1.token :: f.2.yield

def yield (o : Options) : List Token :=
  o.marker.toList.flatMap (fun m => [m.token]) ++ (o.first.toList.flatMap Assign.yield ++ o.filters.flatMap filter)

def ast (o : Options) : Clause :=
  ⟨o.marker.map Choice.choice, o.first.map Assign.ast, o.filters.map fun f => f.2.ast⟩

end Options

namespace Value

def yield : Value → List Token
  | name n => n.yield
  | string t => [t.token]
  | block t => [t.token]

def ast : Value → SetValue
  | name n => .name n.ast
  | string t => .string t.token.value
  | block t => .block t.token.value

end Value

/-! ## Statements -/

inductive Tree
  | load (head : Terminal [.keyword .load]) (source : Path) (options : Options) (link : As) (table : Ident)
  | save (head : Terminal [.keyword .save]) (modes : List (Choice WriteMode fun m => .keyword m.keyword))
      (table : Ident) (link : As) (sink : Path) (options : Options)
      (column : Option (Terminal [.keyword .partitionBy, .keyword .as] × Ident))
  | select (head : Terminal [.keyword .select]) (query : List Word) (link : As) (table : Ident)
  | verbatim (head : Choice Verbatim fun k => .keyword k.keyword) (words : List Word)
  | setting (head : Terminal [.keyword .set]) (key : Dotted) (equals : Terminal [.equals]) (value : Value)
      (options : Options)
  | connect (head : Terminal [.keyword .connect]) (format : Ident) (options : Options)
      (database : Option (As × Dotted))
  | model (head : Choice ModelAction fun a => .keyword a.keyword) (table : Ident) (link : As) (target : Path)
      (options : Options)
  | register (head : Terminal [.keyword .register]) (target : Path) (link : As) (function : Ident)
      (options : Options)
  | unregister (head : Terminal [.keyword .unregister]) (target : Path) (options : Options)
  | inclusion (head : Terminal [.keyword .include]) (target : Path) (options : Options)

namespace Tree

def head : Tree → Token
  | load h .. => h.token
  | save h .. => h.token
  | select h .. => h.token
  | verbatim h .. => h.token
  | setting h .. => h.token
  | connect h .. => h.token
  | model h .. => h.token
  | register h .. => h.token
  | unregister h .. => h.token
  | inclusion h .. => h.token

def rest : Tree → List Token
  | load _ source options link table => source.yield ++ (options.yield ++ [link.token, table.token])
  | save _ modes table link sink options column =>
    modes.flatMap (fun m => [m.token]) ++ table.token :: link.token ::
      (sink.yield ++ (options.yield ++ column.toList.flatMap fun c => [c.1.token, c.2.token]))
  | select _ query link table => query.map Word.token ++ [link.token, table.token]
  | verbatim _ words => words.map Word.token
  | setting _ key equals value options => key.yield ++ equals.token :: (value.yield ++ options.yield)
  | connect _ format options database =>
    format.token :: (options.yield ++ database.toList.flatMap fun d => d.1.token :: d.2.yield)
  | model _ table link target options => table.token :: link.token :: (target.yield ++ options.yield)
  | register _ target link function options =>
    target.yield ++ link.token :: function.token :: options.yield
  | unregister _ target options => target.yield ++ options.yield
  | inclusion _ target options => target.yield ++ options.yield

def yield (t : Tree) : List Token := t.head :: t.rest

end Tree

end PipelineScript.Syntax

namespace PipelineScript

namespace Token

def takeSignificant : Nat → List Token → List Token
  | 0, _ => []
  | _, [] => []
  | n + 1, t :: ts => t :: if t.isSignificant then takeSignificant n ts else takeSignificant (n + 1) ts

def sourceText (n : Nat) (ts : List Token) : Text :=
  text (takeSignificant n (ts.dropWhile fun t => !t.isSignificant))

end Token

/-- The statement that a tree derives from the tokens `piece`. Text that is not parsed is taken from `piece`, with the
white space and the comments inside it. -/
def Syntax.Tree.statement (piece : List Token) : Tree → Statement
  | load _ source options _ table => .load source.ast options.ast table.name
  | save _ modes table _ sink options column =>
    .save (modes.map Choice.choice) table.name sink.ast options.ast (column.map fun c => c.2.name)
  | select _ query _ table => .select (Token.sourceText (query.length + 1) piece) table.name
  | verbatim head words => .verbatim head.choice (Token.sourceText (words.length + 1) piece)
  | setting _ key _ value options => .setting key.ast value.ast options.ast
  | connect _ format options database =>
    .connect format.name options.ast (database.map fun d => .ofDotted d.2.ast)
  | model head table _ target options => .model head.choice table.name target.ast options.ast
  | register _ target _ function options => .registration .register target.ast (some function.name) options.ast
  | unregister _ target options => .registration .unregister target.ast none options.ast
  | inclusion _ target options => .inclusion target.ast options.ast

theorem Syntax.Tree.isComment_statement (ts : List Token) (t : Tree) : (t.statement ts).isComment = false := by
  cases t <;> rfl

end PipelineScript
