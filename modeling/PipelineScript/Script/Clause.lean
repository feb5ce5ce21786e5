import PipelineScript.Literal.Block
import PipelineScript.Literal.Quoted
import PipelineScript.Script.Name

/-!
# Option clauses and values

A clause is a marker, an assignment and further assignments after `and`; each
part may be missing. Pairs keep their order, and a key may come twice.
-/

namespace PipelineScript

structure Assignment where
  key : Name
  value : Text
  deriving Repr, DecidableEq

def Assignment.render (a : Assignment) : Text := a.key.render ++ '=' :: Literal.Quoted.encode a.value

/-- The word that opens a clause: `options` or `where`. They mean the same. -/
inductive Marker
  | options
  | conditions
  deriving Repr, DecidableEq

namespace Marker

def keyword : Marker → Keyword
  | options => .options
  | conditions => .conditions

def render (m : Marker) : Text := m.keyword.canonical.toList

end Marker

structure Clause where
  marker : Option Marker
  first : Option Assignment
  filters : List Assignment
  deriving Repr, DecidableEq

namespace Clause

def empty : Clause := ⟨none, none, []⟩

def isEmpty (c : Clause) : Bool := c.marker.isNone && c.first.isNone && c.filters.isEmpty

def assignments (c : Clause) : List Assignment := c.first.toList ++ c.filters

/-- Every part stands behind a space, so that an empty clause leaves no trace. -/
def render (c : Clause) : Text :=
  c.marker.toList.flatMap (fun m => ' ' :: m.render) ++
    (c.first.toList.flatMap (fun a => ' ' :: a.render) ++
      c.filters.flatMap (fun a => " and ".toList ++ a.render))

end Clause

inductive SetValue
  | name (n : DottedName)
  | string (v : Text)
  | block (v : Text)
  deriving Repr, DecidableEq

namespace SetValue

def text : SetValue → Text
  | name n => n.joined
  | string v => v
  | block v => v

def render : SetValue → Text
  | name n => n.render
  | string v => Literal.Quoted.encode v
  | block v => Literal.Block.encode v

end SetValue

end PipelineScript
