import PipelineScript.Script.Basic

/-!
# Normal forms

The normal form of a statement is the one that its written form shows.
-/

namespace PipelineScript

def Name.normal (n : Name) : Name := ⟨n.value, n.quoted || needsQuotes n.value⟩

def DottedName.normal (n : DottedName) : DottedName := ⟨n.parts.map Name.normal⟩

def FormatPath.normal (f : FormatPath) : FormatPath := ⟨f.format.normal, f.path.normal⟩

def Database.normal : Database → Database
  | name n => name n.normal
  | dotted d => ofDotted d.normal

def Assignment.normal (a : Assignment) : Assignment := ⟨a.key.normal, a.value⟩

def Clause.normal (c : Clause) : Clause :=
  ⟨c.marker, c.first.map Assignment.normal, c.filters.map Assignment.normal⟩

def SetValue.normal : SetValue → SetValue
  | name n => name n.normal
  | string v => string v
  | block v => block v

def Statement.normal : Statement → Statement
  | load source options table => load source.normal options.normal table.normal
  | save modes table sink options column =>
    save modes table.normal sink.normal options.normal (column.map Name.normal)
  | select sql table => select sql table.normal
  | verbatim kind body => verbatim kind body
  | setting key value options => setting key.normal value.normal options.normal
  | connect format options database => connect format.normal options.normal (database.map Database.normal)
  | model action table target options => model action table.normal target.normal options.normal
  | registration .register target function options =>
    registration .register target.normal (function.map Name.normal) options.normal
  | registration .unregister target _ options => registration .unregister target.normal none options.normal
  | inclusion target options => inclusion target.normal options.normal
  | comment text => comment text

/-! ## The normal form is written the same -/

theorem Name.render_normal (n : Name) : n.normal.render = n.render := by
  simp only [render, normal, Bool.or_assoc, Bool.or_self]

theorem DottedName.render_normal (n : DottedName) : n.normal.render = n.render := by
  simp only [render, normal, List.map_map]
  exact congrArg _ (List.map_congr_left fun m _ => m.render_normal)

theorem FormatPath.render_normal (f : FormatPath) : f.normal.render = f.render := by
  simp only [render, normal, Name.render_normal]

theorem Database.render_ofDotted (d : DottedName) : (ofDotted d).render = d.render := by
  unfold ofDotted
  split <;> rfl

theorem Database.render_normal (d : Database) : d.normal.render = d.render := by
  cases d with
  | name n => exact n.render_normal
  | dotted d => exact (render_ofDotted d.normal).trans d.render_normal

theorem Assignment.render_normal (a : Assignment) : a.normal.render = a.render := by
  simp only [render, normal, Name.render_normal]

theorem Clause.render_normal (c : Clause) : c.normal.render = c.render := by
  have first : ∀ o : Option Assignment, (o.map Assignment.normal).toList.flatMap (fun a => ' ' :: a.render) =
      o.toList.flatMap fun a => ' ' :: a.render := by
    intro o
    cases o with
    | none => rfl
    | some a => simp [a.render_normal]
  simp only [render, normal, first, List.flatMap_map, Assignment.render_normal]

theorem SetValue.render_normal (v : SetValue) : v.normal.render = v.render := by
  cases v with
  | name n => exact n.render_normal
  | string v => rfl
  | block v => rfl

namespace Statement

theorem renderPartition_normal (column : Option Name) :
    renderPartition (column.map Name.normal) = renderPartition column := by
  cases column with
  | none => rw [Option.map_none]
  | some n => exact congrArg (" partitionBy ".toList ++ ·) n.render_normal

theorem renderDatabase_normal (database : Option Database) :
    renderDatabase (database.map Database.normal) = renderDatabase database := by
  cases database with
  | none => rw [Option.map_none]
  | some d => exact congrArg (asText ++ ·) d.render_normal

theorem renderFunction_normal (function : Option Name) :
    renderFunction (function.map Name.normal) = renderFunction function := by
  cases function with
  | none => rw [Option.map_none]
  | some f => exact congrArg (asText ++ ·) f.render_normal

theorem render_normal (s : Statement) : s.normal.render = s.render := by
  cases s with
  | registration kind target function options =>
    cases kind <;>
      simp only [normal, render, FormatPath.render_normal, Clause.render_normal, renderFunction_normal]
  | _ =>
    simp only [normal, render, Name.render_normal, DottedName.render_normal, FormatPath.render_normal,
      Clause.render_normal, SetValue.render_normal, renderPartition_normal, renderDatabase_normal]

theorem isComment_normal (s : Statement) : s.normal.isComment = s.isComment := by
  cases s with
  | registration kind => cases kind <;> rfl
  | _ => rfl

end Statement

theorem Script.render_normal (ss : List Statement) :
    (ss.map Statement.normal).flatMap renderLine = ss.flatMap renderLine := by
  rw [List.flatMap_map]
  exact congrArg List.flatten (List.map_congr_left fun s _ => by
    simp only [renderLine, s.render_normal, s.isComment_normal])

end PipelineScript
