import PipelineScript.Proofs.Lexing.Decode
import PipelineScript.Proofs.Lexing.Open
import PipelineScript.Script.Basic

/-!
# Readable statements

What a statement has to be for its written form to show it.
-/

namespace PipelineScript

/-- Text that starts with a spelling of `k`, holds no semicolon and ends in a token that counts. -/
structure IsQuery (k : Keyword) (query : Text) : Prop where
  head : (tokenize query).head?.map Token.kind = some (.keyword k)
  undivided : ∀ t ∈ tokenize query, t.kind ≠ .semicolon
  last : ∀ t, (tokenize query).dropLast.getLast? = some t → t.isSignificant = true

instance (k : Keyword) (query : Text) : Decidable (IsQuery k query) :=
  decidable_of_iff ((tokenize query).head?.map Token.kind = some (.keyword k) ∧
      (∀ t ∈ tokenize query, t.kind ≠ .semicolon) ∧
      ∀ t ∈ (tokenize query).dropLast.getLast?, t.isSignificant = true)
    ⟨fun h => ⟨h.1, h.2.1, h.2.2⟩, fun h => ⟨h.head, h.undivided, h.last⟩⟩

structure Query where
  head : Keyword
  text : Text
  tail : Text

def Statement.query? : Statement → Option Query
  | select sql table => some ⟨.select, sql, asText ++ table.render⟩
  | verbatim kind body => some ⟨kind.keyword, body, []⟩
  | _ => none

theorem Statement.render_of_query {s : Statement} {q : Query} (h : s.query? = some q) :
    s.render = q.text ++ q.tail := by
  cases s <;> simp only [query?, Option.some.injEq, reduceCtorEq] at h <;> subst h
  · exact List.append_assoc ..
  · exact (List.append_nil _).symm

def written (ss : List Statement) : Text := ss.flatMap Script.renderLine

/-- In the written form no query text takes in what stands behind it. -/
def StayOpen : List Statement → Prop
  | [] => True
  | s :: ss =>
    (∀ q, s.query? = some q → StaysOpen q.text (q.tail ++ ';' :: '\n' :: written ss)) ∧
      StayOpen ss

def Name.IsReadable (n : Name) : Prop := n.value ≠ []

instance (n : Name) : Decidable n.IsReadable := inferInstanceAs (Decidable (n.value ≠ []))

def DottedName.IsReadable (n : DottedName) : Prop := n.parts ≠ [] ∧ ∀ m ∈ n.parts, m.IsReadable

instance (d : DottedName) : Decidable d.IsReadable :=
  inferInstanceAs (Decidable (d.parts ≠ [] ∧ ∀ m ∈ d.parts, m.IsReadable))

def FormatPath.IsReadable (f : FormatPath) : Prop := f.format.IsReadable ∧ f.path.IsReadable

instance (f : FormatPath) : Decidable f.IsReadable :=
  inferInstanceAs (Decidable (f.format.IsReadable ∧ f.path.IsReadable))

def Database.IsReadable : Database → Prop
  | name n => n.IsReadable
  | dotted d => d.IsReadable

instance : DecidablePred Database.IsReadable
  | .name n => inferInstanceAs (Decidable n.IsReadable)
  | .dotted d => inferInstanceAs (Decidable d.IsReadable)

def Clause.IsReadable (c : Clause) : Prop := ∀ a ∈ c.assignments, a.key.IsReadable

instance (c : Clause) : Decidable c.IsReadable :=
  inferInstanceAs (Decidable (∀ a ∈ c.assignments, a.key.IsReadable))

def SetValue.IsReadable : SetValue → Prop
  | name n => n.IsReadable
  | string _ => True
  | block v => Literal.Block.IsPlain v

instance : DecidablePred SetValue.IsReadable
  | .name n => inferInstanceAs (Decidable n.IsReadable)
  | .string _ => .isTrue trivial
  | .block v => inferInstanceAs (Decidable (Literal.Block.IsPlain v))

def IsLineComment (text : Text) : Prop :=
  (['-', '-'] <+: text ∨ ['/', '/'] <+: text) ∧ '\n' ∉ text

instance (t : Text) : Decidable (IsLineComment t) :=
  inferInstanceAs (Decidable ((['-', '-'] <+: t ∨ ['/', '/'] <+: t) ∧ '\n' ∉ t))

def Statement.IsReadable : Statement → Prop
  | load source options table => source.IsReadable ∧ options.IsReadable ∧ table.IsReadable
  | save _ table sink options column =>
    table.IsReadable ∧ sink.IsReadable ∧ options.IsReadable ∧ ∀ n ∈ column, n.IsReadable
  | select sql table => IsQuery .select sql ∧ table.IsReadable
  | verbatim kind body => IsQuery kind.keyword body
  | setting key value options => key.IsReadable ∧ value.IsReadable ∧ options.IsReadable
  | connect format options database =>
    format.IsReadable ∧ options.IsReadable ∧ ∀ d ∈ database, d.IsReadable
  | model _ table target options => table.IsReadable ∧ target.IsReadable ∧ options.IsReadable
  | registration kind target function options =>
    target.IsReadable ∧ options.IsReadable ∧
      (kind = .register → ∃ f, function = some f ∧ f.IsReadable)
  | inclusion target options => target.IsReadable ∧ options.IsReadable
  | comment text => IsLineComment text

instance (o : Option Name) : Decidable (∃ f, o = some f ∧ f.IsReadable) :=
  match o with
  | none => .isFalse nofun
  | some f => decidable_of_iff f.IsReadable ⟨fun h => ⟨f, rfl, h⟩, fun ⟨_, e, h⟩ => Option.some.inj e ▸ h⟩

instance : DecidablePred Statement.IsReadable
  | .load .. => inferInstanceAs (Decidable (_ ∧ _ ∧ _))
  | .save .. => inferInstanceAs (Decidable (_ ∧ _ ∧ _ ∧ ∀ n ∈ _, Name.IsReadable n))
  | .select .. => inferInstanceAs (Decidable (_ ∧ _))
  | .verbatim .. => inferInstanceAs (Decidable (IsQuery _ _))
  | .setting .. => inferInstanceAs (Decidable (_ ∧ _ ∧ _))
  | .connect .. => inferInstanceAs (Decidable (_ ∧ _ ∧ ∀ d ∈ _, Database.IsReadable d))
  | .model .. => inferInstanceAs (Decidable (_ ∧ _ ∧ _))
  | .registration .. => inferInstanceAs (Decidable (_ ∧ _ ∧ (_ → _)))
  | .inclusion .. => inferInstanceAs (Decidable (_ ∧ _))
  | .comment _ => inferInstanceAs (Decidable (IsLineComment _))

end PipelineScript
