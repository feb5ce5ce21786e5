import PipelineScript.Cursor
import PipelineScript.Trace

/-!
# Runs that keep a log

A run can put its results and its events down as it comes to them. It takes the
same turns as any other.
-/

namespace PipelineScript

structure Log where
  script : Script
  diagnostics : List Diagnostic
  events : List Event
  deriving Repr, DecidableEq

namespace Log

def empty : Log := ⟨.empty, [], []⟩

def tell (l : Log) (e : Event) : Log := { l with events := l.events ++ [e] }

def push (l : Log) (s : Statement) (p : Position) : Log := { l with script := l.script.push s p }

def report (l : Log) (d : Diagnostic) : Log := { l.tell (.diagnostic d) with diagnostics := l.diagnostics ++ [d] }

end Log

/-! ## Turns -/

structure LoggedTurn where
  log : Log
  index : Nat
  goesOn : Bool
  deriving Repr, DecidableEq

namespace LoggedTurn

open Walk

def atHead (settings : Settings) (l : Log) (head : Token) (ts : List Token) (i : Nat) : Except Fault LoggedTurn :=
  let told := l.tell (.ofHead head)
  match endedStatement.run ts i with
  | .error f => .error f
  | .ok (.ok s, j) => .ok ⟨told.push s head.position, j, true⟩
  | .ok (.error d, j) =>
    let reported := told.report d
    if settings.reaches reported.diagnostics.length then .ok ⟨reported.tell .limitReached, j, false⟩
    else
      match synchronize ts j 0 with
      | .error f => .error f
      | .ok (k, skipped) => .ok ⟨reported.tell (.resynchronized skipped), k, true⟩

def take (settings : Settings) (l : Log) (ts : List Token) (i : Nat) : Except Fault LoggedTurn :=
  match skip (fun t => t.kind.isTrivia) ts i with
  | .error f => .error f
  | .ok j =>
    match tokenAt ts j with
    | .error f => .error f
    | .ok head =>
      match head.kind with
      | .endOfInput => .ok ⟨l, j, false⟩
      | .semicolon => .ok ⟨l, j + 1, true⟩
      | .lineComment =>
        .ok ⟨if settings.commentStatements then l.push (.comment head.lexeme) head.position else l, j + 1, true⟩
      | _ => atHead settings l head ts j

end LoggedTurn

namespace Log

def note (settings : Settings) (l : Log) : Outcome → Log
  | .comment t => if settings.commentStatements then l.push (.comment t.lexeme) t.position else l
  | .statement head s => (l.tell (.ofHead head)).push s head.position
  | .fault head d recovery => ((l.tell (.ofHead head)).report d).tell (.ofRecovery recovery)

end Log

def Turn.logged (settings : Settings) (l : Log) (t : Turn) : LoggedTurn :=
  ⟨t.outcome.toList.foldl (Log.note settings) l, t.index, t.goesOn⟩

namespace LoggedTurn

theorem atHead_eq (settings : Settings) (l : Log) (head : Token) (ts : List Token) (i : Nat) :
    atHead settings l head ts i =
      (Turn.atHead settings l.diagnostics.length head ts i).map (Turn.logged settings l) := by
  have hcount (d : Diagnostic) : ((l.tell (.ofHead head)).report d).diagnostics.length = l.diagnostics.length + 1 :=
    List.length_append
  unfold atHead Turn.atHead
  cases Walk.endedStatement.run ts i with
  | error f => rfl
  | ok p =>
    obtain ⟨result, j⟩ := p
    cases result with
    | ok s => rfl
    | error d =>
      simp only [hcount]
      cases settings.reaches (l.diagnostics.length + 1) with
      | true => rfl
      | false => cases Walk.synchronize ts j 0 <;> rfl

theorem take_eq (settings : Settings) (l : Log) (ts : List Token) (i : Nat) :
    take settings l ts i = (Turn.take settings l.diagnostics.length ts i).map (Turn.logged settings l) := by
  unfold take Turn.take
  cases Walk.skip (fun t => t.kind.isTrivia) ts i with
  | error f => rfl
  | ok j =>
    cases hhead : Walk.tokenAt ts j with
    | error f => simp only [hhead]; rfl
    | ok head =>
      simp only [hhead]
      cases head.kind with
      | endOfInput | semicolon | lineComment => rfl
      | _ => exact atHead_eq ..

theorem exists_turn {settings : Settings} {l : Log} {ts : List Token} {i : Nat} {t : LoggedTurn}
    (h : take settings l ts i = .ok t) :
    ∃ turn, Turn.take settings l.diagnostics.length ts i = .ok turn ∧ t = turn.logged settings l := by
  rw [take_eq] at h
  cases ht : Turn.take settings l.diagnostics.length ts i with
  | error f =>
    rw [ht] at h
    cases h
  | ok turn =>
    rw [ht] at h
    exact ⟨turn, rfl, (Except.ok.inj h).symm⟩

theorem take_ahead {settings : Settings} {l : Log} {ts : List Token} {i : Nat} {t : LoggedTurn}
    (h : take settings l ts i = .ok t) (hgo : t.goesOn = true) : i < t.index ∧ i < ts.length := by
  obtain ⟨turn, hturn, rfl⟩ := exists_turn h
  exact Turn.take_ahead hturn hgo

end LoggedTurn

/-! ## Runs -/

namespace Cursor

def logFrom (settings : Settings) (ts : List Token) (l : Log) (i : Nat) : Except Fault (Log × Nat) :=
  match _h : LoggedTurn.take settings l ts i with
  | .error f => .error f
  | .ok t => if _hgo : t.goesOn = true then logFrom settings ts t.log t.index else .ok (t.log, t.index)
termination_by ts.length - i
decreasing_by
  have := LoggedTurn.take_ahead _h _hgo
  omega

/-- The output and the trace of a run, and the cursor that it leaves. The last event counts what was put down. -/
def traced (c : Cursor) : Except Fault (Output × Trace × Cursor) :=
  match logFrom c.settings c.tokens .empty c.index with
  | .error f => .error f
  | .ok (l, j) =>
    let told := l.tell (.parsed l.script.size l.diagnostics.length)
    .ok (⟨told.script, told.diagnostics⟩, ⟨c.tokens.length, told.events⟩, { c with index := j })

end Cursor

end PipelineScript
