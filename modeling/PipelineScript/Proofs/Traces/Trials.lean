import PipelineScript.Proofs.Edits.Insignificant
import PipelineScript.Proofs.Reading.Resumption
import PipelineScript.Proofs.Traces.Logs

/-!
# Tries at statements

A run tries to read a statement at the first significant token of every piece,
and tells of each try what came of it. Main statement: `traced_tells_output`.
-/

namespace PipelineScript

/-- The index just past the first semicolon from index `i` on, or that of the first end of input if it comes before. -/
def Token.resumption (ts : List Token) (i : Nat) : Nat :=
  let j := i + (ts.drop i).findIdx fun t => t.kind == .semicolon || t.kind == .endOfInput
  if ts[j]?.map kind = some .semicolon then j + 1 else j

theorem Stands.resumption_eq {ts : List Token} {i : Nat} {u : List Token} {e : Token} {after : List Token}
    (h : Stands ts i u e after) :
    Token.resumption ts i = i + (u.length + if e.kind = .semicolon then 1 else 0) := by
  have hinner : u.findIdx (fun t => t.kind == .semicolon || t.kind == .endOfInput) = u.length :=
    List.findIdx_eq_length.mpr fun t ht => by simp [(h.inner t ht).1, (h.inner t ht).2]
  have hended : (e.kind == .semicolon || e.kind == .endOfInput) = true := by
    rcases Token.kind_of_not_isInner h.ended with hk | hk <;> simp [hk]
  have hfind : (ts.drop i).findIdx (fun t => t.kind == .semicolon || t.kind == .endOfInput) = u.length := by
    rw [h.drop_eq, List.findIdx_append, hinner, if_neg (Nat.lt_irrefl _), List.findIdx_cons, hended]
    exact Nat.zero_add _
  have hget : ts[i + u.length]? = some e := by
    rw [h.getElem?_eq, List.getElem?_append_right (Nat.le_refl _), Nat.sub_self]
    rfl
  simp only [Token.resumption, hfind, hget, Option.map_some, Option.some.injEq]
  split <;> rfl

namespace Segment

def headIndices : Nat → List Segment → List Nat
  | _, [] => []
  | i, s :: ss => (s.tokens.findIdx? Token.isSignificant).toList.map (i + ·) ++ headIndices (i + s.stream.length) ss

theorem findIdx?_blank {s : Segment} (hb : s.body = []) : s.tokens.findIdx? Token.isSignificant = none := by
  rw [tokens_of_nil hb, List.findIdx?_eq_none_iff]
  exact Token.significant_eq_nil.mp s.significant_lead

theorem findIdx?_head {s : Segment} {head : Token} {rest : List Token} (hb : s.body = head :: rest) :
    s.tokens.findIdx? Token.isSignificant = some s.lead.length := by
  have hlead : s.lead.findIdx? Token.isSignificant = none :=
    List.findIdx?_eq_none_iff.mpr (Token.significant_eq_nil.mp s.significant_lead)
  rw [← s.lead_append_body, hb, List.findIdx?_append, hlead, List.findIdx?_cons, isSignificant_head hb]
  simp

theorem le_of_mem_headIndices : ∀ {ss : List Segment} {i j : Nat}, j ∈ headIndices i ss → i ≤ j
  | s :: ss, i, j, h => by
    rw [headIndices] at h
    rcases List.mem_append.mp h with h | h
    · obtain ⟨k, -, rfl⟩ := List.mem_map.mp h
      exact Nat.le_add_right i k
    · exact Nat.le_trans (Nat.le_add_right ..) (le_of_mem_headIndices h)

theorem pairwise_headIndices : ∀ (i : Nat) (ss : List Segment), (headIndices i ss).Pairwise (· < ·)
  | _, [] => .nil
  | i, s :: ss => by
    rw [headIndices]
    refine List.pairwise_append.mpr ⟨?_, pairwise_headIndices _ ss, fun j hj k hk => ?_⟩
    · cases s.tokens.findIdx? Token.isSignificant with
      | none => exact .nil
      | some n => exact List.pairwise_singleton ..
    · obtain ⟨n, hn, rfl⟩ := List.mem_map.mp hj
      have hlt := (List.findIdx?_eq_some_iff_findIdx_eq.mp (Option.mem_toList.mp hn)).1
      have := le_of_mem_headIndices hk
      rw [stream, List.length_append, List.length_singleton] at this
      omega

end Segment

/-! ## Trials -/

/-- One try at a statement: where its head stands, what came of it and where it has left the cursor. -/
structure Trial where
  index : Nat
  head : Token
  result : Except Diagnostic Statement
  left : Nat

namespace Trial

def located? (x : Trial) : Option (Position × Statement) :=
  match x.result with
  | .ok s => some (x.head.position, s)
  | .error _ => none

def diagnostic? (x : Trial) : Option Diagnostic :=
  match x.result with
  | .ok _ => none
  | .error d => some d

def told (settings : Settings) (ts : List Token) (reported : Nat) (x : Trial) : List Event.Record :=
  ⟨.trace, "dispatching statement", [("head", .text x.head.lexeme), ("line", .number x.head.position.line)]⟩ ::
    match x.result with
    | .ok _ => []
    | .error d =>
      [⟨.warn, d.message, [("code", .text d.code.toList), ("line", .number d.position.line),
          ("column", .number (d.position.column + 1))]⟩,
        if settings.maxDiagnostics.map (max · 1) = some (reported + 1) then
          ⟨.debug, "diagnostic limit reached, stopping", []⟩
        else ⟨.debug, "resynchronized after error", [("skipped", .number (Token.resumption ts x.index - x.left))]⟩]

def records (settings : Settings) (ts : List Token) : Nat → List Trial → List Event.Record
  | _, [] => []
  | reported, x :: xs =>
    x.told settings ts reported ++ records settings ts (reported + x.diagnostic?.toList.length) xs

/-- A trial that a run really makes: the walk from its head comes to its result, and behind a failed one the run goes
on past the first terminator from the head on. -/
structure Holds (ts : List Token) (x : Trial) : Prop where
  head : ts[x.index]? = some x.head
  run : Walk.endedStatement.run ts x.index = .ok (x.result, x.left)
  resumes : ∀ d, x.result = .error d → x.left ≤ Token.resumption ts x.index ∧
    Walk.synchronize ts x.left 0 = .ok (Token.resumption ts x.index, Token.resumption ts x.index - x.left)

section
variable {ts : List Token} {i : Nat} {head : Token} {rest : List Token} {e : Token} {after : List Token}
  (h : Stands ts i (head :: rest) e after) (hh : head.isSignificant = true)
include h hh

theorem exists_holds_statement {s : Statement} (hs : readStatement head rest = .ok s) :
    ∃ left, Holds ts ⟨i, head, .ok s, left⟩ := by
  have hends := Walk.ends_statement h hh
  rw [hs] at hends
  obtain ⟨j, hrun, -⟩ := hends
  exact ⟨j, Walk.getElem?_of_drop h.drop_eq, hrun, nofun⟩

theorem exists_holds_fault {f : Failure} (hf : readStatement head rest = .error f) :
    ∃ left, Holds ts ⟨i, head, .error (f.diagnostic e), left⟩ ∧ Token.resumption ts i - left =
      (Token.dropSignificant ((Token.significant (head :: rest)).length - f.unread.length) (head :: rest)).length +
        if e.kind = .semicolon then 1 else 0 := by
  have hends := Walk.ends_statement h hh
  rw [hf] at hends
  obtain ⟨j, hj, hrun⟩ := hends.exists_run
  -- what the statement has left unread is in front of the same terminator
  have hresumption : Token.resumption ts i = Token.resumption ts j := by
    have := h.index_eq hj
    rw [h.resumption_eq, hj.resumption_eq]
    omega
  have hdistance := Nat.sub_eq_of_eq_add' (hresumption.trans hj.resumption_eq)
  refine ⟨j, ⟨Walk.getElem?_of_drop h.drop_eq, hrun, fun d _ => ⟨?_, ?_⟩⟩, hdistance⟩
  · rw [hresumption, hj.resumption_eq]
    exact Nat.le_add_right ..
  · rw [Turn.synchronize_run hj 0, hdistance, Nat.zero_add, hresumption, hj.resumption_eq]

end

/-! ## What is told of outcomes -/

structure Tells (settings : Settings) (ts : List Token) (reported : Nat) (xs : List Trial) (os : List Outcome) :
    Prop where
  events : (os.flatMap Event.ofOutcome).map Event.record = records settings ts reported xs
  statements : (Outcome.located true os).filter (fun l => !l.2.isComment) = xs.filterMap located?
  diagnostics : os.filterMap Outcome.diagnostic? = xs.filterMap diagnostic?

section
variable {settings : Settings} {ts : List Token} {reported : Nat} {xs : List Trial} {os : List Outcome}

theorem tells_nil (settings : Settings) (ts : List Token) (reported : Nat) : Tells settings ts reported [] [] :=
  ⟨rfl, rfl, rfl⟩

theorem Tells.comments (h : Tells settings ts reported xs os) (us : List Token) :
    Tells settings ts reported xs (Outcome.comments us ++ os) where
  events := by
    have hnone : (Outcome.comments us).flatMap Event.ofOutcome = [] := by
      rw [Outcome.comments, List.flatMap_map]
      exact List.flatMap_eq_nil_iff.mpr fun _ _ => rfl
    rw [List.flatMap_append, hnone, List.nil_append, h.events]
  statements := by
    rw [Outcome.located_append, Outcome.located_comments, List.filter_append, Segment.filter_commentsAt,
      List.nil_append, h.statements]
  diagnostics := by rw [List.filterMap_append, Outcome.diagnostics_comments, List.nil_append, h.diagnostics]

theorem Tells.statement {s : Statement} (h : Tells settings ts reported xs os) (hs : s.isComment = false)
    (index left : Nat) (head : Token) :
    Tells settings ts reported (⟨index, head, .ok s, left⟩ :: xs) (.statement head s :: os) where
  events := by
    rw [List.flatMap_cons, List.map_append, h.events]
    rfl
  statements := by
    rw [Outcome.located_statement, List.filter_cons_of_pos (by simp [hs]), h.statements]
    rfl
  diagnostics := h.diagnostics

theorem Tells.fault (h : Tells settings ts (reported + 1) xs os) (index left : Nat) (head : Token) (d : Diagnostic)
    {recovery : Recovery}
    (hr : recovery = if settings.maxDiagnostics.map (max · 1) = some (reported + 1) then .stopped
      else .skipped (Token.resumption ts index - left)) :
    Tells settings ts reported (⟨index, head, .error d, left⟩ :: xs) (.fault head d recovery :: os) where
  events := by
    rw [List.flatMap_cons, List.map_append, h.events, hr]
    simp only [records, told]
    split <;> rfl
  statements := by
    rw [← List.singleton_append, Outcome.located_append, Outcome.located_fault, List.nil_append, h.statements]
    rfl
  diagnostics := congrArg (List.cons d) h.diagnostics

end

/-! ## Trials of pieces -/

structure Covers (settings : Settings) (ts : List Token) (reported i : Nat) (ss : List Segment) (os : List Outcome)
    (xs : List Trial) : Prop where
  pieces : ∃ read rest, ss = read ++ rest ∧ xs.map index = Segment.headIndices i read
  holds : ∀ x ∈ xs, x.Holds ts
  tells : Tells settings ts reported xs os

def Covered (settings : Settings) (ts : List Token) (i : Nat) (ss : List Segment) : Prop :=
  ∀ reported, settings.Allows reported →
    ∃ xs, Covers settings ts reported i ss (Reading.ofSegments settings reported ss).outcomes xs

section
variable {settings : Settings} {ts : List Token} {reported reported' i : Nat} {s : Segment} {ss : List Segment}
  {os us : List Outcome} {xs : List Trial} {head : Token} {rest : List Token} {after : List Token}

theorem covers_nil (settings : Settings) (ts : List Token) (reported i : Nat) (ss : List Segment) :
    Covers settings ts reported i ss [] [] where
  pieces := ⟨[], ss, rfl, rfl⟩
  holds := List.forall_mem_nil _
  tells := tells_nil settings ts reported

theorem Covers.blank (h : Covers settings ts reported (i + s.stream.length) ss os xs) (hb : s.body = []) :
    Covers settings ts reported i (s :: ss) (Outcome.comments s.lead ++ os) xs where
  pieces := by
    obtain ⟨read, rest, rfl, hread⟩ := h.pieces
    exact ⟨s :: read, rest, rfl, by rw [hread, Segment.headIndices, Segment.findIdx?_blank hb]; rfl⟩
  holds := h.holds
  tells := h.tells.comments s.lead

theorem Covers.cons (h : Covers settings ts reported' (i + s.stream.length) ss us xs) (hb : s.body = head :: rest)
    {x : Trial} (hx : x.Holds ts) (hi : x.index = i + s.lead.length) (ht : Tells settings ts reported (x :: xs) os) :
    Covers settings ts reported i (s :: ss) os (x :: xs) where
  pieces := by
    obtain ⟨read, rest, rfl, hread⟩ := h.pieces
    refine ⟨s :: read, rest, rfl, ?_⟩
    rw [List.map_cons, hread, hi, Segment.headIndices, Segment.findIdx?_head hb]
    rfl
  holds := List.forall_mem_cons.mpr ⟨hx, h.holds⟩
  tells := ht

theorem covered_blank (hothers : Covered settings ts (i + s.stream.length) ss) (hb : s.body = []) :
    Covered settings ts i (s :: ss) := by
  intro reported hallows
  obtain ⟨xs, hxs⟩ := hothers _ hallows
  rw [Reading.ofSegments, Segment.content_blank hb]
  exact ⟨xs, hxs.blank hb⟩

section
variable (h : Stands ts i s.tokens s.terminator after) (hothers : Covered settings ts (i + s.stream.length) ss)
  (hb : s.body = head :: rest)
include h hothers hb

theorem covered_statement {st : Statement} (hs : readStatement head rest = .ok st) :
    Covered settings ts i (s :: ss) := by
  intro reported hallows
  have hbody := Cursor.stands_body h
  rw [hb] at hbody
  obtain ⟨xs, hxs⟩ := hothers _ hallows
  obtain ⟨left, hleft⟩ := exists_holds_statement hbody (Segment.isSignificant_head hb) hs
  have htells := (hxs.tells.comments s.tail).statement (readStatement_not_comment hs) (i + s.lead.length) left head
  rw [Reading.ofSegments, Segment.content_statement hb hs]
  exact ⟨_, hxs.cons hb hleft rfl (by simpa [Reading.after] using htells.comments s.lead)⟩

theorem covered_fault {f : Failure} (hf : readStatement head rest = .error f) : Covered settings ts i (s :: ss) := by
  intro reported hallows
  have hbody := Cursor.stands_body h
  rw [hb] at hbody
  obtain ⟨left, hleft, hskipped⟩ := exists_holds_fault hbody (Segment.isSignificant_head hb) hf
  rw [← hb] at hskipped
  rw [Reading.ofSegments, Segment.content_fault hb hf]
  cases hr : settings.reaches (reported + 1) with
  | true =>
    have hlimit := hallows.reaches_iff.mp hr
    have htells := (tells_nil settings ts (reported + 1)).fault (i + s.lead.length) left head
      (f.diagnostic s.terminator) (if_pos hlimit).symm
    exact ⟨_, (covers_nil settings ts (reported + 1) _ ss).cons hb hleft rfl (htells.comments s.lead)⟩
  | false =>
    obtain ⟨xs, hxs⟩ := hothers _ (Settings.Allows.succ hr)
    have hlimit : ¬ settings.maxDiagnostics.map (max · 1) = some (reported + 1) := fun hmax => by
      rw [hallows.reaches_iff.mpr hmax] at hr
      cases hr
    have htells := hxs.tells.fault (i + s.lead.length) left head (f.diagnostic s.terminator) (if_neg hlimit).symm
    rw [hskipped] at htells
    refine ⟨_, hxs.cons hb hleft rfl ?_⟩
    simpa [Reading.after, Segment.unread, Segment.isClosed] using htells.comments s.lead

end

theorem covered_cons (h : Stands ts i s.tokens s.terminator after)
    (hothers : Covered settings ts (i + s.stream.length) ss) : Covered settings ts i (s :: ss) := by
  cases hb : s.body with
  | nil => exact covered_blank hothers hb
  | cons head rest =>
    cases hread : readStatement head rest with
    | ok st => exact covered_statement h hothers hb hread
    | error f => exact covered_fault h hothers hb hread

end

end Trial

/-! ## The trials of a run -/

theorem Outcome.located_without_comments (comments : Bool) (os : List Outcome) :
    (located comments os).filter (fun l => !l.2.isComment) = (located true os).filter fun l => !l.2.isComment := by
  rw [located, located, List.filterMap_filter, List.filterMap_filter, List.filter_filterMap, List.filter_filterMap]
  congr 1
  funext o
  cases o with
  | comment t => cases comments <;> rfl
  | statement head s => cases comments <;> rfl
  | fault head d r => cases comments <;> rfl

theorem Output.withoutComments_ofOutcomes (settings : Settings) (os : List Outcome) :
    (ofOutcomes settings os).withoutComments =
      ⟨.ofLocated ((Outcome.located true os).filter fun l => !l.2.isComment), os.filterMap Outcome.diagnostic?⟩ := by
  rw [withoutComments, ofOutcomes, Script.located_ofLocated,
    ← Outcome.located_without_comments settings.commentStatements]
  rfl

namespace Trial

/-- The trace and the output of a run from index `i` on both tell of these trials: one at the first significant token
of every piece that was read. -/
structure Account (settings : Settings) (ts : List Token) (i : Nat) (o : Output) (t : Trace) (xs : List Trial) :
    Prop where
  records : t.records = ⟨.debug, "parse_script", [("tokens", .number ts.length)]⟩ :: (records settings ts 0 xs ++
    [⟨.debug, "parsed script", [("statements", .number o.script.statements.length),
      ("diagnostics", .number o.diagnostics.length)]⟩])
  results : o.withoutComments = ⟨.ofLocated (xs.filterMap located?), xs.filterMap diagnostic?⟩
  pieces : ∃ read rest, Segment.all (ts.drop i) = read ++ rest ∧ xs.map index = Segment.headIndices i read
  ordered : xs.Pairwise fun x y => x.index < y.index
  holds : ∀ x ∈ xs, x.Holds ts

end Trial

theorem Session.tokenCount_left : ∀ (n : Nat) (s : Session), (s.left n).tokenCount = s.tokenCount
  | 0, _ => rfl
  | n + 1, s => tokenCount_left n s.output.2

namespace Cursor

section
variable {e₀ : Token} (he₀ : e₀.kind = .endOfInput) {junk : List Token}
include he₀

theorem covered_all (settings : Settings) {ts : List Token} {i : Nat} (hlast : e₀ :: junk <:+ ts.drop i) :
    Trial.Covered settings ts i (Segment.all (ts.drop i)) := by
  refine piece_induction he₀ (motive := fun i => Trial.Covered settings ts i (Segment.all (ts.drop i)))
    (fun {i u e after} h _ ih => ?_) hlast
  rw [all_eq_othersBehind h]
  refine Trial.covered_cons (s := ⟨u, e⟩) h ?_
  have hlength : (Segment.stream ⟨u, e⟩).length = u.length + 1 := List.length_append
  rw [othersBehind, hlength]
  split
  · next hk =>
    have hbehind : ts.drop (i + (u.length + 1)) = after := Walk.drop_behind h
    have hothers := ih hk hbehind
    rwa [hbehind] at hothers
  · exact fun _ _ => ⟨[], Trial.covers_nil ..⟩

theorem Tracks.exists_covers {ts : List Token} {i : Nat} {ss : List Segment} (h : Tracks (e₀ :: junk) ts i ss)
    (settings : Settings) :
    ∃ xs, Trial.Covers settings ts 0 i (Segment.all (ts.drop i)) (Reading.ofSegments settings 0 ss).outcomes xs := by
  obtain rfl | ⟨rfl, -⟩ := h.left
  · exact covered_all he₀ settings h.ahead 0 settings.allows_zero
  · exact ⟨[], Trial.covers_nil ..⟩

theorem InStep.exists_account {c : Cursor} {s : Session} (h : InStep (e₀ :: junk) c s)
    (hn : s.tokenCount = c.tokens.length) :
    ∃ xs, Trial.Account c.settings c.tokens c.index s.output.1 s.trace xs := by
  obtain ⟨xs, hxs⟩ := h.tracks.exists_covers he₀ c.settings
  refine ⟨xs, ?_, ?_, hxs.pieces, ?_, hxs.holds⟩
  · rw [h.trace_eq hn, h.output_eq, ← hxs.tells.events, Trace.records, Trace.ofOutcomes, List.map_append]
    rfl
  · rw [h.output_eq, Output.withoutComments_ofOutcomes, hxs.tells.statements, hxs.tells.diagnostics]
  · obtain ⟨read, rest, -, hread⟩ := hxs.pieces
    refine List.pairwise_map.mp ?_
    rw [hread]
    exact Segment.pairwise_headIndices c.index read

end

/-- For any tokens and settings, and whatever number of runs has been made before: the run of a cursor that keeps a log
comes to the output that it comes to without one, its trace is that of a session, and both tell of the same trials. -/
theorem traced_tells_output (settings : Settings) (ts : List Token) (n : Nat) :
    ∃ os c, outputs n (ofTokens settings ts) = .ok (os, c) ∧ c.tokens = Token.terminated ts ∧
      ∃ o t c' xs, c.output = .ok (o, c') ∧ c.traced = .ok (o, t, c') ∧
        t = ((Session.ofTokens settings ts).left n).trace ∧ Trial.Account settings c.tokens c.index o t xs := by
  have he := Token.ending_kind ts
  obtain ⟨junk, hsplit⟩ := Token.exists_terminated ts
  obtain ⟨j, houtputs, hleft⟩ := (inStep_ofTokens settings hsplit).outputs he n
  have hn := Session.tokenCount_left n (.ofTokens settings ts)
  obtain ⟨c', houtput, htraced⟩ := hleft.traced he hn
  obtain ⟨xs, hxs⟩ := hleft.exists_account he hn
  exact ⟨_, _, houtputs, rfl, _, _, c', xs, houtput, htraced, rfl, hxs⟩

/-- Two faulty statements, of which the second one reaches the limit. -/
example :
    let name : Token := ⟨.identifier, ['x'], ⟨0, 1, 0⟩⟩
    let link : Token := ⟨.keyword .as, "as".toList, ⟨2, 1, 2⟩⟩
    let stop : Token := ⟨.semicolon, [';'], ⟨4, 1, 4⟩⟩
    let t := (Session.ofTokens { maxDiagnostics := some 2 } [name, link, stop, link]).trace
    t.records.map Event.Record.message =
      ["parse_script", "dispatching statement", "'x' does not start a statement", "resynchronized after error",
        "dispatching statement", "'as' does not start a statement", "diagnostic limit reached, stopping",
        "parsed script"] ∧
      .resynchronized 3 ∈ t.events ∧ t.events.getLast? = some (.parsed 0 2) := by
  decide

end Cursor

end PipelineScript
