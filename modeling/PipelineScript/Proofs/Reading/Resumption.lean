import PipelineScript.Proofs.Reading.Faults
import PipelineScript.Proofs.Reading.Limits
import PipelineScript.Proofs.Rendering.WellFormed

/-!
# Runs that go on where others have stopped

A run that stops behind a fault leaves the tokens that the faulty statement has
not used, and none of its statements stands for one of these.
-/

namespace PipelineScript

/-- So many diagnostics do not stop a run yet; a limit of zero stops at the first one. -/
def Settings.Allows (settings : Settings) (count : Nat) : Prop :=
  ∀ k, settings.maxDiagnostics = some k → count < max k 1

theorem Settings.allows_zero (settings : Settings) : settings.Allows 0 := fun k _ => by omega

theorem Settings.Allows.reaches_iff {settings : Settings} {count : Nat} (h : settings.Allows count) :
    settings.reaches (count + 1) = true ↔ settings.maxDiagnostics.map (max · 1) = some (count + 1) := by
  unfold Settings.reaches
  cases hm : settings.maxDiagnostics with
  | none => simp
  | some k =>
    have := h k hm
    simp only [Option.any_some, decide_eq_true_eq, Option.map_some, Option.some.injEq]
    omega

theorem Settings.Allows.succ {settings : Settings} {count : Nat} (h : settings.reaches (count + 1) = false) :
    settings.Allows (count + 1) := fun k hk => by
  have hle : ¬ k ≤ count + 1 := by simpa [Settings.reaches, hk] using h
  omega

namespace Segment

theorem heads_located {s : Segment} (hp : Syntax.Piece s.tokens) (comments : Bool) :
    Token.Marks Heads (s.located comments s.answer) s.stream := by
  rw [← located_report]
  exact (heads_report hp comments).of_sublist (List.sublist_append_left ..)

theorem heads_of_fault {s : Segment} {head : Token} {f : Failure} (hs : s.content = .fault head f) (comments : Bool) :
    Token.Marks Heads (s.located comments s.answer) s.lead := by
  have hlead : s.located comments s.answer = commentsAt comments s.lead := by
    rw [answer, hs]
    rfl
  rw [hlead]
  exact heads_commentsAt comments s.lead

theorem exists_used (s : Segment) (f : Failure) : ∃ used, s.body = used ++ s.unread f :=
  ⟨_, (Token.takeSignificant_append_dropSignificant _ s.body).symm⟩

theorem piece_unread {s : Segment} (hp : Syntax.Piece s.tokens) (f : Failure) : Syntax.Piece (s.unread f) := by
  obtain ⟨used, hused⟩ := s.exists_used f
  have hmem : ∀ t ∈ s.unread f, t ∈ s.tokens := fun t ht =>
    mem_tokens_of_mem_body (hused ▸ List.mem_append_right used ht)
  exact ⟨fun t ht => hp.inner t (hmem t ht), fun t ht => hp.named t (hmem t ht)⟩

end Segment

/-! ## How a reading ends -/

namespace Reading

def faults (ss : List Segment) : Nat := (ss.filterMap fun s => s.answer.diagnostic?).length

theorem faults_append (ss us : List Segment) : faults (ss ++ us) = faults ss + faults us := by
  rw [faults, List.filterMap_append, List.length_append, faults, faults]

theorem faults_singleton (s : Segment) : faults [s] = s.answer.diagnostic?.toList.length := by
  rw [faults, List.filterMap_eq_flatMap_toList, List.flatMap_singleton]

inductive Ends (settings : Settings) (reported : Nat) (ss : List Segment) : Reading → Prop
  | finished (h : settings.Allows (reported + faults ss)) : Ends settings reported ss ⟨ss.flatMap Segment.report, []⟩
  | stopped {k : Nat} {read rest : List Segment} {s : Segment} {head : Token} {f : Failure}
    (hk : settings.maxDiagnostics = some k) (hss : ss = read ++ s :: rest) (hs : s.content = .fault head f)
    (hn : reported + faults (read ++ [s]) = max k 1) :
    Ends settings reported ss
      ⟨read.flatMap Segment.report ++
          (Outcome.comments s.lead ++ [.fault head (f.diagnostic s.terminator) .stopped]),
        ⟨s.unread f, s.terminator⟩ :: rest⟩

theorem Ends.after {settings : Settings} {reported : Nat} {s : Segment} {ss : List Segment} {r : Reading}
    (h : Ends settings (reported + faults [s]) ss r) : Ends settings reported (s :: ss) (r.after s.report) := by
  have hcons (us : List Segment) : reported + faults (s :: us) = reported + faults [s] + faults us := by
    rw [← List.singleton_append, faults_append, Nat.add_assoc]
  cases h with
  | finished h =>
    rw [Reading.after, ← List.flatMap_cons]
    exact .finished (by rwa [hcons])
  | @stopped k read rest x head f hk hss hs hn =>
    rw [Reading.after, ← List.append_assoc, ← List.flatMap_cons]
    exact .stopped hk (by rw [hss, List.cons_append]) hs (by rw [List.cons_append, hcons, hn])

theorem ends_ofSegments (settings : Settings) : ∀ {reported : Nat} (ss : List Segment), settings.Allows reported →
    Ends settings reported ss (ofSegments settings reported ss)
  | _, [], h => .finished h
  | reported, s :: ss, h => by
    -- a segment without a fault leaves the count as it is
    have quiet (hs : s.answer.diagnostic? = none) :
        Ends settings reported (s :: ss) ((ofSegments settings reported ss).after s.report) := by
      refine Ends.after ?_
      rw [faults_singleton, hs]
      exact ends_ofSegments settings ss h
    rw [ofSegments]
    cases hc : s.content with
    | blank =>
      have hs := quiet (by rw [Segment.answer, hc]; rfl)
      rwa [Segment.report, hc] at hs
    | statement head st =>
      have hs := quiet (by rw [Segment.answer, hc]; rfl)
      rwa [Segment.report, hc] at hs
    | fault head f =>
      have hone : faults [s] = 1 := by
        rw [faults_singleton, Segment.answer, hc]
        rfl
      cases hr : settings.reaches (reported + 1) with
      | true =>
        obtain ⟨k, hk, hmax⟩ := Option.map_eq_some_iff.mp (h.reaches_iff.mp hr)
        simp only [if_true]
        exact @Ends.stopped _ _ _ k [] ss s head f hk rfl hc (by rw [List.nil_append, hone, hmax])
      | false =>
        simp only [Bool.false_eq_true, if_false]
        have hs : Ends settings reported (s :: ss) ((ofSegments settings (reported + 1) ss).after s.report) := by
          refine Ends.after ?_
          rw [hone]
          exact ends_ofSegments settings ss (Settings.Allows.succ hr)
        rwa [Segment.report, hc] at hs

end Reading

theorem Output.ofOutcomes_stopped (settings : Settings) (read : List Segment) {s : Segment} {head : Token} {f : Failure}
    (hs : s.content = .fault head f) :
    ofOutcomes settings (read.flatMap Segment.report ++
        (Outcome.comments s.lead ++ [.fault head (f.diagnostic s.terminator) .stopped])) =
      ofSegments settings.commentStatements (read ++ [s]) := by
  rw [← ofOutcomes_reports, List.flatMap_append, List.flatMap_singleton, Segment.report, hs, ← ofOutcomes_halted,
    ← ofOutcomes_halted settings (_ ++ (_ ++ [_]))]
  simp only [List.map_append, List.map_cons, Outcome.halted]

namespace Session

def tokens (s : Session) : List Token := s.remaining.flatMap Segment.stream

inductive Ends (s : Session) : Prop
  | finished (hleft : s.output.2.remaining = [])
    (hout : s.output.1 = .ofSegments s.settings.commentStatements s.remaining)
    (hn : s.settings.Allows (Reading.faults s.remaining))
  | stopped {k : Nat} {read rest : List Segment} {x : Segment} {head : Token} {f : Failure}
    (hk : s.settings.maxDiagnostics = some k) (hss : s.remaining = read ++ x :: rest) (hx : x.content = .fault head f)
    (hleft : s.output.2.remaining = ⟨x.unread f, x.terminator⟩ :: rest)
    (hout : s.output.1 = .ofSegments s.settings.commentStatements (read ++ [x]))
    (hn : Reading.faults (read ++ [x]) = max k 1)

theorem ends (s : Session) : s.Ends := by
  have hallows := s.settings.allows_zero
  have houtput : s.output.1 = .ofOutcomes s.settings (Reading.ofSegments s.settings 0 s.remaining).outcomes := rfl
  have hremaining : s.output.2.remaining = (Reading.ofSegments s.settings 0 s.remaining).remaining := rfl
  generalize hr : Reading.ofSegments s.settings 0 s.remaining = r at houtput hremaining
  have hends := Reading.ends_ofSegments s.settings s.remaining hallows
  rw [hr] at hends
  cases hends with
  | finished h =>
    rw [Nat.zero_add] at h
    exact .finished hremaining (houtput.trans (Output.ofOutcomes_reports ..)) h
  | stopped hk hss hx hn =>
    rw [Nat.zero_add] at hn
    exact .stopped hk hss hx hremaining (houtput.trans (Output.ofOutcomes_stopped _ _ hx)) hn

theorem length_diagnostics_le (s : Session) {k : Nat} (hk : s.settings.maxDiagnostics = some k) :
    s.output.1.diagnostics.length ≤ max k 1 := by
  cases s.ends with
  | finished hleft hout hn =>
    rw [hout]
    exact Nat.le_of_lt (hn k hk)
  | stopped hk' hss hx hleft hout hn =>
    obtain rfl := Option.some.inj (hk.symm.trans hk')
    rw [hout]
    exact Nat.le_of_eq hn

theorem remaining_eq_nil {s : Session} (h : s.settings.Allows s.output.1.diagnostics.length) :
    s.output.2.remaining = [] := by
  cases s.ends with
  | finished hleft hout hn => exact hleft
  | stopped hk hss hx hleft hout hn =>
    have hlt := h _ hk
    rw [hout] at hlt
    exact absurd hn (Nat.ne_of_lt hlt)

def HasPieces (s : Session) : Prop := ∀ x ∈ s.remaining, Syntax.Piece x.tokens

theorem hasPieces_ofSource (settings : Settings) (source : Text) : (ofSource settings source).HasPieces :=
  fun _ hx => Segment.piece_tokenize hx

theorem HasPieces.output {s : Session} (h : s.HasPieces) : s.output.2.HasPieces := by
  intro y hy
  cases s.ends with
  | finished hleft =>
    rw [hleft] at hy
    cases hy
  | @stopped k read rest x head f hk hss hx hleft =>
    rw [hleft] at hy
    rcases List.mem_cons.mp hy with rfl | hy
    · exact Segment.piece_unread (h x (by simp [hss])) f
    · exact h y (by simp [hss, hy])

/-- A run takes these of the tokens that are left: its statements stand for tokens that it takes, its diagnostics for
tokens that were left for it. -/
structure Takes (s : Session) (taken : List Token) : Prop where
  split : s.tokens = taken ++ s.output.2.tokens
  heads : Token.Marks Heads s.output.1.script.located taken
  blames : Token.Marks Segment.Blames s.output.1.diagnostics s.tokens

theorem heads_ofSegments {ss : List Segment} (h : ∀ x ∈ ss, Syntax.Piece x.tokens) (comments : Bool) :
    Token.Marks Heads (ss.flatMap fun x => x.located comments x.answer) (ss.flatMap Segment.stream) :=
  Token.Marks.flatMap fun x hx => Segment.heads_located (h x hx) comments

theorem blames_ofSegments {ss : List Segment} (h : ∀ x ∈ ss, Syntax.Piece x.tokens) (comments : Bool) :
    Token.Marks Segment.Blames (Output.ofSegments comments ss).diagnostics (ss.flatMap Segment.stream) := by
  rw [Output.ofSegments, List.filterMap_eq_flatMap_toList]
  exact Token.Marks.flatMap fun x hx => Segment.blames_answer (h x hx).inner

theorem exists_takes {s : Session} (h : s.HasPieces) : ∃ taken, s.Takes taken := by
  cases s.ends with
  | finished hleft hout hn =>
    refine ⟨s.tokens, ?_, ?_, ?_⟩
    · rw [tokens, tokens, hleft, List.flatMap_nil, List.append_nil]
    · rw [hout, Output.ofSegments, Script.located_ofLocated]
      exact heads_ofSegments h _
    · rw [hout]
      exact blames_ofSegments h _
  | @stopped k read rest x head f hk hss hx hleft hout hn =>
    -- a faulty statement takes its lead and the tokens that it has used
    obtain ⟨used, hused⟩ := x.exists_used f
    have hread : ∀ y ∈ read ++ [x], Syntax.Piece y.tokens := fun y hy =>
      h y (by rw [hss, List.append_cons]; exact List.mem_append_left rest hy)
    refine ⟨read.flatMap Segment.stream ++ (x.lead ++ used), ?_, ?_, ?_⟩
    · rw [tokens, tokens, hleft, hss, List.flatMap_append, List.flatMap_cons, List.flatMap_cons, Segment.stream,
        Segment.stream, ← x.lead_append_body, hused]
      simp only [List.append_assoc]
    · rw [hout, Output.ofSegments, Script.located_ofLocated, List.flatMap_append, List.flatMap_singleton]
      refine (heads_ofSegments (fun y hy => hread y (List.mem_append_left _ hy)) _).append ?_
      exact (Segment.heads_of_fault hx _).of_sublist (List.sublist_append_left ..)
    · have htokens : s.tokens = (read ++ [x]).flatMap Segment.stream ++ rest.flatMap Segment.stream := by
        rw [tokens, hss, List.append_cons, List.flatMap_append]
      rw [hout, htokens]
      exact (blames_ofSegments hread _).of_sublist (List.sublist_append_left ..)

/-! ## All runs -/

theorem length_outputs : ∀ (n : Nat) (s : Session), (s.outputs n).length = n
  | 0, _ => rfl
  | n + 1, s => by rw [outputs, List.length_cons, length_outputs n]

theorem heads_outputs : ∀ (n : Nat) {s : Session}, s.HasPieces →
    Token.Marks Heads ((s.outputs n).flatMap fun o => o.script.located) s.tokens
  | 0, s, _ => .nil Heads s.tokens
  | n + 1, s, h => by
    obtain ⟨taken, htaken⟩ := exists_takes h
    rw [outputs, List.flatMap_cons, htaken.split]
    exact htaken.heads.append (heads_outputs n h.output)

theorem length_diagnostics_outputs : ∀ (n : Nat) {s : Session} {k : Nat}, s.settings.maxDiagnostics = some k →
    ∀ o ∈ s.outputs n, o.diagnostics.length ≤ max k 1
  | 0, _, _, _ => nofun
  | n + 1, s, k, hk => by
    rw [outputs, List.forall_mem_cons]
    exact ⟨s.length_diagnostics_le hk, length_diagnostics_outputs n hk⟩

theorem outputs_of_nil : ∀ (n : Nat) {s : Session}, s.remaining = [] → ∀ o ∈ s.outputs n, o = ⟨.empty, []⟩
  | 0, _, _ => nofun
  | n + 1, s, h => by
    have houtput : s.output = (⟨.empty, []⟩, s) := by
      rw [output, run, h, Reading.ofSegments, ← h]
      rfl
    rw [outputs, List.forall_mem_cons, houtput]
    exact ⟨rfl, outputs_of_nil n h⟩

theorem outputs_behind_last {settings : Settings} {o : Output} {after : List Output} :
    ∀ (n : Nat) {s : Session} {before : List Output}, s.settings = settings → s.outputs n = before ++ o :: after →
      settings.Allows o.diagnostics.length → ∀ o' ∈ after, o' = ⟨.empty, []⟩
  | 0, _, before, _, h, _ => by cases before <;> cases h
  | n + 1, s, [], hs, h, ho => by
    obtain ⟨rfl, rfl⟩ := List.cons.inj h
    exact outputs_of_nil n (remaining_eq_nil (hs ▸ ho))
  | n + 1, s, _ :: before, hs, h, ho => outputs_behind_last n (s := s.output.2) hs (List.cons.inj h).2 ho

end Session

end PipelineScript
