import PipelineScript.Proofs.Cursor.Runs
import PipelineScript.Proofs.Reading.Ending

/-!
# Run after run in bounds

A cursor and a session stay in step. Main statement: `outputs_in_bounds`.
-/

namespace PipelineScript

theorem Token.findIdx_endOfInput (ts : List Token) :
    (terminated ts).findIdx (fun t => t.kind == .endOfInput) = (beforeEnd ts).length := by
  obtain ⟨junk, hts⟩ := exists_terminated ts
  have hnone : (beforeEnd ts).findIdx (fun t => t.kind == .endOfInput) = (beforeEnd ts).length :=
    List.findIdx_eq_length.mpr fun t ht => by simpa using kind_of_mem_beforeEnd ht
  rw [hts, List.findIdx_append, hnone, if_neg (Nat.lt_irrefl _), List.findIdx_cons, ending_kind]
  simp

theorem Session.outputs_congr : ∀ (n : Nat) {s s' : Session}, s.settings = s'.settings → s.remaining = s'.remaining →
    outputs n s = outputs n s'
  | 0, _, _, _, _ => rfl
  | n + 1, s, s', hs, hr => by
    have hrun : s.run.1 = s'.run.1 := by rw [run, run, hs, hr]
    have hrest : outputs n s.output.2 = outputs n s'.output.2 :=
      outputs_congr n hs (by simp only [output, run, hs, hr])
    rw [outputs, outputs, hrest]
    simp only [output, hrun, hs]

def Session.left : Nat → Session → Session
  | 0, s => s
  | n + 1, s => left n s.output.2

namespace Cursor

/-- A cursor and a session that have the same left to read. -/
structure InStep (ending : List Token) (c : Cursor) (s : Session) : Prop where
  settings : s.settings = c.settings
  tracks : Tracks ending c.tokens c.index s.remaining

theorem inStep_ofTokens (settings : Settings) {ts front ending : List Token}
    (ht : Token.terminated ts = front ++ ending) :
    InStep ending (ofTokens settings ts) (Session.ofTokens settings ts) where
  settings := rfl
  tracks := ⟨by simp [ofTokens, ht], .inl rfl⟩

section
variable {e : Token} (he : e.kind = .endOfInput) {junk : List Token}
include he

theorem Tracks.agrees {ts : List Token} {i : Nat} {ss : List Segment} (h : Tracks (e :: junk) ts i ss)
    (settings : Settings) (reported : Nat) :
    Agrees (e :: junk) settings ts reported i (Reading.ofSegments settings reported ss) := by
  obtain rfl | ⟨rfl, x, after, hd, hx⟩ := h.left
  · exact agrees_segments he settings h.ahead reported
  · exact ⟨i, turns_stops (Turn.take_endOfInput (Walk.getElem?_of_drop hd) hx), h.ahead, .inr ⟨rfl, x, after, hd, hx⟩⟩

theorem InStep.output {c : Cursor} {s : Session} (h : InStep (e :: junk) c s) :
    ∃ j, c.output = .ok (s.output.1, { c with index := j }) ∧ InStep (e :: junk) { c with index := j } s.output.2 := by
  obtain ⟨j, hturns, htracks⟩ := h.tracks.agrees he c.settings 0
  refine ⟨j, ?_, h.settings, ?_⟩
  · simp only [Cursor.output, Cursor.run, hturns, Session.output, Session.run, h.settings]
  · simpa only [Session.output, Session.run, h.settings] using htracks

theorem InStep.outputs : ∀ (n : Nat) {c : Cursor} {s : Session}, InStep (e :: junk) c s →
    ∃ j, outputs n c = .ok (s.outputs n, { c with index := j }) ∧
      InStep (e :: junk) { c with index := j } (s.left n)
  | 0, c, s, h => ⟨c.index, rfl, h⟩
  | n + 1, c, s, h => by
    obtain ⟨k, houtput, hk⟩ := h.output he
    obtain ⟨j, houtputs, hj⟩ := InStep.outputs n hk
    exact ⟨j, by simp only [Cursor.outputs, houtput, houtputs, Session.outputs], hj⟩

end

theorem exists_outputs (settings : Settings) (n : Nat) (ts : List Token) :
    ∃ j, outputs n (ofTokens settings ts) =
        .ok (Session.outputs n (.ofTokens settings ts), ⟨settings, Token.terminated ts, j⟩) ∧
      j ≤ (Token.terminated ts).findIdx (fun t => t.kind == .endOfInput) ∧
      (Token.terminated ts).findIdx (fun t => t.kind == .endOfInput) < (Token.terminated ts).length := by
  obtain ⟨junk, hsplit⟩ := Token.exists_terminated ts
  obtain ⟨j, houtputs, hleft⟩ := (inStep_ofTokens settings hsplit).outputs (Token.ending_kind ts) n
  have hlen := congrArg List.length hsplit
  have hleft : (Token.ending ts :: junk).length ≤ ((Token.terminated ts).drop j).length := hleft.tracks.ahead.length_le
  rw [List.length_append, List.length_cons] at hlen
  rw [List.length_drop, List.length_cons] at hleft
  rw [Token.findIdx_endOfInput]
  exact ⟨j, houtputs, by omega, by omega⟩

/-- For any tokens, settings and number of runs: no access is out of bounds or past the first end of input. -/
theorem outputs_in_bounds (settings : Settings) (n : Nat) (ts : List Token) :
    (∃ j, outputs n (ofTokens settings ts) =
        .ok (Session.outputs n (.ofTokens settings ts), ⟨settings, Token.terminated ts, j⟩) ∧
      j ≤ (Token.terminated ts).findIdx (fun t => t.kind == .endOfInput) ∧
      (Token.terminated ts).findIdx (fun t => t.kind == .endOfInput) < (Token.terminated ts).length) ∧
    ∀ (lexeme : Text) (p : Position) (junk : List Token),
      (outputs n (ofTokens settings (ts ++ ⟨.endOfInput, lexeme, p⟩ :: junk))).map Prod.fst =
        (outputs n (ofTokens settings (ts ++ [⟨.endOfInput, lexeme, p⟩]))).map Prod.fst := by
  refine ⟨exists_outputs settings n ts, fun lexeme p junk => ?_⟩
  obtain ⟨j, hj, -⟩ := exists_outputs settings n (ts ++ ⟨.endOfInput, lexeme, p⟩ :: junk)
  obtain ⟨k, hk, -⟩ := exists_outputs settings n (ts ++ [⟨.endOfInput, lexeme, p⟩])
  rw [hj, hk]
  exact congrArg Except.ok (Session.outputs_congr n rfl (Segment.ofTokens_append_endOfInput rfl junk [] ts))

end Cursor

end PipelineScript
