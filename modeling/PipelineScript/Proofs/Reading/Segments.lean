import PipelineScript.Segment

/-!
# Streams as closed segments and a rest

Without an end of input a stream is the text of its closed segments and a run of
tokens that no semicolon ends.
-/

namespace PipelineScript

def Token.IsInner (t : Token) : Prop := t.kind ≠ .semicolon ∧ t.kind ≠ .endOfInput

theorem Token.isInner_of_not_significant {t : Token} (h : t.isSignificant = false) : t.IsInner := by
  constructor <;> (intro hk; simp [isSignificant, hk, Kind.isSignificant, Kind.isTrivia] at h)

namespace Segment

def all (ts : List Token) : List Segment := (cut ts).1 :: (cut ts).2

theorem ofTokens_eq_all (ts : List Token) : ofTokens ts = all (Token.terminated ts) := rfl

def stream (s : Segment) : List Token := s.tokens ++ [s.terminator]

structure IsClosed (s : Segment) : Prop where
  inner : ∀ t ∈ s.tokens, t.IsInner
  closed : s.terminator.kind = .semicolon

/-! ## Cutting a run -/

theorem cut_run : ∀ {run : List Token}, (∀ t ∈ run, t.IsInner) → ∀ ts : List Token,
    cut (run ++ ts) = (⟨run ++ (cut ts).1.tokens, (cut ts).1.terminator⟩, (cut ts).2)
  | [], _, _ => rfl
  | t :: run, h, ts => by
    have ht := h t List.mem_cons_self
    rw [List.cons_append, cut_other ht.1 ht.2, cut_run fun x hx => h x (List.mem_cons_of_mem _ hx)]
    rfl

theorem all_run {run : List Token} (h : ∀ t ∈ run, t.IsInner) (ts : List Token) :
    all (run ++ ts) = ⟨run ++ (cut ts).1.tokens, (cut ts).1.terminator⟩ :: (cut ts).2 := by
  rw [all, cut_run h]

theorem all_semicolon {run : List Token} (h : ∀ t ∈ run, t.IsInner) {t : Token} (ht : t.kind = .semicolon)
    (ts : List Token) : all (run ++ t :: ts) = ⟨run, t⟩ :: all ts := by
  unfold all
  rw [cut_run h, cut_semicolon ht, List.append_nil]

theorem all_endOfInput {run : List Token} (h : ∀ t ∈ run, t.IsInner) {t : Token} (ht : t.kind = .endOfInput)
    (ts : List Token) : all (run ++ t :: ts) = [⟨run, t⟩] := by
  unfold all
  rw [cut_run h, cut_endOfInput ht, List.append_nil]

theorem all_closed : ∀ {ss : List Segment}, (∀ s ∈ ss, s.IsClosed) → ∀ ts : List Token,
    all (ss.flatMap stream ++ ts) = ss ++ all ts
  | [], _, _ => rfl
  | s :: ss, h, ts => by
    have hs := h s List.mem_cons_self
    have ih := all_closed (fun x hx => h x (List.mem_cons_of_mem _ hx)) ts
    have hc := all_semicolon hs.inner hs.closed (ss.flatMap stream ++ ts)
    rw [ih] at hc
    simpa [stream] using hc

theorem exists_closed : ∀ {ts : List Token}, (∀ t ∈ ts, t.kind ≠ .endOfInput) →
    ∃ (ss : List Segment) (run : List Token),
      (∀ s ∈ ss, s.IsClosed) ∧ (∀ t ∈ run, t.IsInner) ∧ ts = ss.flatMap stream ++ run
  | [], _ => ⟨[], [], by simp, by simp, rfl⟩
  | t :: ts, h => by
    have ht := h t List.mem_cons_self
    obtain ⟨ss, run, hss, hrun, rfl⟩ := exists_closed fun x hx => h x (List.mem_cons_of_mem _ hx)
    by_cases hk : t.kind = .semicolon
    · refine ⟨⟨[], t⟩ :: ss, run, ?_, hrun, rfl⟩
      intro s hs
      rcases List.mem_cons.mp hs with rfl | hs
      · exact ⟨by simp, hk⟩
      · exact hss s hs
    · cases ss with
      | nil =>
        refine ⟨[], t :: run, by simp, ?_, rfl⟩
        intro x hx
        rcases List.mem_cons.mp hx with rfl | hx
        · exact ⟨hk, ht⟩
        · exact hrun x hx
      | cons s ss =>
        -- the token joins the segment behind it
        refine ⟨⟨t :: s.tokens, s.terminator⟩ :: ss, run, ?_, hrun, by simp [stream]⟩
        have hs := hss s List.mem_cons_self
        intro x hx
        rcases List.mem_cons.mp hx with rfl | hx
        · refine ⟨fun y hy => ?_, hs.closed⟩
          rcases List.mem_cons.mp hy with rfl | hy
          · exact ⟨hk, ht⟩
          · exact hs.inner y hy
        · exact hss x (List.mem_cons_of_mem _ hx)

theorem exists_closed_of_semicolon {ts : List Token} (h : ∀ t ∈ ts, t.kind ≠ .endOfInput)
    (hl : ∃ t, ts.getLast? = some t ∧ t.kind = .semicolon) :
    ∃ ss : List Segment, (∀ s ∈ ss, s.IsClosed) ∧ ts = ss.flatMap stream := by
  obtain ⟨ss, run, hss, hrun, rfl⟩ := exists_closed h
  obtain ⟨t, ht, hk⟩ := hl
  cases hr : run.getLast? with
  | none =>
    obtain rfl := List.getLast?_eq_none_iff.mp hr
    exact ⟨ss, hss, by simp⟩
  | some x =>
    rw [List.getLast?_append, hr] at ht
    obtain rfl := Option.some.inj ht
    exact absurd hk (hrun x (List.mem_of_getLast? hr)).1

theorem terminated_append (ts : List Token) {us : List Token} (h : us ≠ []) :
    Token.terminated (ts ++ us) = ts ++ Token.terminated us := by
  unfold Token.terminated
  rw [List.getLast?_append]
  cases hl : us.getLast? with
  | none => exact absurd (List.getLast?_eq_none_iff.mp hl) h
  | some t =>
    simp only [Option.some_or]
    split
    · rfl
    · rw [List.append_assoc]

theorem terminated_of_semicolon {ts : List Token} {t : Token} (hl : ts.getLast? = some t)
    (ht : t.kind = .semicolon) : Token.terminated ts = ts ++ [.endOfInput t.endPosition] := by
  simp [Token.terminated, hl, ht]

end Segment

end PipelineScript
