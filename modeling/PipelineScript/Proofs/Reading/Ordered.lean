import Mathlib.Data.List.Forall2
import PipelineScript.Proofs.Lexing.Positions
import PipelineScript.Proofs.Reading.Accounting

/-!
# Results in the order of the source

A run reads the first of the segments and comes to what they come to, so its
results are in the order of the tokens that they stand for.
-/

namespace PipelineScript

theorem offset_le_of_mem {p : Position} {s : Text} {t : Token} (h : t ∈ tokensAt p s) :
    p.offset ≤ t.position.offset := by
  obtain ⟨before, after, hs⟩ := List.append_of_mem h
  rw [position_eq_past hs, Position.past_offset]
  omega

theorem offset_lt_of_mem {p : Position} {c : Char} {s : Text} {t : Token}
    (h : t ∈ tokensAt (firstToken p c s).endPosition (afterFirst c s)) : p.offset < t.position.offset := by
  have hle := offset_le_of_mem h
  have hpos := c.utf8Size_pos
  rw [Token.endPosition_offset, Token.endOffset] at hle
  simp only [firstToken, Text.byteLength_cons] at hle
  omega

theorem offsets_tokensAt (p : Position) (s : Text) :
    (tokensAt p s).Pairwise fun t u => t.position.offset < u.position.offset := by
  fun_induction tokensAt p s with
  | case1 p => exact List.pairwise_singleton ..
  | case2 p c s ih => exact List.pairwise_cons.mpr ⟨fun t ht => offset_lt_of_mem ht, ih⟩

theorem offset_le_byteSize {source : Text} {t : Token} (h : t ∈ tokenize source) :
    t.position.offset ≤ (String.ofList source).utf8ByteSize := by
  obtain ⟨before, after, hs⟩ := List.append_of_mem h
  have htext := text_tokensAt .start source
  rw [show tokensAt .start source = before ++ t :: after from hs, Token.text_append] at htext
  rw [position_eq_past hs, Position.past_start, ← Text.byteLength_eq_utf8ByteSize,
    ← Text.byteLength_eq_utf8ByteSize, ← htext, Text.byteLength_append]
  exact Nat.le_add_right ..

theorem offset_endOfInput {source : Text} {t : Token} (h : t ∈ tokenize source) (hk : t.kind = .endOfInput) :
    t.position.offset = (String.ofList source).utf8ByteSize := by
  rw [eq_endOfInput_of_mem h hk, Token.endOfInput, Position.past_start]

/-! ## Results that mark tokens -/

namespace Token

variable {α β : Type}

/-- Each of the results stands for a token, in the order of the tokens. -/
def Marks (R : α → Token → Prop) (as : List α) (ts : List Token) : Prop :=
  ∃ us, us.Sublist ts ∧ List.Forall₂ R as us

theorem Marks.nil (R : α → Token → Prop) (ts : List Token) : Marks R [] ts := ⟨[], List.nil_sublist ts, .nil⟩

theorem Marks.append {R : α → Token → Prop} {as bs : List α} {ts us : List Token} (ha : Marks R as ts)
    (hb : Marks R bs us) : Marks R (as ++ bs) (ts ++ us) := by
  obtain ⟨vs, hv, hva⟩ := ha
  obtain ⟨ws, hw, hwb⟩ := hb
  exact ⟨vs ++ ws, hv.append hw, List.rel_append hva hwb⟩

theorem Marks.of_sublist {R : α → Token → Prop} {as : List α} {ts us : List Token} (h : Marks R as ts)
    (hs : ts.Sublist us) : Marks R as us := by
  obtain ⟨vs, hv, hva⟩ := h
  exact ⟨vs, hv.trans hs, hva⟩

theorem Marks.flatMap {R : α → Token → Prop} {f : β → List α} {g : β → List Token} :
    ∀ {bs : List β}, (∀ b ∈ bs, Marks R (f b) (g b)) → Marks R (bs.flatMap f) (bs.flatMap g)
  | [], _ => .nil R []
  | b :: bs, h => by
    rw [List.flatMap_cons, List.flatMap_cons]
    exact (h b List.mem_cons_self).append (Marks.flatMap fun c hc => h c (List.mem_cons_of_mem _ hc))

theorem Marks.exists_mem {R : α → Token → Prop} {as : List α} {ts : List Token} (h : Marks R as ts) {a : α}
    (ha : a ∈ as) : ∃ t ∈ ts, R a t := by
  obtain ⟨us, hu, hua⟩ := h
  induction hua generalizing ts with
  | nil => cases ha
  | @cons b u as us hr hrest ih =>
    rcases List.mem_cons.mp ha with rfl | ha
    · exact ⟨u, hu.subset List.mem_cons_self, hr⟩
    · exact ih ha ((List.sublist_cons_self u us).trans hu)

theorem Marks.offsets (position : α → Position) {R : α → Token → Prop} (hR : ∀ a t, R a t → position a = t.position)
    {as : List α} {source : Text} (h : Marks R as (tokenize source)) :
    as.Pairwise fun a b => (position a).offset < (position b).offset := by
  obtain ⟨us, hu, hua⟩ := h
  have hus := (offsets_tokensAt .start source).sublist hu
  clear hu
  induction hua with
  | nil => exact .nil
  | @cons a u as us hr hrest ih =>
    obtain ⟨hfirst, hus⟩ := List.pairwise_cons.mp hus
    refine List.pairwise_cons.mpr ⟨fun b hb => ?_, ih hus⟩
    obtain ⟨v, hv, hbv⟩ := Marks.exists_mem ⟨us, List.Sublist.refl us, hrest⟩ hb
    rw [hR a u hr, hR b v hbv]
    exact hfirst v hv

end Token

/-! ## Limited runs -/

def Outcome.halted : Outcome → Outcome
  | fault head d _ => fault head d .stopped
  | o => o

def Segment.isFaulty (s : Segment) : Bool := s.answer.diagnostic?.isSome

namespace Reading

/-- The number of segments that a run reads which has found `reported` faults before, by which of them are faulty. -/
def extent (limit : Option Nat) : Nat → List Bool → Nat
  | _, [] => 0
  | reported, false :: faults => extent limit reported faults + 1
  | reported, true :: faults =>
    if limit.any (· ≤ reported + 1) then 1 else extent limit (reported + 1) faults + 1

theorem halted_ofSegments (settings : Settings) : ∀ (n : Nat) (ss : List Segment),
    (ofSegments settings n ss).outcomes.map Outcome.halted =
      ((ss.take (extent settings.maxDiagnostics n (ss.map Segment.isFaulty))).flatMap Segment.report).map Outcome.halted
  | _, [] => rfl
  | n, s :: ss => by
    have behind {os : List Outcome} (ho : os.map Outcome.halted = s.report.map Outcome.halted) (m : Nat) :
        (after os (ofSegments settings m ss)).outcomes.map Outcome.halted = (((s :: ss).take
          (extent settings.maxDiagnostics m (ss.map Segment.isFaulty) + 1)).flatMap Segment.report).map
            Outcome.halted := by
      rw [List.take_succ_cons, List.flatMap_cons, List.map_append, ← ho, ← halted_ofSegments settings m ss]
      exact List.map_append
    rw [ofSegments, List.map_cons]
    cases hc : s.content with
    | blank =>
      have hs : s.isFaulty = false := by rw [Segment.isFaulty, Segment.answer, hc]; rfl
      rw [hs]
      exact behind (by rw [Segment.report, hc]) n
    | statement head st =>
      have hs : s.isFaulty = false := by rw [Segment.isFaulty, Segment.answer, hc]; rfl
      rw [hs]
      exact behind (by rw [Segment.report, hc]) n
    | fault head f =>
      have hs : s.isFaulty = true := by rw [Segment.isFaulty, Segment.answer, hc]; rfl
      have ho (r : Recovery) : (Outcome.comments s.lead ++ [Outcome.fault head (f.diagnostic s.terminator) r]).map
          Outcome.halted = s.report.map Outcome.halted := by
        rw [Segment.report, hc, List.map_append, List.map_append]
        rfl
      rw [hs, extent]
      by_cases hr : settings.reaches (n + 1) = true
      · simp only [if_pos hr, if_pos (show settings.maxDiagnostics.any (· ≤ n + 1) = true from hr)]
        rw [List.take_succ_cons, List.take_zero, List.flatMap_singleton]
        exact ho .stopped
      · simp only [if_neg hr, if_neg (show ¬ settings.maxDiagnostics.any (· ≤ n + 1) = true from hr)]
        exact behind (ho _) (n + 1)

end Reading

theorem Output.ofOutcomes_halted (settings : Settings) (os : List Outcome) :
    ofOutcomes settings (os.map Outcome.halted) = ofOutcomes settings os := by
  have hkeeps : keeps settings ∘ Outcome.halted = keeps settings := by funext o; cases o <;> rfl
  have hlocated : Outcome.located? ∘ Outcome.halted = Outcome.located? := by funext o; cases o <;> rfl
  have hdiagnostic : Outcome.diagnostic? ∘ Outcome.halted = Outcome.diagnostic? := by funext o; cases o <;> rfl
  rw [ofOutcomes, List.filter_map, List.filterMap_map, List.filterMap_map, hkeeps, hlocated, hdiagnostic]
  rfl

theorem parseTokens_eq_take (settings : Settings) (ts : List Token) :
    parseTokens settings ts = .ofOutcomes settings (((Segment.ofTokens ts).take
      (Reading.extent settings.maxDiagnostics 0 ((Segment.ofTokens ts).map Segment.isFaulty))).flatMap
        Segment.report) := by
  rw [← Output.ofOutcomes_halted, ← Reading.halted_ofSegments, Output.ofOutcomes_halted]
  rfl

theorem exists_parseTokens (settings : Settings) (ts : List Token) : ∃ read rest, Segment.ofTokens ts = read ++ rest ∧
    parseTokens settings ts = .ofOutcomes settings (read.flatMap Segment.report) :=
  ⟨_, _, (List.take_append_drop _ _).symm, parseTokens_eq_take settings ts⟩

theorem located_parseTokens {settings : Settings} {ts : List Token} {read : List Segment}
    (h : parseTokens settings ts = .ofOutcomes settings (read.flatMap Segment.report)) :
    (parseTokens settings ts).script = .ofLocated
      (read.flatMap fun s => Outcome.located settings.commentStatements s.report) := by
  rw [h, Output.ofOutcomes, List.filter_flatMap, List.filterMap_flatMap]
  rfl

theorem diagnostics_parseTokens {settings : Settings} {ts : List Token} {read : List Segment}
    (h : parseTokens settings ts = .ofOutcomes settings (read.flatMap Segment.report)) :
    (parseTokens settings ts).diagnostics = read.flatMap fun s => s.answer.diagnostic?.toList := by
  rw [h, Output.ofOutcomes, List.filterMap_flatMap]
  simp only [Segment.diagnostics_report]

end PipelineScript
