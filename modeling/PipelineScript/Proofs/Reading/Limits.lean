import PipelineScript.Proofs.Reading.Ordered

/-!
# Runs that a limit stops

A run stops where the limit is reached. Main statement: `parseWith_limited`.
-/

namespace PipelineScript

namespace Reading

/-! ## How many segments are read -/

theorem extent_of_few {k : Nat} : ∀ {n : Nat} {faults : List Bool}, n + faults.count true < max k 1 →
    extent (some k) n faults = faults.length
  | _, [], _ => rfl
  | n, false :: faults, h => by
    rw [extent, extent_of_few (by simpa using h), List.length_cons]
  | n, true :: faults, h => by
    rw [List.count_cons_self] at h
    have hk : ¬ (some k).any (· ≤ n + 1) = true := by simp; omega
    rw [extent, if_neg hk, extent_of_few (by omega), List.length_cons]

theorem extent_none : ∀ (n : Nat) (faults : List Bool), extent none n faults = faults.length
  | _, [] => rfl
  | n, false :: faults => by rw [extent, extent_none, List.length_cons]
  | n, true :: faults => by
    rw [extent, Option.any_none, if_neg Bool.false_ne_true, extent_none, List.length_cons]

/-- A limit of zero stops a run at its first fault, as a limit of one does. -/
theorem extent_of_last {k : Nat} {after : List Bool} : ∀ {n : Nat} {before : List Bool},
    n + before.count true + 1 = max k 1 → extent (some k) n (before ++ true :: after) = before.length + 1
  | n, [], h => by
    have hk : (some k).any (· ≤ n + 1) = true := by simp at h ⊢; omega
    rw [List.nil_append, extent, if_pos hk, List.length_nil]
  | n, false :: before, h => by
    rw [List.cons_append, extent, extent_of_last (by simpa using h), List.length_cons]
  | n, true :: before, h => by
    rw [List.count_cons_self] at h
    have hk : ¬ (some k).any (· ≤ n + 1) = true := by simp; omega
    rw [List.cons_append, extent, if_neg hk, extent_of_last (by omega), List.length_cons]

theorem count_isFaulty (ss : List Segment) :
    (ss.map Segment.isFaulty).count true = (ss.filterMap fun s => s.answer.diagnostic?).length := by
  rw [List.length_filterMap_eq_countP, List.count_eq_countP, List.countP_map]
  refine List.countP_congr fun s _ => ?_
  simp [Segment.isFaulty]

theorem take_extent {k : Nat} {read rest : List Segment} {s : Segment} {d : Diagnostic}
    (hd : s.answer.diagnostic? = some d)
    (hk : (read.filterMap fun s => s.answer.diagnostic?).length + 1 = max k 1) :
    (read ++ s :: rest).take (extent (some k) 0 ((read ++ s :: rest).map Segment.isFaulty)) = read ++ [s] := by
  have hfaulty : s.isFaulty = true := by rw [Segment.isFaulty, hd]; rfl
  rw [← count_isFaulty] at hk
  have hextent : extent (some k) 0 ((read ++ s :: rest).map Segment.isFaulty) = read.length + 1 := by
    rw [List.map_append, List.map_cons, hfaulty, extent_of_last (by omega), List.length_map]
  rw [hextent, List.append_cons, List.take_left' (by rw [List.length_append, List.length_singleton])]

end Reading

/-! ## Where the results of a segment stand -/

namespace Segment

theorem exists_mem_commentsAt {comments : Bool} {ts : List Token} {l : Position × Statement}
    (h : l ∈ commentsAt comments ts) : ∃ t ∈ ts, l.1 = t.position ∧ l.2.isComment = true := by
  unfold commentsAt at h
  split at h
  · obtain ⟨t, ht, rfl⟩ := List.mem_map.mp h
    exact ⟨t, (List.mem_filter.mp ht).1, rfl, rfl⟩
  · cases h

theorem mem_tokens_of_mem_lead {s : Segment} {t : Token} (h : t ∈ s.lead) : t ∈ s.tokens := by
  rw [← s.lead_append_body]
  exact List.mem_append_left _ h

theorem exists_mem_located {comments : Bool} {s : Segment} {l : Position × Statement}
    (h : l ∈ s.located comments s.answer) : ∃ t ∈ s.tokens, l.1 = t.position := by
  have hlead (hl : l ∈ commentsAt comments s.lead) : ∃ t ∈ s.tokens, l.1 = t.position := by
    obtain ⟨t, ht, hlt, -⟩ := exists_mem_commentsAt hl
    exact ⟨t, mem_tokens_of_mem_lead ht, hlt⟩
  unfold located at h
  split at h
  · next st _ =>
    rcases List.mem_append.mp h with h | h
    · exact hlead h
    rcases List.mem_append.mp h with h | h
    · obtain ⟨t, ht, rfl⟩ := Option.map_eq_some_iff.mp (Option.mem_toList.mp h)
      exact ⟨t, (List.mem_filter.mp (List.mem_of_mem_head? ht)).1, rfl⟩
    · split at h
      · cases h
      · obtain ⟨t, ht, hlt, -⟩ := exists_mem_commentsAt h
        exact ⟨t, (List.rtakeWhile_suffix _ _).subset ht, hlt⟩
  · exact hlead h

theorem stands_of_fault {s : Segment} {d : Diagnostic} (h : s.answer.diagnostic? = some d) (comments : Bool) :
    (∀ l ∈ s.located comments s.answer, ∃ t ∈ s.lead, l.1 = t.position) ∧
      ∃ t ∈ s.body ++ [s.terminator], d.position = t.position := by
  obtain ⟨-, ha⟩ | ⟨head, rest, hb, ⟨st, -, ha⟩ | ⟨f, hr, ha⟩⟩ := s.answer_cases
  · rw [ha] at h
    cases h
  · rw [ha] at h
    cases h
  · rw [ha] at h ⊢
    obtain rfl := Option.some.inj h
    refine ⟨fun l hl => ?_, ?_⟩
    · obtain ⟨t, ht, hlt, -⟩ := exists_mem_commentsAt hl
      exact ⟨t, ht, hlt⟩
    · rw [hb]
      exact ⟨_, blames_readStatement hr s.terminator, f.diagnostic_position s.terminator⟩

end Segment

theorem offset_lt_of_split {source : Text} {before after : List Token} (h : tokenize source = before ++ after)
    {t u : Token} (ht : t ∈ before) (hu : u ∈ after) : t.position.offset < u.position.offset := by
  have hsorted := offsets_tokensAt .start source
  rw [← tokenize, h] at hsorted
  exact (List.pairwise_append.mp hsorted).2.2 t ht u hu

section
variable {source : Text} {read rest : List Segment} {s : Segment} {d : Diagnostic}
  (hss : Segment.ofTokens (tokenize source) = read ++ s :: rest) (hd : s.answer.diagnostic? = some d) (comments : Bool)
include hss hd

theorem offset_lt_of_read : ∀ l ∈ (read ++ [s]).flatMap (fun s => s.located comments s.answer),
    l.1.offset < d.position.offset := by
  intro l hl
  obtain ⟨hlead, u, hu, hdu⟩ := Segment.stands_of_fault hd comments
  obtain ⟨x, hx, hlx⟩ := List.mem_flatMap.mp hl
  have hsplit : tokenize source = (read.flatMap Segment.stream ++ s.lead) ++
      ((s.body ++ [s.terminator]) ++ rest.flatMap Segment.stream) := by
    rw [← (Segment.cuts_tokenize source).stream_eq, hss, List.flatMap_append, List.flatMap_cons, Segment.stream,
      ← s.lead_append_body]
    simp only [List.append_assoc]
  have hfront : ∃ t ∈ read.flatMap Segment.stream ++ s.lead, l.1 = t.position := by
    rcases List.mem_append.mp hx with hx | hx
    · obtain ⟨t, ht, hlt⟩ := Segment.exists_mem_located hlx
      exact ⟨t, List.mem_append_left _ (List.mem_flatMap.mpr ⟨x, hx, List.mem_append_left _ ht⟩), hlt⟩
    · obtain rfl := List.mem_singleton.mp hx
      obtain ⟨t, ht, hlt⟩ := hlead l hlx
      exact ⟨t, List.mem_append_right _ ht, hlt⟩
  obtain ⟨t, ht, hlt⟩ := hfront
  rw [hlt, hdu]
  exact offset_lt_of_split hsplit ht (List.mem_append_left _ hu)

theorem offset_lt_of_rest : ∀ l ∈ rest.flatMap (fun s => s.located comments s.answer),
    d.position.offset < l.1.offset := by
  intro l hl
  obtain ⟨-, u, hu, hdu⟩ := Segment.stands_of_fault hd comments
  have hsplit : tokenize source = (read.flatMap Segment.stream ++ s.stream) ++ rest.flatMap Segment.stream := by
    rw [← (Segment.cuts_tokenize source).stream_eq, hss, List.flatMap_append, List.flatMap_cons, List.append_assoc]
  obtain ⟨x, hx, hl⟩ := List.mem_flatMap.mp hl
  obtain ⟨t, ht, hlt⟩ := Segment.exists_mem_located hl
  have hstream : u ∈ s.stream := by
    rw [Segment.stream, ← s.lead_append_body, List.append_assoc]
    exact List.mem_append_right _ hu
  rw [hlt, hdu]
  exact offset_lt_of_split hsplit (List.mem_append_right _ hstream)
    (List.mem_flatMap.mpr ⟨x, hx, List.mem_append_left _ ht⟩)

theorem filter_located_eq : ((read ++ s :: rest).flatMap fun s => s.located comments s.answer).filter
      (fun l => decide (l.1.offset < d.position.offset)) =
    (read ++ [s]).flatMap fun s => s.located comments s.answer := by
  have hread := offset_lt_of_read hss hd comments
  have hrest := offset_lt_of_rest hss hd comments
  have hnone : ∀ l ∈ rest.flatMap (fun s => s.located comments s.answer), ¬ l.1.offset < d.position.offset :=
    fun l hl => Nat.lt_asymm (hrest l hl)
  rw [List.append_cons, List.flatMap_append, List.filter_append,
    List.filter_eq_self.mpr fun l hl => decide_eq_true (hread l hl),
    List.filter_eq_nil_iff.mpr fun l hl => by simpa using hnone l hl, List.append_nil]

end

/-! ## Limited outputs -/

def Output.ofSegments (comments : Bool) (ss : List Segment) : Output :=
  ⟨.ofLocated (ss.flatMap fun s => s.located comments s.answer), ss.filterMap fun s => s.answer.diagnostic?⟩

theorem Output.ofOutcomes_reports (settings : Settings) (ss : List Segment) :
    ofOutcomes settings (ss.flatMap Segment.report) = ofSegments settings.commentStatements ss := by
  have hlocated : ((ss.flatMap Segment.report).filter (keeps settings)).filterMap Outcome.located? =
      ss.flatMap fun s => s.located settings.commentStatements s.answer := by
    rw [List.filter_flatMap, List.filterMap_flatMap]
    exact List.flatMap_congr fun s _ => s.located_report settings.commentStatements
  have hdiagnostics : (ss.flatMap Segment.report).filterMap Outcome.diagnostic? =
      ss.filterMap fun s => s.answer.diagnostic? := by
    rw [List.filterMap_flatMap, List.filterMap_eq_flatMap_toList]
    exact List.flatMap_congr fun s _ => s.diagnostics_report
  rw [ofOutcomes, hlocated, hdiagnostics, ofSegments]

theorem parseTokens_eq_ofSegments (settings : Settings) (ts : List Token) : parseTokens settings ts =
    .ofSegments settings.commentStatements ((Segment.ofTokens ts).take
      (Reading.extent settings.maxDiagnostics 0 ((Segment.ofTokens ts).map Segment.isFaulty))) := by
  rw [parseTokens_eq_take, Output.ofOutcomes_reports]

theorem parseTokens_unlimited_eq (comments : Bool) (ts : List Token) :
    parseTokens ⟨comments, none⟩ ts = .ofSegments comments (Segment.ofTokens ts) := by
  rw [parseTokens_eq_ofSegments, Reading.extent_none, List.length_map, List.take_length]

/-- The output up to its `m`-th diagnostic: the first `m` of them, and the statements that stand in front of the last
of these. An output with fewer diagnostics is kept whole. -/
def Output.upTo (o : Output) (m : Nat) : Output :=
  match o.diagnostics[m - 1]? with
  | none => o
  | some d =>
    ⟨.ofLocated (o.script.located.filter fun l => decide (l.1.offset < d.position.offset)), o.diagnostics.take m⟩

theorem exists_of_getElem?_filterMap {α β : Type} {f : α → Option β} {l : List α} {i : Nat} {b : β}
    (h : (l.filterMap f)[i]? = some b) :
    ∃ before a after, l = before ++ a :: after ∧ f a = some b ∧ (before.filterMap f).length = i := by
  obtain ⟨hi, hb⟩ := List.getElem?_eq_some_iff.mp h
  have hsplit : l.filterMap f = (l.filterMap f).take i ++ b :: (l.filterMap f).drop (i + 1) := by
    rw [← hb, ← List.drop_eq_getElem_cons hi, List.take_append_drop]
  obtain ⟨before, others, rfl, hbefore, hothers⟩ := List.filterMap_eq_append_iff.mp hsplit
  obtain ⟨gap, a, after, rfl, hgap, ha, -⟩ := List.filterMap_eq_cons_iff.mp hothers
  refine ⟨before ++ gap, a, after, by rw [List.append_assoc], ha, ?_⟩
  rw [List.filterMap_append, hbefore, List.filterMap_eq_nil_iff.mpr hgap, List.append_nil, List.length_take]
  omega

theorem Output.ofSegments_upTo (comments : Bool) (k : Nat) (source : Text) :
    (ofSegments comments (Segment.ofTokens (tokenize source))).upTo (max k 1) =
      ofSegments comments ((Segment.ofTokens (tokenize source)).take
        (Reading.extent (some k) 0 ((Segment.ofTokens (tokenize source)).map Segment.isFaulty))) := by
  unfold upTo
  cases hd : (ofSegments comments (Segment.ofTokens (tokenize source))).diagnostics[max k 1 - 1]? with
  | none =>
    have hfew := List.getElem?_eq_none_iff.mp hd
    rw [Output.ofSegments, ← Reading.count_isFaulty] at hfew
    rw [Reading.extent_of_few (by omega), List.length_map, List.take_length]
  | some d =>
    obtain ⟨read, s, rest, hss, hs, hlength⟩ := exists_of_getElem?_filterMap hd
    have hdiagnostics : (read ++ s :: rest).filterMap (fun s => s.answer.diagnostic?) =
        (read ++ [s]).filterMap (fun s => s.answer.diagnostic?) ++ rest.filterMap fun s => s.answer.diagnostic? := by
      rw [List.append_cons, List.filterMap_append]
    have hm : ((read ++ [s]).filterMap fun s => s.answer.diagnostic?).length = max k 1 := by
      have hlast : [s].filterMap (fun s => s.answer.diagnostic?) = [d] := List.filterMap_cons_some hs
      rw [List.filterMap_append, List.length_append, hlength, hlast, List.length_singleton]
      omega
    rw [hss, Reading.take_extent hs (by omega), ofSegments, ofSegments]
    simp only [Script.located_ofLocated]
    rw [filter_located_eq hss hs comments, hdiagnostics, List.take_left' hm]

theorem parseWith_limited (comments : Bool) (k : Nat) (source : Text) :
    parseWith ⟨comments, some k⟩ source = (parseWith ⟨comments, none⟩ source).upTo (max k 1) ∧
      parseWith ⟨comments, some 0⟩ source = parseWith ⟨comments, some 1⟩ source ∧
      ((parseWith ⟨comments, none⟩ source).diagnostics = [] →
        parseWith ⟨comments, some k⟩ source = parseWith ⟨comments, none⟩ source) := by
  have hlimited (k : Nat) :
      parseWith ⟨comments, some k⟩ source = (parseWith ⟨comments, none⟩ source).upTo (max k 1) := by
    rw [parseWith, parseTokens_eq_ofSegments, parseWith, parseTokens_unlimited_eq, Output.ofSegments_upTo]
  refine ⟨hlimited k, by rw [hlimited, hlimited]; rfl, fun hclean => ?_⟩
  rw [hlimited, Output.upTo, hclean, List.getElem?_nil]

end PipelineScript
