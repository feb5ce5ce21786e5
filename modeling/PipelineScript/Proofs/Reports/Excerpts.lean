import PipelineScript.Diagnostic.Report
import PipelineScript.Proofs.Lexing.Grammar
import PipelineScript.Proofs.Reading.Faults
import PipelineScript.Proofs.Reports.Lines

/-!
# What a report shows

Main statements: `report_shows_line` and `caret_below_iff`.
-/

namespace PipelineScript

/-- `row` is the line of the text that position `p` stands in. -/
def Text.HasLine (source : Text) (p : Position) (row : Text) : Prop :=
  ∃ front back, IsLine source front row back ∧ p.line = 1 + front.count '\n' ∧ p.column ≤ row.length ∧
    p.offset = (String.ofList (front ++ row.take p.column)).utf8ByteSize

def Text.HasChar (source : Text) (offset : Nat) (c : Char) : Prop :=
  ∃ before after, source = before ++ c :: after ∧ offset = (String.ofList before).utf8ByteSize

/-- A line of the text, and the token at its column there: its first character, or the end of the line for the end of
input. -/
structure Token.StandsIn (t : Token) (source row : Text) : Prop where
  hasLine : source.HasLine t.position row
  character : t.kind ≠ .endOfInput → ∃ c, row[t.position.column]? = some c ∧ source.HasChar t.position.offset c
  ending : t.kind = .endOfInput → row.length = t.position.column

theorem Text.HasLine.line_eq {source row : Text} {p : Position} (h : source.HasLine p row) :
    Text.line source p.line = row := by
  obtain ⟨front, back, hrow, hp, -⟩ := h
  rw [hp, hrow.line_eq]

theorem Text.exists_hasLine (s : Text) {t : Text} (hn : t.head? ≠ some '\n') (hr : t.head? ≠ some '\r') :
    ∃ rest, t.head? = rest.head? ∧ (s ++ t).HasLine (Position.start.past s) (openLine s ++ rest) := by
  obtain ⟨rest, back, hhead, hline⟩ := exists_isLine s hn hr
  have hcolumn : (Position.start.past s).column = (openLine s).length := Position.past_column s
  refine ⟨rest, hhead, endedLines s, back, hline, ?_, ?_, ?_⟩
  · rw [Position.past_line, count_endedLines]
  · rw [hcolumn, List.length_append]
    exact Nat.le_add_right ..
  · rw [hcolumn, List.take_left, endedLines_append_openLine, Position.past_start]

theorem not_isBlank_of_significant {p : Position} {c : Char} {t : Text}
    (h : (firstToken p c t).isSignificant = true) : Text.isBlank c = false := by
  by_contra hb
  rw [firstToken, scan, opening_blank (by simpa using hb)] at h
  cases h

section
variable {source : Text} {before : List Token} {t : Token} {after : List Token}
  (h : tokenize source = before ++ t :: after)
include h

theorem head_of_significant (hs : t.isSignificant = true) {c : Char}
    (hc : (Token.text (t :: after)).head? = some c) : Text.isBlank c = false := by
  obtain ⟨r, hr⟩ := List.head?_eq_some_iff.mp hc
  rw [← drop_text h] at hr
  exact not_isBlank_of_significant (token_eq_firstToken h hr ▸ hs)

theorem exists_standsIn (hs : t.isSignificant = true) : ∃ row, t.StandsIn source row := by
  have hp : t.position = Position.start.past (Token.text before) := position_eq_past h
  have hcolumn : t.position.column = (Text.openLine (Token.text before)).length := by
    rw [hp, Position.past_column, Text.openLine]
  have htext : source = Token.text before ++ Token.text (t :: after) := by
    rw [← Token.text_append, ← h, tokenize, text_tokensAt]
  obtain ⟨rest, hhead, hrow⟩ := Text.exists_hasLine (Token.text before)
    (fun hc => absurd (head_of_significant h hs hc) (by decide))
    (fun hc => absurd (head_of_significant h hs hc) (by decide))
  rw [← htext, ← hp] at hrow
  refine ⟨_, hrow, fun ht => ?_, fun ht => ?_⟩
  · obtain ⟨c, r, hr⟩ := exists_text h ht
    rw [drop_text h] at hr
    refine ⟨c, ?_, Token.text before, r, by rw [htext, hr], by rw [hp, Position.past_start]⟩
    rw [hcolumn, List.getElem?_append_right (Nat.le_refl _), Nat.sub_self, ← List.head?_eq_getElem?, ← hhead, hr]
    rfl
  · have hnil := (kind_eq_endOfInput_iff h).mp ht
    rw [drop_text h] at hnil
    have hrest : rest = [] := List.head?_eq_none_iff.mp (by rw [← hhead, hnil]; rfl)
    rw [hcolumn, hrest, List.append_nil]

end

theorem exists_place {settings : Settings} {source : Text} {d : Diagnostic}
    (hd : d ∈ (parseWith settings source).diagnostics) :
    ∃ t ∈ tokenize source, Segment.Blames d t ∧ ∃ row, t.StandsIn source row := by
  obtain ⟨t, ht, hs, hdt⟩ := exists_offender hd
  obtain ⟨before, after, hsplit⟩ := List.append_of_mem ht
  exact ⟨t, ht, hdt, exists_standsIn hsplit hs⟩

namespace Listing

def gutter (p : Position) : Text := padLeft 3 (digits p.line) ++ " | ".toList

def above (l : Listing) (d : Diagnostic) : Text :=
  headline d ++ '\n' :: (l.place d.position ++ '\n' :: ("    |".toList ++ ['\n']))

def below (d : Diagnostic) : Text := (hint d.help).flatMap (· ++ ['\n'])

theorem excerpt_eq (l : Listing) (p : Position) : l.excerpt p = gutter p ++ Text.line l.source p.line := rfl

theorem report_eq (l : Listing) (d : Diagnostic) : l.report d =
    l.above d ++ (l.excerpt d.position ++ '\n' :: (caret d.position ++ '\n' :: below d)) := by
  simp [report, reportLines, above, below]

/-- Whatever the settings: a report shows the line that its diagnostic stands in. At the column is the first
character of the token at fault, or the end of the line if that is the end of input. -/
theorem report_shows_line (settings : Settings) (name source : Text) {d : Diagnostic}
    (hd : d ∈ (parseWith settings source).diagnostics) :
    ∃ t ∈ tokenize source, ∃ row, d.position = t.position ∧ d.kind = t.kind.fault ∧
      report ⟨name, source⟩ d = above ⟨name, source⟩ d ++
        (gutter d.position ++ row ++ '\n' :: (caret d.position ++ '\n' :: below d)) ∧
      source.HasLine d.position row ∧
      (t.kind ≠ .endOfInput → ∃ c, row[d.position.column]? = some c ∧ source.HasChar d.position.offset c) ∧
      (t.kind = .endOfInput → row.length = d.position.column) := by
  obtain ⟨t, ht, hdt, row, hrow⟩ := exists_place hd
  have hhas : source.HasLine d.position row := hdt.position ▸ hrow.hasLine
  refine ⟨t, ht, row, hdt.position, hdt.kind, ?_, hhas, hdt.position ▸ hrow.character, hdt.position ▸ hrow.ending⟩
  rw [report_eq, excerpt_eq, hhas.line_eq]

/-- A carriage return that is part of the line ending is not shown. -/
theorem report_shows_line_unrecognized :
    let source : Text := "drop t;\r\nset é\r\n= 1;".toList
    let d : Diagnostic := ⟨.lexical, "unrecognized input 'é', expected a configuration key", ⟨13, 2, 4⟩, none⟩
    d ∈ (parseWith {} source).diagnostics ∧
      ∃ row, report ⟨"a".toList, source⟩ d = above ⟨"a".toList, source⟩ d ++
          (gutter d.position ++ row ++ '\n' :: (caret d.position ++ '\n' :: below d)) ∧
        source.HasLine d.position row ∧ row = "set é".toList := by
  intro source d
  have hd : d ∈ (parseWith {} source).diagnostics := by decide +kernel
  obtain ⟨t, -, row, -, -, hreport, hrow, -⟩ := report_shows_line {} "a".toList source hd
  exact ⟨hd, row, hreport, hrow, hrow.line_eq.symm.trans (by decide +kernel)⟩

/-! ## Carets -/

theorem idxOf_caret (p : Position) : (caret p).idxOf '^' = 6 + p.column := by
  have hn : '^' ∉ "    | ".toList ++ spaces p.column := by simp [spaces]
  show (("    | ".toList ++ spaces p.column) ++ ['^']).idxOf '^' = _
  rw [List.idxOf_append_of_notMem hn]
  simp [spaces]
  omega

theorem length_gutter (p : Position) : (gutter p).length = max 3 (digits p.line).length + 3 := by
  simp [gutter, padLeft, spaces]
  omega

theorem length_digits_le_iff (n : Nat) : (digits n).length ≤ 3 ↔ n < 1000 := by
  rw [digits, Nat.toString_eq_ofList_toDigits, String.toList_ofList]
  exact Nat.length_toDigits_le_iff (by omega) (by omega)

/-- The caret line comes right behind the source line. The caret stands below the token at fault, or left of it by
as many places as the line number has digits beyond three: below it in the first 999 lines, and in no other. -/
theorem caret_below_iff (settings : Settings) (name source : Text) {d : Diagnostic}
    (hd : d ∈ (parseWith settings source).diagnostics) :
    report ⟨name, source⟩ d = above ⟨name, source⟩ d ++
      (excerpt ⟨name, source⟩ d.position ++ '\n' :: (caret d.position ++ '\n' :: below d)) ∧
    ∃ t ∈ tokenize source, ∃ i, d.position = t.position ∧ d.kind = t.kind.fault ∧
      i = (gutter d.position).length + d.position.column ∧
      (t.kind ≠ .endOfInput →
        ∃ c, (excerpt ⟨name, source⟩ d.position)[i]? = some c ∧ source.HasChar d.position.offset c) ∧
      (t.kind = .endOfInput → (excerpt ⟨name, source⟩ d.position).length = i) ∧
      (caret d.position).idxOf '^' + ((digits d.position.line).length - 3) = i ∧
      ((caret d.position).idxOf '^' = i ↔ d.position.line < 1000) := by
  obtain ⟨t, ht, hdt, row, hrow⟩ := exists_place hd
  have hexcerpt : excerpt ⟨name, source⟩ d.position = gutter d.position ++ row := by
    rw [excerpt_eq, hdt.position, hrow.hasLine.line_eq]
  have hdigits := length_digits_le_iff d.position.line
  refine ⟨report_eq _ d, t, ht, _, hdt.position, hdt.kind, rfl, fun hk => ?_, fun hk => ?_, ?_⟩
  · obtain ⟨c, hc, hchar⟩ := hrow.character hk
    rw [← hdt.position] at hc hchar
    refine ⟨c, ?_, hchar⟩
    rw [hexcerpt, List.getElem?_append_right (Nat.le_add_right ..), Nat.add_sub_cancel_left, hc]
  · rw [hexcerpt, List.length_append, hrow.ending hk, hdt.position]
  · rw [idxOf_caret, length_gutter]
    omega

theorem caret_below_iff_end_of_input :
    let source : Text := "\n load".toList
    let d : Diagnostic := ⟨.unterminated, "unexpected end of input, expected a format name", ⟨6, 2, 5⟩, none⟩
    d ∈ (parseWith {} source).diagnostics ∧ (excerpt ⟨"a".toList, source⟩ d.position).length = 11 ∧
      (caret d.position).idxOf '^' = 11 := by
  intro source d
  have hd : d ∈ (parseWith {} source).diagnostics := by decide +kernel
  obtain ⟨-, t, -, i, -, hk, hi, -, hend, -, hcaret⟩ := caret_below_iff {} "a".toList source hd
  obtain rfl : i = 11 := hi.trans (by decide +kernel)
  exact ⟨hd, hend (Token.Kind.fault_eq_unterminated.mp hk.symm), hcaret.mpr (by decide)⟩

theorem caret_not_below_in_line_thousand :
    let source : Text := List.replicate 999 '\n' ++ "x;".toList
    ¬ ∀ d ∈ (parse source).diagnostics,
      (caret d.position).idxOf '^' = (gutter d.position).length + d.position.column := by
  intro source h
  have hd : ⟨.syntactic, "'x' does not start a statement", ⟨999, 1000, 0⟩, none⟩ ∈ (parse source).diagnostics := by
    decide +kernel
  exact absurd (h _ hd) (by decide +kernel)

end Listing

end PipelineScript
