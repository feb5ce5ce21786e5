import Mathlib.Data.List.DropRight
import PipelineScript.Text.Lines

/-!
# The lines of a text

Main statements: `IsLine.line_eq` and `exists_isLine`.
-/

namespace PipelineScript.Text

/-- What can stand right behind a line: nothing, or a line ending. A carriage return just before a line feed is part of
the ending and not of the line. -/
inductive EndsLine (line : Text) : Text → Prop
  | text : EndsLine line []
  | newline (t : Text) (h : line.getLast? ≠ some '\r') : EndsLine line ('\n' :: t)
  | carriageReturn (t : Text) : EndsLine line ('\r' :: '\n' :: t)

structure IsLine (source front line back : Text) : Prop where
  split : source = front ++ (line ++ back)
  starts : front = [] ∨ ∃ t, front = t ++ ['\n']
  unbroken : '\n' ∉ line
  ends : EndsLine line back

theorem lines_carriageReturn (t : Text) : lines ('\r' :: '\n' :: t) = lines ('\n' :: t) := by
  rw [lines, if_neg (by decide), if_pos ⟨rfl, rfl⟩]

theorem lines_cons {c : Char} {t : Text} (hc : c ≠ '\n') (hr : ¬ (c = '\r' ∧ t.head? = some '\n')) :
    lines (c :: t) = (c :: (lines t).head?.getD []) :: (lines t).tail := by
  rw [lines, if_neg hc, if_neg hr]
  cases lines t <;> rfl

theorem drop_lines : ∀ front t : Text, (lines (front ++ '\n' :: t)).drop (front.count '\n' + 1) = lines t
  | [], t => by
    rw [List.nil_append, lines_newline]
    rfl
  | c :: front, t => by
    rw [List.cons_append]
    by_cases hc : c = '\n'
    · rw [hc, lines_newline, List.count_cons_self, List.drop_succ_cons, drop_lines front t]
    · rw [List.count_cons_of_ne hc]
      by_cases hr : c = '\r' ∧ (front ++ '\n' :: t).head? = some '\n'
      · rw [lines, if_neg hc, if_pos hr, drop_lines front t]
      · rw [lines_cons hc hr, List.drop_succ_cons, List.drop_tail, drop_lines front t]

theorem EndsLine.tail {c : Char} {line back : Text} (h : EndsLine (c :: line) back) : EndsLine line back := by
  cases h with
  | text => exact .text
  | newline t h =>
    refine .newline t fun hl => h ?_
    rw [List.getLast?_cons, hl]
    rfl
  | carriageReturn t => exact .carriageReturn t

theorem EndsLine.not_ending {c : Char} {line back : Text} (hn : '\n' ∉ line) (h : EndsLine (c :: line) back) :
    ¬ (c = '\r' ∧ (line ++ back).head? = some '\n') := by
  rintro ⟨rfl, hh⟩
  cases line with
  | cons d line =>
    obtain rfl := Option.some.inj hh
    exact hn List.mem_cons_self
  | nil =>
    cases h with
    | text => cases hh
    | newline t h => exact h rfl
    | carriageReturn t => exact absurd (Option.some.inj hh) (by decide)

theorem head_lines : ∀ {line back : Text}, '\n' ∉ line → EndsLine line back →
    (lines (line ++ back)).head?.getD [] = line
  | [], back, _, h => by
    cases h with
    | text => rfl
    | newline t => rw [List.nil_append, lines_newline]; rfl
    | carriageReturn t => rw [List.nil_append, lines_carriageReturn, lines_newline]; rfl
  | c :: line, back, hn, h => by
    have hline : '\n' ∉ line := fun hm => hn (List.mem_cons_of_mem c hm)
    have hc : c ≠ '\n' := fun hc => hn (hc ▸ List.mem_cons_self)
    rw [List.cons_append, lines_cons hc (h.not_ending hline), head_lines hline h.tail]
    rfl

theorem IsLine.line_eq {source front line back : Text} (h : IsLine source front line back) :
    Text.line source (1 + front.count '\n') = line := by
  have hdrop : (lines source).drop (front.count '\n') = lines (line ++ back) := by
    rw [h.split]
    obtain rfl | ⟨t, rfl⟩ := h.starts
    · rfl
    · rw [List.append_assoc, List.singleton_append, List.count_append, List.count_singleton_self, drop_lines]
  rw [Text.line, Nat.add_sub_cancel_left, ← List.head?_drop, hdrop, head_lines h.unbroken h.ends]

/-! ## Finding lines -/

theorem EndsLine.cons {c : Char} {line back : Text} (h : EndsLine line back)
    (hr : ¬ (c = '\r' ∧ (line ++ back).head? = some '\n')) : EndsLine (c :: line) back := by
  cases h with
  | text => exact .text
  | newline t h =>
    refine .newline t fun hl => ?_
    cases line with
    | nil => exact hr ⟨Option.some.inj hl, rfl⟩
    | cons d line => exact h (by rwa [List.getLast?_cons_cons] at hl)
  | carriageReturn t => exact .carriageReturn t

theorem exists_endsLine : ∀ t : Text, ∃ line back, t = line ++ back ∧ '\n' ∉ line ∧ EndsLine line back
  | [] => ⟨[], [], rfl, List.not_mem_nil, .text⟩
  | c :: t => by
    obtain ⟨line, back, rfl, hn, hends⟩ := exists_endsLine t
    by_cases hc : c = '\n'
    · exact ⟨[], c :: (line ++ back), rfl, List.not_mem_nil, hc ▸ .newline _ nofun⟩
    · by_cases hr : c = '\r' ∧ (line ++ back).head? = some '\n'
      · obtain ⟨rest, hrest⟩ := List.head?_eq_some_iff.mp hr.2
        exact ⟨[], c :: (line ++ back), rfl, List.not_mem_nil, by rw [hrest, hr.1]; exact .carriageReturn rest⟩
      · exact ⟨c :: line, back, rfl, by simp [hn, Ne.symm hc], hends.cons hr⟩

theorem EndsLine.head_eq {line back : Text} (h : EndsLine line back) (hn : (line ++ back).head? ≠ some '\n')
    (hr : (line ++ back).head? ≠ some '\r') : (line ++ back).head? = line.head? := by
  cases line with
  | cons c line => rfl
  | nil =>
    cases h with
    | text => rfl
    | newline t => exact absurd rfl hn
    | carriageReturn t => exact absurd rfl hr

theorem EndsLine.append {line back : Text} (h : EndsLine line back) (hn : (line ++ back).head? ≠ some '\n')
    (start : Text) : EndsLine (start ++ line) back := by
  cases h with
  | text => exact .text
  | newline t h =>
    refine .newline t fun hl => ?_
    cases line with
    | nil => exact hn rfl
    | cons c line => exact h (by rwa [List.getLast?_append_of_ne_nil _ (List.cons_ne_nil c line)] at hl)
  | carriageReturn t => exact .carriageReturn t

/-! ## Cutting a text inside of a line -/

def endedLines (t : Text) : Text := t.rdropWhile fun c => decide (c ≠ '\n')

def openLine (t : Text) : Text := t.rtakeWhile fun c => decide (c ≠ '\n')

theorem endedLines_append_openLine (t : Text) : endedLines t ++ openLine t = t := List.rdropWhile_append_rtakeWhile ..

theorem newline_notMem_openLine (t : Text) : '\n' ∉ openLine t := fun h => by simpa using List.mem_rtakeWhile_imp h

theorem endedLines_eq (t : Text) : endedLines t = [] ∨ ∃ u, endedLines t = u ++ ['\n'] := by
  by_cases h : endedLines t = []
  · exact .inl h
  · have hlast : (endedLines t).getLast h = '\n' := by
      simpa [endedLines] using List.rdropWhile_last_not (fun c => decide (c ≠ '\n')) t h
    exact .inr ⟨_, by rw [← hlast, List.dropLast_append_getLast]⟩

theorem count_endedLines (t : Text) : (endedLines t).count '\n' = t.count '\n' := by
  rw [← congrArg (List.count '\n') (endedLines_append_openLine t), List.count_append,
    List.count_eq_zero.mpr (newline_notMem_openLine t), Nat.add_zero]

theorem exists_isLine (s : Text) {t : Text} (hn : t.head? ≠ some '\n') (hr : t.head? ≠ some '\r') :
    ∃ rest back, t.head? = rest.head? ∧ IsLine (s ++ t) (endedLines s) (openLine s ++ rest) back := by
  obtain ⟨rest, back, rfl, hrest, hends⟩ := exists_endsLine t
  refine ⟨rest, back, hends.head_eq hn hr, ?_, endedLines_eq s, ?_, hends.append hn _⟩
  · rw [List.append_assoc, ← List.append_assoc (endedLines s), endedLines_append_openLine]
  · exact List.not_mem_append (newline_notMem_openLine s) hrest

end PipelineScript.Text
