import PipelineScript.Json.Printer
import PipelineScript.Json.Reader

/-!
# Written values

A text writes a value if it holds the lexemes of the value in order, with any
blanks around them. Main statements: `written_print` and `ofLexemes?_lexemes`.
-/

namespace PipelineScript.Json

mutual

def lexemes : Json → List Lexeme
  | array [] => [.openArray, .closeArray]
  | array (j :: js) => .openArray :: (j.lexemes ++ furtherItems js)
  | object [] => [.openObject, .closeObject]
  | object ((k, j) :: ms) => .openObject :: .string (some k) :: .colon :: (j.lexemes ++ furtherMembers ms)
  | text t => [.string (some t)]
  | j => [.atom j]

def furtherItems : List Json → List Lexeme
  | [] => [.closeArray]
  | j :: js => .comma :: (j.lexemes ++ furtherItems js)

def furtherMembers : List (Text × Json) → List Lexeme
  | [] => [.closeObject]
  | (k, j) :: ms => .comma :: .string (some k) :: .colon :: (j.lexemes ++ furtherMembers ms)

end

def Lexeme.written : Lexeme → Text
  | openObject => ['{']
  | closeObject => ['}']
  | openArray => ['[']
  | closeArray => [']']
  | colon => [':']
  | comma => [',']
  | atom j => printAtom j
  | string t => quote (t.getD [])

/-- The text holds the lexemes in order and nothing else but blanks. -/
inductive Spaced : List Lexeme → Text → Prop
  | nil {blanks : Text} (hb : ∀ c ∈ blanks, isBlank c = true) : Spaced [] blanks
  | cons {blanks : Text} (hb : ∀ c ∈ blanks, isBlank c = true) (l : Lexeme) {ls : List Lexeme} {t : Text}
      (h : Spaced ls t) : Spaced (l :: ls) (blanks ++ (l.written ++ t))

/-- The text writes the value, with blanks wherever they do not matter. -/
def Written (j : Json) (t : Text) : Prop := Spaced j.lexemes t

/-! ## Printed values -/

namespace Spaced

theorem one (l : Lexeme) : Spaced [l] l.written := by
  have hnone : ∀ c ∈ ([] : Text), isBlank c = true := nofun
  simpa using cons hnone l (nil hnone)

theorem blanks_append {blanks : Text} (hb : ∀ c ∈ blanks, isBlank c = true) {ls : List Lexeme} {t : Text}
    (h : Spaced ls t) : Spaced ls (blanks ++ t) := by
  have both {bs : Text} (hbs : ∀ c ∈ bs, isBlank c = true) : ∀ c ∈ blanks ++ bs, isBlank c = true := fun c hc =>
    (List.mem_append.mp hc).elim (hb c) (hbs c)
  cases h with
  | nil hbs => exact .nil (both hbs)
  | cons hbs l h =>
    rw [← List.append_assoc]
    exact .cons (both hbs) l h

theorem append {ls ms : List Lexeme} {t u : Text} (ht : Spaced ls t) (hu : Spaced ms u) :
    Spaced (ls ++ ms) (t ++ u) := by
  induction ht with
  | nil hb => exact hu.blanks_append hb
  | cons hb l _ ih =>
    rw [List.append_assoc, List.append_assoc]
    exact .cons hb l ih

theorem newline (level : Nat) {ls : List Lexeme} {t : Text} (h : Spaced ls t) :
    Spaced ls (Json.newline level ++ t) := by
  refine h.blanks_append fun c hc => ?_
  rcases List.mem_cons.mp hc with rfl | hc
  · rfl
  · rw [List.eq_of_mem_replicate hc]
    rfl

end Spaced

theorem spaced_prettyMember (level : Nat) (k : Text) {j : Json} (h : Spaced j.lexemes (pretty level j)) :
    Spaced (.string (some k) :: .colon :: j.lexemes) (prettyMember level (k, j)) := by
  have hk := (Spaced.one (.string (some k))).newline level
  have hspace : ∀ c ∈ [' '], isBlank c = true := by simp [isBlank]
  have hj := h.blanks_append hspace
  simpa [prettyMember, Lexeme.written] using hk.append ((Spaced.one .colon).append hj)

mutual

theorem spaced_pretty (level : Nat) : ∀ j : Json, Spaced j.lexemes (pretty level j)
  | array [] => by simpa [pretty, lexemes, Lexeme.written] using (Spaced.one .openArray).append (.one .closeArray)
  | array (j :: js) => by
    have hj := (spaced_pretty (level + 1) j).newline (level + 1)
    have hjs := spaced_prettyItems (level + 1) level js
    simpa [pretty, prettyItem, lexemes, Lexeme.written] using (Spaced.one .openArray).append (hj.append hjs)
  | object [] => by simpa [pretty, lexemes, Lexeme.written] using (Spaced.one .openObject).append (.one .closeObject)
  | object ((k, j) :: ms) => by
    have hm := spaced_prettyMember (level + 1) k (spaced_pretty (level + 1) j)
    have hms := spaced_prettyMembers (level + 1) level ms
    simpa [pretty, lexemes, Lexeme.written] using (Spaced.one .openObject).append (hm.append hms)
  | text t => by
    simp only [pretty, lexemes]
    exact .one (.string (some t))
  | null | bool _ | nat _ | otherNumber _ | broken => by
    simp only [pretty, lexemes]
    exact .one (.atom _)

theorem spaced_prettyItems (level outer : Nat) : ∀ js : List Json,
    Spaced (furtherItems js) (prettyItems level js ++ (newline outer ++ [']']))
  | [] => by simpa [prettyItems, furtherItems, Lexeme.written] using (Spaced.one .closeArray).newline outer
  | j :: js => by
    have hj := (spaced_pretty level j).newline level
    have hjs := spaced_prettyItems level outer js
    simpa [prettyItems, prettyItem, furtherItems, Lexeme.written] using (Spaced.one .comma).append (hj.append hjs)

theorem spaced_prettyMembers (level outer : Nat) : ∀ ms : List (Text × Json),
    Spaced (furtherMembers ms) (prettyMembers level ms ++ (newline outer ++ ['}']))
  | [] => by simpa [prettyMembers, furtherMembers, Lexeme.written] using (Spaced.one .closeObject).newline outer
  | (k, j) :: ms => by
    have hm := spaced_prettyMember level k (spaced_pretty level j)
    have hms := spaced_prettyMembers level outer ms
    simpa [prettyMembers, furtherMembers, Lexeme.written] using (Spaced.one .comma).append (hm.append hms)

end

theorem written_print (j : Json) : Written j j.print := spaced_pretty 0 j

/-! ## Reading the lexemes -/

theorem ofMembers_some (ms : List (Text × Json)) : ofMembers (ms.map fun m => (some m.1, m.2)) = object ms := by
  have h : ∀ ns : List (Text × Json), (ns.map fun m => (some m.1, m.2)).mapM named? = some ns := by
    intro ns
    induction ns with
    | nil => rfl
    | cons n ns ih => simp [List.mapM_cons, named?, ih]
  rw [ofMembers, h]

namespace ReaderState

variable (stack : List Frame)

theorem step_firstItem {l : Lexeme} (h : l ≠ .closeArray) :
    step (firstItem stack) l = step (value (.items [] :: stack)) l := by
  cases l <;> first | rfl | exact absurd rfl h

theorem lexemes_eq_cons (j : Json) : ∃ l ls, j.lexemes = l :: ls ∧ l ≠ .closeArray := by
  cases j with
  | array js => cases js <;> exact ⟨_, _, lexemes.eq_def _, nofun⟩
  | object ms => cases ms <;> exact ⟨_, _, lexemes.eq_def _, nofun⟩
  | _ => exact ⟨_, _, lexemes.eq_def _, nofun⟩

theorem foldlM_firstItem (j : Json) (ls : List Lexeme) :
    (j.lexemes ++ ls).foldlM step (firstItem stack) =
      (j.lexemes ++ ls).foldlM step (value (.items [] :: stack)) := by
  obtain ⟨l, ks, hj, hl⟩ := lexemes_eq_cons j
  rw [hj, List.cons_append, List.foldlM_cons, List.foldlM_cons, step_firstItem stack hl]

end ReaderState

open ReaderState in
mutual

/-- The lexemes of a value are read as that value, whatever is open and whatever follows. -/
theorem foldlM_lexemes (stack : List Frame) (rest : List Lexeme) : ∀ j : Json,
    (j.lexemes ++ rest).foldlM step (value stack) = rest.foldlM step (behind j stack)
  | array [] => by simp [lexemes, step, open?]
  | array (j :: js) => by
    have hj := foldlM_lexemes (.items [] :: stack) (furtherItems js ++ rest) j
    simp only [lexemes, List.cons_append, List.append_assoc, List.foldlM_cons, step, open?, Option.bind_eq_bind,
      Option.bind_some]
    rw [foldlM_firstItem, hj]
    exact foldlM_furtherItems stack rest [] j js
  | object [] => by simp [lexemes, step, open?]
  | object ((k, j) :: ms) => by
    have hj := foldlM_lexemes (.member [] (some k) :: stack) (furtherMembers ms ++ rest) j
    simp only [lexemes, List.cons_append, List.append_assoc, List.foldlM_cons, step, open?, key?, Option.bind_eq_bind,
      Option.bind_some]
    rw [hj]
    exact foldlM_furtherMembers stack rest [] k j ms
  | text t => by simp [lexemes, step, open?, ofText?]
  | null | bool _ | nat _ | otherNumber _ | broken => by simp [lexemes, step, open?]

theorem foldlM_furtherItems (stack : List Frame) (rest : List Lexeme) (before : List Json) (j : Json) :
    ∀ js : List Json, (furtherItems js ++ rest).foldlM step (behind j (.items before :: stack)) =
      rest.foldlM step (behind (array ((j :: before).reverse ++ js)) stack)
  | [] => by simp [furtherItems, step, close?]
  | i :: js => by
    have hi := foldlM_lexemes (.items (j :: before) :: stack) (furtherItems js ++ rest) i
    simp only [furtherItems, List.cons_append, List.append_assoc, List.foldlM_cons, step, close?, Option.bind_eq_bind,
      Option.bind_some]
    rw [hi, foldlM_furtherItems stack rest (j :: before) i js, List.reverse_cons (a := i), List.append_assoc]
    rfl

theorem foldlM_furtherMembers (stack : List Frame) (rest : List Lexeme) (before : List (Text × Json)) (k : Text)
    (j : Json) : ∀ ms : List (Text × Json),
    (furtherMembers ms ++ rest).foldlM step
        (behind j (.member (before.map fun m => (some m.1, m.2)) (some k) :: stack)) =
      rest.foldlM step (behind (object (((k, j) :: before).reverse ++ ms)) stack)
  | [] => by
    have hm := ofMembers_some ((k, j) :: before).reverse
    rw [List.map_reverse, List.map_cons] at hm
    simp only [furtherMembers, List.cons_append, List.nil_append, List.foldlM_cons, step, close?, hm,
      Option.bind_eq_bind, Option.bind_some, List.append_nil]
  | (l, i) :: ms => by
    have hi := foldlM_lexemes (.member (((k, j) :: before).map fun m => (some m.1, m.2)) (some l) :: stack)
      (furtherMembers ms ++ rest) i
    simp only [furtherMembers, List.cons_append, List.append_assoc, List.foldlM_cons, step, close?, key?,
      Option.bind_eq_bind, Option.bind_some]
    rw [← List.map_cons (f := fun m : Text × Json => (some m.1, m.2)) (a := (k, j)), hi,
      foldlM_furtherMembers stack rest ((k, j) :: before) l i ms, List.reverse_cons (a := (l, i)), List.append_assoc]
    rfl

end

theorem ofLexemes?_lexemes (j : Json) : ofLexemes? j.lexemes = some j := by
  have h := foldlM_lexemes [] [] j
  rw [List.append_nil] at h
  rw [ofLexemes?, ReaderState.start, h]
  rfl

end PipelineScript.Json
