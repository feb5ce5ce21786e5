import PipelineScript.Cursor.Statement
import PipelineScript.Proofs.Cursor.Follows

/-!
# The walks for phrases

A walk decides by the kind of the next token, and the token that ends a segment
is of no kind that a phrase goes on with.
-/

namespace PipelineScript

namespace Walk

variable {α β : Type}

theorem kind_ne_of_ended {e : Token} (he : ¬ e.IsInner) {k : Token.Kind} (hs : k ≠ .semicolon)
    (hk : k ≠ .endOfInput) : e.kind ≠ k := by
  rcases Token.kind_of_not_isInner he with h | h <;> rw [h]
  · exact hs.symm
  · exact hk.symm

theorem follows_name (wanted : Expectation) : Follows (name wanted) (Rule.name wanted) := by
  refine ⟨fun {ts i u e after} h => ?_⟩
  refine Meets.of_run_eq (peek_bind_run h _) ?_
  cases hu : Token.significant u with
  | nil =>
    rcases Token.kind_of_not_isInner h.ended with hk | hk <;>
      (simp only [List.headD_nil, hk]; exact meets_unexpected h hu wanted)
  | cons t w =>
    rw [List.headD_cons]
    cases hk : t.kind with
    | identifier =>
      have hr : Rule.name wanted (t :: w) = .ok (.bare t.lexeme, w) := by simp [Rule.name, Token.name?, hk]
      rw [hr]
      exact (meets_advance h hu).bind fun _ hj hu' => meets_pure hj hu' (Name.bare t.lexeme)
    | backquoted =>
      simp only
      refine (meets_advance h hu).bind fun {j u'} _ hj hu' => ?_
      by_cases hv : t.value.isEmpty = true
      · have hr : Rule.name wanted (t :: w) = .error ⟨.emptyName wanted t, w⟩ := by
          simp only [Rule.name, Token.name?, hk, hv, if_true]
        rw [hr, if_pos hv, ← hu']
        exact meets_here hj rfl
      · have hr : Rule.name wanted (t :: w) = .ok (.backquoted t.value, w) := by
          simp only [Rule.name, Token.name?, hk, hv]
          rfl
        rw [hr, if_neg hv]
        exact meets_pure hj hu' _
    | _ =>
      simp only [Rule.name, Token.name?, hk, reduceCtorEq, if_false]
      exact meets_unexpected h hu wanted

theorem follows_expect (wanted : Expectation) {k : Token.Kind} (hs : k ≠ .semicolon) (hk : k ≠ .endOfInput) :
    Follows (expect wanted k) (Rule.expect wanted k) := by
  refine ⟨fun {ts i u e after} h => ?_⟩
  refine Meets.of_run_eq (peek_bind_run h _) ?_
  cases hu : Token.significant u with
  | nil =>
    rw [List.headD_nil, if_neg (kind_ne_of_ended h.ended hs hk)]
    exact meets_unexpected h hu wanted
  | cons t w =>
    rw [List.headD_cons, Rule.expect, Rule.read]
    by_cases ht : t.kind = k
    · simp only [if_pos ht]
      exact meets_advance h hu
    · simp only [if_neg ht]
      exact meets_unexpected h hu wanted

theorem follows_keyword (wanted : Expectation) (k : Keyword) :
    Follows (keyword wanted k) (Rule.keyword wanted k) :=
  follows_expect wanted nofun nofun

def pickingRule (picks : Token → Option β) (rule : β → Rule α) : Rule (Option α)
  | [] => .ok (none, [])
  | t :: w =>
    match picks t with
    | none => .ok (none, t :: w)
    | some b => (rule b w).map fun r => (some r.1, r.2)

def PicksInner (picks : Token → Option β) : Prop := ∀ e : Token, ¬ e.IsInner → picks e = none

theorem follows_optional {picks : Token → Option β} (hp : PicksInner picks) {next : β → Walk α} {rule : β → Rule α}
    (hn : ∀ b, Follows (next b) (rule b)) : Follows (optional picks next) (pickingRule picks rule) := by
  refine ⟨fun {ts i u e after} h => ?_⟩
  refine Meets.of_run_eq (peek_bind_run h _) ?_
  cases hu : Token.significant u with
  | nil =>
    rw [List.headD_nil, hp e h.ended]
    exact meets_pure h hu none
  | cons t w =>
    rw [List.headD_cons, pickingRule]
    cases hb : picks t with
    | none => exact meets_pure h hu none
    | some b =>
      refine (meets_advance h hu).bind fun {j u'} _ hj hu' => ?_
      have hm := (hn b).meets hj
      rw [hu'] at hm
      exact hm.map some

theorem after_eq_picking {announces : Token.Kind → Bool} {picks : Token → Option Unit}
    (ha : ∀ t : Token, picks t = if announces t.kind then some () else none) (rule : Rule α) :
    Rule.after announces rule = pickingRule picks fun _ => rule := by
  funext w
  cases w with
  | nil => rfl
  | cons t w =>
    rw [Rule.after, pickingRule, ha]
    by_cases h : announces t.kind = true <;> simp only [h, if_true, Bool.false_eq_true, if_false]

theorem read?_eq_picking (f : Token → Option α) : Rule.read? f = pickingRule f pure := by
  funext w
  cases w with
  | nil => rfl
  | cons t w =>
    rw [Rule.read?, pickingRule]
    cases f t <;> rfl

/-! ## Repeated phrases -/

def Repeats (step : Rule (Option α)) (rule : Rule (List α)) : Prop :=
  ∀ w, rule w =
    (do match ← step with
        | none => return []
        | some a => do
          let as ← rule
          return a :: as : Rule (List α)) w

def gatherNext (stride : Stride α) : Option α → Walk (List α)
  | none => pure []
  | some a => do
    let as ← gather stride
    return a :: as

theorem gather_run (stride : Stride α) (ts : List Token) (i : Nat) :
    (gather stride).run ts i = (stride.walk >>= gatherNext stride).run ts i := by
  show gatherFrom stride ts i = _
  rw [gatherFrom, bind_run]
  split
  · next h => rw [h]
  · next h => rw [h]
  · next h => rw [h]; rfl
  · next a j h =>
    rw [h]
    show _ = (gather stride >>= fun as => pure (a :: as)).run ts j
    rw [bind_run]
    split
    · next h' => rw [show (gather stride).run ts j = _ from h']
    · next h' => rw [show (gather stride).run ts j = _ from h']
    · next h' => rw [show (gather stride).run ts j = _ from h']; rfl

theorem follows_gather {stride : Stride α} {step : Rule (Option α)} {rule : Rule (List α)}
    (hs : Follows stride.walk step) (hr : Repeats step rule) : Follows (gather stride) rule := by
  refine ⟨fun {ts i u e after} h => ?_⟩
  -- every stride is ahead, so there are ever fewer indices left
  obtain ⟨n, hn⟩ : ∃ n, n = ts.length - i := ⟨_, rfl⟩
  induction n using Nat.strongRecOn generalizing i u with
  | _ n ih =>
    refine Meets.of_run_eq (gather_run stride ts i) ?_
    have hm := hs.meets h
    rw [hr, Rule.bind_run]
    cases hstep : step (Token.significant u) with
    | error f =>
      rw [hstep] at hm
      exact hm.bind_error
    | ok p =>
      obtain ⟨o, w⟩ := p
      rw [hstep] at hm
      refine hm.bind fun {j u'} hrun hj (hu : Token.significant u' = w) => ?_
      cases o with
      | none => exact meets_pure hj hu []
      | some a =>
        obtain ⟨hij, hi⟩ := stride.ahead hrun
        have hm' := ih (ts.length - j) (by omega) hj rfl
        rw [hu] at hm'
        have hmap := hm'.map (a :: ·)
        simp only [Rule.bind_run]
        cases hrest : rule w with
        | error f => rwa [hrest] at hmap
        | ok q => rwa [hrest] at hmap

theorem repeats_repeated {announces : Token.Kind → Bool} {rule : Rule α} (h : Rule.Shrinks rule) :
    Repeats (Rule.after announces rule) (Rule.repeated announces rule) := by
  intro w
  cases w with
  | nil => rfl
  | cons t w =>
    by_cases ht : announces t.kind = true
    · rw [Rule.repeated_announced h ht, Rule.bind_run, Rule.bind_run, Rule.after, if_pos ht]
      cases rule w <;> rfl
    · rw [Rule.repeated_stop rule (by simpa using ht), Rule.bind_run, Rule.after, if_neg ht]
      rfl

theorem repeats_readAll (f : Token → Option α) : Repeats (Rule.read? f) (Rule.readAll f) := by
  intro w
  cases w with
  | nil => rfl
  | cons t w =>
    rw [Rule.readAll, Rule.bind_run, Rule.read?]
    cases f t with
    | none => rfl
    | some a =>
      simp only [Rule.bind_run]
      cases Rule.readAll f w <;> rfl

/-! ## Names, clauses and values -/

theorem picksInner_ofKind {k : Token.Kind} (hs : k ≠ .semicolon) (hk : k ≠ .endOfInput) : PicksInner (ofKind k) :=
  fun _ he => if_neg (kind_ne_of_ended he hs hk)

theorem after_eq_ofKind (k : Token.Kind) (rule : Rule α) :
    Rule.after (· == k) rule = pickingRule (ofKind k) fun _ => rule :=
  after_eq_picking (fun t => by simp [ofKind]) rule

theorem follows_announced {k : Token.Kind} (hs : k ≠ .semicolon) (hk : k ≠ .endOfInput) {walk : Walk α}
    {rule : Rule α} (h : Follows walk rule) :
    Follows (optional (ofKind k) fun _ => walk) (Rule.after (· == k) rule) := by
  rw [after_eq_ofKind]
  exact follows_optional (picksInner_ofKind hs hk) fun _ => h

theorem follows_repeated {k : Token.Kind} (hs : k ≠ .semicolon) (hk : k ≠ .endOfInput) {walk : Walk α}
    {rule : Rule α} (h : Follows walk rule) (hsh : Rule.Shrinks rule) :
    Follows (gather (.picking (ofKind k) (ofKind_endOfInput hk) fun _ => walk)) (Rule.repeated (· == k) rule) :=
  follows_gather (follows_announced hs hk h) (repeats_repeated hsh)

theorem follows_dottedName (wanted : Expectation) : Follows (dottedName wanted) (Rule.dottedName wanted) :=
  (follows_name wanted).bind fun _ =>
    (follows_repeated (by decide) (by decide) (follows_name _) (Rule.name_parses _).shrinks).bind fun _ =>
      follows_pure _

theorem follows_formatPath : Follows formatPath Rule.formatPath :=
  (follows_name _).bind fun _ => (follows_expect _ (by decide) (by decide)).bind fun _ =>
    (follows_name _).bind fun _ => follows_pure _

theorem read_string_bind (rest : Text → Rule α) :
    (Rule.read .optionValue Token.string? >>= rest) =
      (Rule.expect .optionValue .string >>= fun t => rest t.value) := by
  funext w
  rw [Rule.bind_run, Rule.bind_run]
  cases w with
  | nil => rfl
  | cons t w =>
    rw [Rule.read, Rule.expect, Rule.read, Token.string?]
    by_cases ht : t.kind = .string <;> simp only [ht, if_true, if_false]

theorem follows_assignment : Follows assignment Rule.assignment :=
  (follows_name _).bind fun _ => (follows_expect _ (by decide) (by decide)).bind fun _ => by
    rw [read_string_bind]
    exact (follows_expect _ (by decide) (by decide)).bind fun _ => follows_pure _

theorem follows_firstAssignment :
    Follows firstAssignment (Rule.startingWith Token.Kind.isName Rule.assignment) := by
  refine ⟨fun {ts i u e after} h => ?_⟩
  refine Meets.of_run_eq (peek_bind_run h _) ?_
  cases hu : Token.significant u with
  | nil =>
    have he : ¬ e.kind.isName = true := by
      rcases Token.kind_of_not_isInner h.ended with hk | hk <;> simp [hk, Token.Kind.isName]
    rw [List.headD_nil, if_neg he]
    exact meets_pure h hu none
  | cons t w =>
    rw [List.headD_cons, Rule.startingWith]
    by_cases ht : t.kind.isName = true
    · rw [if_pos ht, if_pos ht]
      have hm := follows_assignment.meets h
      rw [hu] at hm
      exact hm.map some
    · rw [if_neg ht, if_neg ht]
      exact meets_pure h hu none

theorem picksInner_marker? : PicksInner Token.marker? := by
  intro e he
  rcases Token.kind_of_not_isInner he with hk | hk <;> simp [Token.marker?, hk]

theorem follows_clause : Follows clause Rule.clause := by
  have hmarker : Follows (optional Token.marker? pure) (Rule.read? Token.marker?) := by
    rw [read?_eq_picking]
    exact follows_optional picksInner_marker? fun _ => follows_pure _
  exact hmarker.bind fun _ => follows_firstAssignment.bind fun _ =>
    (follows_repeated (by decide) (by decide) follows_assignment
      Rule.assignment_parses.shrinks).bind fun _ => follows_pure _

theorem follows_settingValue : Follows settingValue Rule.settingValue := by
  refine ⟨fun {ts i u e after} h => ?_⟩
  refine Meets.of_run_eq (peek_bind_run h _) ?_
  cases hu : Token.significant u with
  | nil =>
    rcases Token.kind_of_not_isInner h.ended with hk | hk <;>
      (simp only [List.headD_nil, hk]; exact meets_unexpected h hu _)
  | cons t w =>
    rw [List.headD_cons, Rule.settingValue]
    have hname := (follows_dottedName .valueName).meets h
    rw [hu] at hname
    cases hk : t.kind with
    | identifier => exact hname.map SetValue.name
    | backquoted => exact hname.map SetValue.name
    | string => exact (meets_advance h hu).bind fun _ hj hw => meets_pure hj hw (SetValue.string t.value)
    | blockString => exact (meets_advance h hu).bind fun _ hj hw => meets_pure hj hw (SetValue.block t.value)
    | _ => exact meets_unexpected h hu .settingValue

theorem follows_load : Follows load Rule.load :=
  follows_formatPath.bind fun _ => follows_clause.bind fun _ => (follows_keyword _ _).bind fun _ =>
    (follows_name _).bind fun _ => follows_pure _

theorem picksInner_writeMode? : PicksInner Token.writeMode? := by
  intro e he
  rcases Token.kind_of_not_isInner he with hk | hk <;> simp [Token.writeMode?, hk]

theorem picksInner_partitionColumn : PicksInner partitionColumn := by
  intro e he
  rcases Token.kind_of_not_isInner he with hk | hk <;> simp [partitionColumn, hk]

theorem follows_save : Follows save Rule.save := by
  have hmodes : Follows (gather (.picking Token.writeMode? writeMode?_endOfInput pure))
      (Rule.readAll Token.writeMode?) := by
    refine follows_gather ?_ (repeats_readAll _)
    rw [read?_eq_picking]
    exact follows_optional picksInner_writeMode? fun _ => follows_pure _
  have hcolumn : Follows (optional partitionColumn fun _ => name .columnName)
      (Rule.after (fun k => k == .keyword .partitionBy || k == .keyword .as) (Rule.name .columnName)) := by
    have hpicks : ∀ t : Token, partitionColumn t =
        if (t.kind == .keyword .partitionBy || t.kind == .keyword .as) = true then some () else none :=
      fun t => by simp [partitionColumn]
    rw [after_eq_picking hpicks]
    exact follows_optional picksInner_partitionColumn fun _ => follows_name _
  exact hmodes.bind fun _ => (follows_name _).bind fun _ => (follows_keyword _ _).bind fun _ =>
    follows_formatPath.bind fun _ => follows_clause.bind fun _ => hcolumn.bind fun _ => follows_pure _

theorem follows_setting : Follows setting Rule.setting :=
  (follows_dottedName _).bind fun _ => (follows_expect _ (by decide) (by decide)).bind fun _ =>
    follows_settingValue.bind fun _ => follows_clause.bind fun _ => follows_pure _

theorem follows_connect : Follows connect Rule.connect :=
  (follows_name _).bind fun _ => follows_clause.bind fun _ =>
    (follows_announced (by decide) (by decide) (follows_dottedName _)).bind fun _ => follows_pure _

theorem follows_model (action : ModelAction) : Follows (model action) (Rule.model action) :=
  (follows_name _).bind fun _ => (follows_keyword _ _).bind fun _ => follows_formatPath.bind fun _ =>
    follows_clause.bind fun _ => follows_pure _

theorem follows_register : Follows register Rule.register :=
  follows_formatPath.bind fun _ => (follows_keyword _ _).bind fun _ => (follows_name _).bind fun _ =>
    follows_clause.bind fun _ => follows_pure _

theorem follows_unregister : Follows unregister Rule.unregister :=
  follows_formatPath.bind fun _ => follows_clause.bind fun _ => follows_pure _

theorem follows_inclusion : Follows inclusion Rule.inclusion :=
  follows_formatPath.bind fun _ => follows_clause.bind fun _ => follows_pure _

end Walk

end PipelineScript
