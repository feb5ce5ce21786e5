import Mathlib.Data.Set.Image
import PipelineScript.Proofs.Syntax.Phrases

/-!
# One token of lookahead

The tokens in front of the first one that a rule cannot take can still be
completed, but with it nothing can. Main statements: the `foresees_` lemmas.
-/

namespace PipelineScript

open Syntax

structure Failure.Behind (f : Failure) (before w : List Token) : Prop where
  front : ∀ e, ∃ rest, w ++ [e] = before ++ f.offender e :: rest
  emptyName : ∀ wanted t, f.cause = .emptyName wanted t → t.kind = .backquoted
  stated : f.cause ≠ .notAStatement

namespace Failure

theorem behind_unexpected (wanted : Expectation) (w : List Token) : Behind ⟨.unexpected wanted, w⟩ [] w where
  front e := by
    cases w with
    | nil => exact ⟨[], rfl⟩
    | cons t w => exact ⟨w ++ [e], rfl⟩
  emptyName _ _ h := by cases h
  stated := nofun

theorem behind_emptyName (wanted : Expectation) {t : Token} (ht : t.kind = .backquoted) (w : List Token) :
    Behind ⟨.emptyName wanted t, w⟩ [] (t :: w) where
  front e := ⟨w ++ [e], rfl⟩
  emptyName _ _ h := by
    obtain ⟨-, rfl⟩ := Cause.emptyName.inj h
    exact ht
  stated := nofun

theorem Behind.append {f : Failure} {before w : List Token} (h : f.Behind before w) (c : List Token) :
    f.Behind (c ++ before) (c ++ w) where
  front e := by
    obtain ⟨rest, hr⟩ := h.front e
    exact ⟨rest, by rw [List.append_assoc, List.append_assoc, hr]⟩
  emptyName := h.emptyName
  stated := h.stated

end Failure

def Viable (L : Set (List Token)) (b : List Token) : Prop := ∃ z ∈ L, b <+: z

namespace Viable

variable {L M : Set (List Token)} {b : List Token}

theorem nil (h : L.Nonempty) : Viable L [] := by
  obtain ⟨z, hz⟩ := h
  exact ⟨z, hz, List.nil_prefix⟩

theorem of_prefix {c : List Token} (h : Viable L c) (hb : b <+: c) : Viable L b := by
  obtain ⟨z, hz, hc⟩ := h
  exact ⟨z, hz, hb.trans hc⟩

theorem append (c : List Token) (h : Viable {z | c ++ z ∈ L} b) : Viable L (c ++ b) := by
  obtain ⟨z, hz, hb⟩ := h
  exact ⟨c ++ z, hz, (List.prefix_append_right_inj c).mpr hb⟩

theorem not_of_empty (h : Viable ∅ b) : False := by
  obtain ⟨z, hz, -⟩ := h
  exact hz

end Viable

namespace Rule

variable {α β τ : Type} {rule : Rule α} {L M : Set (List Token)} {w : List Token}

def StartsAs (v r : List Token) : Prop := ∀ t ∈ v.head?, t ∈ r.head?

theorem startsAs_nil (r : List Token) : StartsAs [] r := nofun

theorem startsAs_cons (t : Token) (v r : List Token) : StartsAs (t :: v) (t :: r) := fun _ h => h

theorem StartsAs.append {v r : List Token} (h : StartsAs v r) (c : List Token) : StartsAs (c ++ v) (c ++ r) := by
  cases c with
  | nil => exact h
  | cons t c => exact startsAs_cons t _ _

theorem StartsAs.cases {t : Token} {v r : List Token} (h : StartsAs v (t :: r)) : v = [] ∨ ∃ u, v = t :: u := by
  cases v with
  | nil => exact .inl rfl
  | cons x v =>
    obtain rfl := Option.some.inj (h x rfl)
    exact .inr ⟨v, rfl⟩

theorem StartsAs.eq_nil {v : List Token} (h : StartsAs v []) : v = [] := by
  cases v with
  | nil => rfl
  | cons x v => cases h x rfl

/-- What the rule does with `w` does not depend on more than one token behind those that it takes. If it refuses,
then the tokens in front of the offender start something in `L`, and it refuses whatever starts with them and the
offender. -/
structure ForeseesAt (rule : Rule α) (L : Set (List Token)) (w : List Token) : Prop where
  taken : ∀ {a r}, rule w = .ok (a, r) → ∃ c, w = c ++ r ∧ ∀ v, StartsAs v r → rule (c ++ v) = .ok (a, v)
  refused : ∀ {f}, rule w = .error f → ∃ before, Viable L before ∧ f.Behind before w ∧
    ∀ t rest, w = before ++ t :: rest → ∀ v, ∃ f', rule (before ++ t :: v) = .error f'

def Foresees (rule : Rule α) (L : Set (List Token)) : Prop := ∀ w, ForeseesAt rule L w

theorem ForeseesAt.mono (h : ForeseesAt rule L w) (hL : ∀ b, Viable L b → Viable M b) : ForeseesAt rule M w where
  taken := h.taken
  refused hf := by
    obtain ⟨before, hb, hrest⟩ := h.refused hf
    exact ⟨before, hL _ hb, hrest⟩

/-! ## What rules are built with -/

theorem foreseesAt_nothing {a : α} (h : ∀ v, StartsAs v w → rule v = .ok (a, v)) : ForeseesAt rule L w where
  taken {a' r} hr := by
    rw [h w fun _ ht => ht] at hr
    obtain ⟨rfl, rfl⟩ := Prod.mk.inj (Except.ok.inj hr)
    exact ⟨[], rfl, h⟩
  refused hf := by
    rw [h w fun _ ht => ht] at hf
    cases hf

theorem foreseesAt_refusal {f : Failure} (hL : L.Nonempty) (hw : rule w = .error f) (hf : f.Behind [] w)
    (h : ∀ t rest, w = t :: rest → ∀ v, ∃ f', rule (t :: v) = .error f') : ForeseesAt rule L w where
  taken hr := by
    rw [hw] at hr
    cases hr
  refused hr := by
    obtain rfl := Except.error.inj (hw.symm.trans hr)
    exact ⟨[], .nil hL, hf, h⟩

theorem ForeseesAt.behind {next : Rule α} {t : Token} (h : ForeseesAt next L w) (hn : ∀ v, rule (t :: v) = next v)
    (hL : ∀ z ∈ L, t :: z ∈ M) : ForeseesAt rule M (t :: w) where
  taken hr := by
    rw [hn] at hr
    obtain ⟨c, rfl, hc⟩ := h.taken hr
    exact ⟨t :: c, rfl, fun v hv => (hn _).trans (hc v hv)⟩
  refused hr := by
    rw [hn] at hr
    obtain ⟨before, ⟨z, hz, hb⟩, hf, hall⟩ := h.refused hr
    refine ⟨t :: before, ⟨t :: z, hL z hz, List.cons_prefix_cons.mpr ⟨rfl, hb⟩⟩, hf.append [t], fun x rest hx v => ?_⟩
    obtain ⟨f', hf'⟩ := hall x rest (List.cons.inj hx).2 v
    exact ⟨f', (hn _).trans hf'⟩

theorem foresees_pure (a : α) : Foresees (pure a) L := fun _ => foreseesAt_nothing fun _ _ => rfl

theorem foreseesAt_token {a : α} {t : Token} (h : ∀ v, rule (t :: v) = .ok (a, v)) : ForeseesAt rule L (t :: w) :=
  (foresees_pure a (L := ∅) w).behind h fun z hz => absurd hz (Set.notMem_empty z)

/-- The second rule has to foresee only what is left behind a tree that the first one reads. -/
theorem ForeseesAt.bind {yield : τ → List Token} {ast : τ → α} {stops : List Token.Kind}
    (hp : Parses rule yield ast stops) (h : ForeseesAt rule (Set.range yield) w) {next : α → Rule β}
    (hL : ∀ x, ∃ z, yield x ++ z ∈ L)
    (hn : ∀ x r, w = yield x ++ r → ForeseesAt (next (ast x)) {z | yield x ++ z ∈ L} r) :
    ForeseesAt (rule >>= next) L w := by
  -- the tokens that the first rule takes are a yield, and it takes them in front of whatever starts as the rest does
  have first {a : α} {r : List Token} (hr : rule w = .ok (a, r)) : ∃ x, w = yield x ++ r ∧ a = ast x ∧
      ∀ v, StartsAs v r → rule (yield x ++ v) = .ok (a, v) := by
    obtain ⟨c, hw, hc⟩ := h.taken hr
    obtain ⟨x, hx, ha⟩ := hp.sound hr
    obtain rfl := List.append_cancel_right (hw.symm.trans hx)
    exact ⟨x, hx, ha, hc⟩
  constructor
  · intro b s hs
    obtain ⟨a, r, hr, hb⟩ := bind_eq_ok.mp hs
    obtain ⟨x, hw, rfl, hx⟩ := first hr
    obtain ⟨c, rfl, hc⟩ := (hn x r hw).taken hb
    refine ⟨yield x ++ c, by rw [hw, List.append_assoc], fun v hv => ?_⟩
    rw [List.append_assoc, bind_of_ok next (hx _ (hv.append c))]
    exact hc v hv
  · intro f hf
    cases hr : rule w with
    | error g =>
      rw [bind_run, hr] at hf
      obtain rfl := Except.error.inj hf
      obtain ⟨before, ⟨_, ⟨x, rfl⟩, hb⟩, hg, hall⟩ := h.refused hr
      obtain ⟨z, hz⟩ := hL x
      refine ⟨before, ⟨_, hz, hb.trans (List.prefix_append ..)⟩, hg, fun t rest ht v => ?_⟩
      obtain ⟨f', hf'⟩ := hall t rest ht v
      exact ⟨f', by rw [bind_run, hf']⟩
    | ok p =>
      obtain ⟨a, r⟩ := p
      obtain ⟨x, hw, rfl, hx⟩ := first hr
      rw [bind_of_ok next hr] at hf
      obtain ⟨before, hb, hg, hall⟩ := (hn x r hw).refused hf
      refine ⟨yield x ++ before, hb.append _, hw ▸ hg.append _, fun t rest ht v => ?_⟩
      obtain rfl : r = before ++ t :: rest := by
        rw [hw, List.append_assoc] at ht
        exact List.append_cancel_left ht
      obtain ⟨f', hf'⟩ := hall t rest rfl v
      refine ⟨f', ?_⟩
      rw [List.append_assoc, bind_of_ok next (hx _ ((startsAs_cons t v rest).append before))]
      exact hf'

theorem Foresees.bind {yield : τ → List Token} {ast : τ → α} {stops : List Token.Kind}
    (h : Foresees rule (Set.range yield)) (hp : Parses rule yield ast stops) {next : α → Rule β}
    (hL : ∀ x, ∃ z, yield x ++ z ∈ L) (hn : ∀ x, Foresees (next (ast x)) {z | yield x ++ z ∈ L}) :
    Foresees (rule >>= next) L :=
  fun w => (h w).bind hp hL fun x r _ => hn x r

theorem foresees_read (wanted : Expectation) (f : Token → Option α) (hL : L.Nonempty) : Foresees (read wanted f) L := by
  intro w
  cases w with
  | nil => exact foreseesAt_refusal hL rfl (Failure.behind_unexpected wanted []) nofun
  | cons t w =>
    cases ht : f t with
    | some a =>
      exact foreseesAt_token fun v => by rw [read, ht]
    | none =>
      have hn (v : List Token) : read wanted f (t :: v) = .error ⟨.unexpected wanted, t :: v⟩ := by rw [read, ht]
      refine foreseesAt_refusal hL (hn w) (Failure.behind_unexpected wanted _) fun x rest hx v => ?_
      obtain rfl := (List.cons.inj hx).1
      exact ⟨_, hn v⟩

theorem foresees_expect (wanted : Expectation) (k : Token.Kind) (hL : L.Nonempty) : Foresees (expect wanted k) L :=
  foresees_read wanted _ hL

theorem foresees_read? (f : Token → Option α) : Foresees (read? f) L := by
  intro w
  cases w with
  | nil => exact foreseesAt_nothing (a := none) fun v hv => hv.eq_nil ▸ rfl
  | cons t w =>
    cases ht : f t with
    | some a =>
      exact foreseesAt_token fun v => by rw [read?, ht]
    | none =>
      refine foreseesAt_nothing (a := none) fun v hv => ?_
      obtain rfl | ⟨u, rfl⟩ := hv.cases
      · rfl
      · rw [read?, ht]

theorem foresees_name (wanted : Expectation) (hL : L.Nonempty) : Foresees (name wanted) L := by
  intro w
  cases w with
  | nil => exact foreseesAt_refusal hL rfl (Failure.behind_unexpected wanted []) nofun
  | cons t w =>
    cases ht : t.name? with
    | some n =>
      exact foreseesAt_token fun v => by rw [name, ht]
    | none =>
      by_cases hk : t.kind = .backquoted
      · have hn (v : List Token) : name wanted (t :: v) = .error ⟨.emptyName wanted t, v⟩ := by simp [name, ht, hk]
        refine foreseesAt_refusal hL (hn w) (Failure.behind_emptyName wanted hk w) fun x rest hx v => ?_
        obtain rfl := (List.cons.inj hx).1
        exact ⟨_, hn v⟩
      · have hn (v : List Token) : name wanted (t :: v) = .error ⟨.unexpected wanted, t :: v⟩ := by
          simp [name, ht, hk]
        refine foreseesAt_refusal hL (hn w) (Failure.behind_unexpected wanted _) fun x rest hx v => ?_
        obtain rfl := (List.cons.inj hx).1
        exact ⟨_, hn v⟩

/-! ## Rules inside rules -/

theorem ForeseesAt.map (h : ForeseesAt rule L w) (g : α → β) :
    ForeseesAt (fun u => (rule u).map fun r => (g r.1, r.2)) L w where
  taken hr := by
    obtain ⟨⟨a, s⟩, ha, he⟩ := map_eq_ok.mp hr
    obtain ⟨rfl, rfl⟩ := Prod.mk.inj he
    obtain ⟨c, hw, hc⟩ := h.taken ha
    exact ⟨c, hw, fun v hv => by rw [hc v hv]; rfl⟩
  refused {f} hr := by
    have hf : rule w = .error f := by
      revert hr
      cases rule w with
      | error g => exact fun hr => congrArg Except.error (Except.error.inj hr)
      | ok p => nofun
    obtain ⟨before, hL, hb, hall⟩ := h.refused hf
    refine ⟨before, hL, hb, fun t rest ht v => ?_⟩
    obtain ⟨f', hf'⟩ := hall t rest ht v
    exact ⟨f', by rw [hf']; rfl⟩

theorem ForeseesAt.of_next {other : Rule α} {t : Token} (h : ForeseesAt other L (t :: w))
    (hn : ∀ v, rule (t :: v) = other (t :: v)) (hne : ∀ {a r}, other (t :: w) = .ok (a, r) → r ≠ t :: w) :
    ForeseesAt rule L (t :: w) where
  taken hr := by
    rw [hn] at hr
    obtain ⟨c, hw, hc⟩ := h.taken hr
    cases c with
    | nil => exact absurd hw.symm (hne hr)
    | cons x c =>
      obtain rfl := (List.cons.inj hw).1
      exact ⟨t :: c, hw, fun v hv => (hn _).trans (hc v hv)⟩
  refused hr := by
    rw [hn] at hr
    obtain ⟨before, hb, hf, hall⟩ := h.refused hr
    refine ⟨before, hb, hf, fun x rest hx v => ?_⟩
    obtain ⟨f', hf'⟩ := hall x rest hx v
    refine ⟨f', ?_⟩
    cases before with
    | nil =>
      obtain rfl := (List.cons.inj hx).1
      exact (hn _).trans hf'
    | cons y before =>
      obtain rfl := (List.cons.inj hx).1
      exact (hn _).trans hf'

theorem foresees_readAll (f : Token → Option α) : Foresees (readAll f) L := by
  intro w
  refine ForeseesAt.mono (L := ∅) ?_ fun _ hb => hb.not_of_empty.elim
  induction w with
  | nil => exact foreseesAt_nothing (a := []) fun v hv => hv.eq_nil ▸ rfl
  | cons t w ih =>
    cases ht : f t with
    | some a =>
      refine (ih.map (List.cons a)).behind (fun v => ?_) fun z hz => absurd hz (Set.notMem_empty z)
      rw [readAll, ht]
    | none =>
      refine foreseesAt_nothing (a := []) fun v hv => ?_
      obtain rfl | ⟨u, rfl⟩ := hv.cases
      · rfl
      · rw [readAll, ht]

theorem foresees_startingWith {starts : Token.Kind → Bool} (h : Foresees rule L)
    (hne : ∀ {w a r}, rule w = .ok (a, r) → r ≠ w) : Foresees (startingWith starts rule) L := by
  intro w
  cases w with
  | nil => exact foreseesAt_nothing (a := none) fun v hv => hv.eq_nil ▸ rfl
  | cons t w =>
    by_cases ht : starts t.kind = true
    · refine ((h (t :: w)).map some).of_next (fun v => ?_) fun hr => ?_
      · rw [startingWith, if_pos ht]
      · obtain ⟨⟨a, s⟩, ha, he⟩ := map_eq_ok.mp hr
        obtain ⟨-, rfl⟩ := Prod.mk.inj he
        exact hne ha
    · refine foreseesAt_nothing (a := none) fun v hv => ?_
      obtain rfl | ⟨u, rfl⟩ := hv.cases
      · rfl
      · rw [startingWith, if_neg ht]

section
variable {kinds : List Token.Kind} {announces : Token.Kind → Bool} (ha : ∀ k, announces k = true ↔ k ∈ kinds)
  {yield : τ → List Token} {ast : τ → α}
include ha

theorem foresees_after (h : Foresees rule (Set.range yield)) : Foresees (after announces rule)
    (Set.range fun p : Option (Terminal kinds × τ) => p.toList.flatMap (announced yield)) := by
  intro w
  cases w with
  | nil => exact foreseesAt_nothing (a := none) fun v hv => hv.eq_nil ▸ rfl
  | cons t w =>
    by_cases ht : announces t.kind = true
    · refine ((h w).map some).behind (fun v => ?_) ?_
      · rw [after, if_pos ht]
      · rintro _ ⟨x, rfl⟩
        exact ⟨some (⟨t, (ha _).mp ht⟩, x), by simp [announced]⟩
    · refine foreseesAt_nothing (a := none) fun v hv => ?_
      obtain rfl | ⟨u, rfl⟩ := hv.cases
      · rfl
      · rw [after, if_neg ht]

theorem foresees_repeated (hp : Parses rule yield ast []) (h : Foresees rule (Set.range yield)) :
    Foresees (repeated announces rule)
      (Set.range fun ps : List (Terminal kinds × τ) => ps.flatMap (announced yield)) := by
  intro w
  -- on the number of tokens: a round leaves fewer of them
  induction hn : w.length using Nat.strongRecOn generalizing w with
  | ind n ih =>
    cases w with
    | nil => exact foreseesAt_nothing (a := []) fun v hv => hv.eq_nil ▸ rfl
    | cons t w =>
      by_cases ht : announces t.kind = true
      · let item (x : τ) : Terminal kinds × τ := (⟨t, (ha _).mp ht⟩, x)
        refine ForeseesAt.behind
          (L := {z | t :: z ∈ Set.range fun ps : List (Terminal kinds × τ) => ps.flatMap (announced yield)}) ?_
          (repeated_announced hp.shrinks ht) fun _ hz => hz
        refine (h w).bind hp (fun x => ⟨[], [item x], by simp [item, announced]⟩) fun x r hw => ?_
        have hr : r.length < n := by
          rw [← hn, List.length_cons, hw, List.length_append]
          omega
        exact (ih _ hr r rfl).bind (repeated_parses ha hp)
          (fun ps => ⟨[], item x :: ps, by simp [item, announced]⟩) fun ps s _ => foresees_pure _ s
      · refine foreseesAt_nothing (a := []) fun v hv => ?_
        obtain rfl | ⟨u, rfl⟩ := hv.cases
        · rfl
        · exact repeated_stop rule (by simpa using ht) u

end

/-! ## Names, clauses and values -/

theorem foresees_ident (wanted : Expectation) : Foresees (name wanted) (Set.range fun i : Ident => [i.token]) :=
  foresees_name wanted (Set.range_nonempty _)

theorem foresees_terminal (wanted : Expectation) (k : Token.Kind) :
    Foresees (expect wanted k) (Set.range fun t : Terminal [k] => [t.token]) :=
  foresees_expect wanted k (Set.range_nonempty _)

theorem foresees_dottedName (wanted : Expectation) : Foresees (dottedName wanted) (Set.range Dotted.yield) := by
  refine (foresees_ident wanted).bind (name_parses wanted) (fun i => ⟨_, ⟨i, []⟩, rfl⟩) fun i => ?_
  exact (foresees_repeated (beq_kind_iff .dot) (name_parses .nextPart) (foresees_ident _)).bind
    (repeated_parses (beq_kind_iff .dot) (name_parses .nextPart)) (fun ps => ⟨[], ⟨i, ps⟩, by simp; rfl⟩)
    fun ps => foresees_pure _

theorem foresees_formatPath : Foresees formatPath (Set.range Path.yield) := by
  refine (foresees_ident _).bind (name_parses _) (fun i => ⟨_, ⟨i, default, default⟩, rfl⟩) fun i => ?_
  refine (foresees_terminal _ _).bind (expect_parses _ _) (fun d => ⟨_, ⟨i, d, default⟩, rfl⟩) fun d => ?_
  exact (foresees_ident _).bind (name_parses _) (fun j => ⟨_, ⟨i, d, j⟩, rfl⟩) fun j => foresees_pure _

theorem foresees_assignment : Foresees assignment (Set.range Assign.yield) := by
  refine (foresees_ident _).bind (name_parses _) (fun k => ⟨_, ⟨k, default, default⟩, rfl⟩) fun k => ?_
  refine (foresees_terminal _ _).bind (expect_parses _ _) (fun e => ⟨_, ⟨k, e, default⟩, rfl⟩) fun e => ?_
  exact (foresees_read _ _ (Set.range_nonempty _)).bind string_parses (fun v => ⟨_, ⟨k, e, v⟩, rfl⟩)
    fun v => foresees_pure _

theorem foresees_first : Foresees (startingWith Token.Kind.isName assignment)
    (Set.range fun o : Option Assign => o.toList.flatMap Assign.yield) := by
  refine foresees_startingWith (fun w => (foresees_assignment w).mono ?_)
    (assignment_parses.rest_ne fun a => List.cons_ne_nil _ _)
  rintro b ⟨_, ⟨a, rfl⟩, hb⟩
  exact ⟨_, ⟨some a, rfl⟩, by simpa using hb⟩

theorem foresees_clause : Foresees clause (Set.range Options.yield) := by
  refine (foresees_read? _).bind marker_parses (fun m => ⟨_, ⟨m, none, []⟩, rfl⟩) fun m => ?_
  refine foresees_first.bind first_parses (fun a => ⟨_, ⟨m, a, []⟩, rfl⟩) fun a => ?_
  exact (foresees_repeated (beq_kind_iff (.keyword .and)) assignment_parses foresees_assignment).bind
    (repeated_parses (beq_kind_iff (.keyword .and)) assignment_parses)
    (fun fs => ⟨[], ⟨m, a, fs⟩, by rw [List.append_nil]; rfl⟩) fun fs => foresees_pure _

theorem foresees_settingValue : Foresees settingValue (Set.range Value.yield) := by
  intro w
  cases w with
  | nil => exact foreseesAt_refusal (Set.range_nonempty _) rfl (Failure.behind_unexpected .settingValue []) nofun
  | cons t w =>
    have hname (hk : t.kind ∈ nameKinds) : ForeseesAt settingValue (Set.range Value.yield) (t :: w) := by
      have hd := (foresees_dottedName .valueName (t :: w)).mono (M := Set.range Value.yield) ?_
      · refine (hd.map SetValue.name).of_next (fun v => ?_) fun hr => ?_
        · rw [settingValue]
          split <;> simp_all [nameKinds]
        · obtain ⟨⟨a, s⟩, ha, he⟩ := map_eq_ok.mp hr
          obtain ⟨-, rfl⟩ := Prod.mk.inj he
          exact (dottedName_parses _).rest_ne (fun d => List.cons_ne_nil _ _) ha
      · rintro b ⟨_, ⟨d, rfl⟩, hb⟩
        exact ⟨_, ⟨.name d, rfl⟩, hb⟩
    cases hk : t.kind with
    | identifier => exact hname (by simp [nameKinds, hk])
    | backquoted => exact hname (by simp [nameKinds, hk])
    | string => exact foreseesAt_token fun v => by rw [settingValue, hk]
    | blockString => exact foreseesAt_token fun v => by rw [settingValue, hk]
    | _ =>
      refine foreseesAt_refusal (Set.range_nonempty _) (by rw [settingValue, hk])
        (Failure.behind_unexpected .settingValue _) fun x rest hx v => ?_
      obtain rfl := (List.cons.inj hx).1
      exact ⟨_, by rw [settingValue, hk]⟩

end Rule

end PipelineScript
