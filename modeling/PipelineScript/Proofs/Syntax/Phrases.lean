import PipelineScript.Proofs.Syntax.Unambiguous

/-!
# What the rules for phrases read

A rule parses a kind of tree if it accepts the yields of such trees and nothing
else. Main statements: one `_parses` for each phrase.
-/

namespace PipelineScript

open Syntax

namespace Rule

variable {α β τ : Type}

theorem bind_eq_ok {rule : Rule α} {next : α → Rule β} {w r : List Token} {b : β} :
    (rule >>= next) w = .ok (b, r) ↔ ∃ a s, rule w = .ok (a, s) ∧ next a s = .ok (b, r) := by
  rw [bind_run]
  cases rule w with
  | error f => simp
  | ok p =>
    constructor
    · exact fun h => ⟨p.1, p.2, rfl, h⟩
    · rintro ⟨a, s, h, hn⟩
      obtain rfl := Except.ok.inj h
      exact hn

theorem bind_of_ok {rule : Rule α} (next : α → Rule β) {w s : List Token} {a : α} (h : rule w = .ok (a, s)) :
    (rule >>= next) w = next a s := by
  rw [bind_run, h]

theorem pure_eq_ok {a b : α} {w r : List Token} : (pure a : Rule α) w = .ok (b, r) ↔ a = b ∧ w = r := by
  rw [pure_run, Except.ok.injEq, Prod.mk.injEq]

theorem map_eq_ok {ε : Type} {x : Except ε α} {f : α → β} {b : β} :
    x.map f = .ok b ↔ ∃ a, x = .ok a ∧ f a = b := by
  cases x <;> simp [Except.map]

end Rule

/-! ## Parsing a kind of tree -/

/-- The rule reads the trees of a type, each given by its yield and by what it stands for, unless a token of one of the
kinds `stops` follows. -/
structure Parses {α τ : Type} (rule : Rule α) (yield : τ → List Token) (ast : τ → α) (stops : List Token.Kind) :
    Prop where
  sound : ∀ {w r : List Token} {a : α}, rule w = .ok (a, r) → ∃ t, w = yield t ++ r ∧ a = ast t
  complete : ∀ (t : τ) {r : List Token}, Avoids stops r → rule (yield t ++ r) = .ok (ast t, r)

namespace Parses

variable {α β τ : Type} {rule : Rule α} {yield : τ → List Token} {ast : τ → α} {stops : List Token.Kind}
  (hp : Parses rule yield ast stops)
include hp

theorem of_bind {next : α → Rule β} {w r : List Token} {b : β} (h : (rule >>= next) w = .ok (b, r)) :
    ∃ t s, w = yield t ++ s ∧ next (ast t) s = .ok (b, r) := by
  obtain ⟨a, s, ha, hs⟩ := Rule.bind_eq_ok.mp h
  obtain ⟨t, rfl, rfl⟩ := hp.sound ha
  exact ⟨t, s, rfl, hs⟩

theorem complete_end (t : τ) : rule (yield t) = .ok (ast t, []) := by
  have h := hp.complete t (avoids_nil stops)
  rwa [List.append_nil] at h

theorem shrinks : Rule.Shrinks rule := by
  intro w a r hr
  obtain ⟨t, rfl, -⟩ := hp.sound hr
  simp

theorem rest_ne (hy : ∀ t, yield t ≠ []) {w r : List Token} {a : α} (h : rule w = .ok (a, r)) : r ≠ w := by
  obtain ⟨t, rfl, -⟩ := hp.sound h
  intro hr
  have hlen := congrArg List.length hr
  rw [List.length_append] at hlen
  exact hy t (List.eq_nil_of_length_eq_zero (by omega))

end Parses

namespace Rule

variable {α β τ : Type}

theorem read_eq_ok {wanted : Expectation} {f : Token → Option α} {w r : List Token} {a : α} :
    read wanted f w = .ok (a, r) ↔ ∃ t, w = t :: r ∧ f t = some a := by
  cases w with
  | nil => simp [read]
  | cons t w =>
    simp only [read]
    cases h : f t with
    | none =>
      constructor
      · intro e; cases e
      · rintro ⟨u, hu, ha⟩
        rw [← (List.cons.inj hu).1, h] at ha
        cases ha
    | some b => simp only [Except.ok.injEq, Prod.mk.injEq, List.cons.injEq]; grind

theorem expect_eq_ok {wanted : Expectation} {k : Token.Kind} {w r : List Token} {t : Token} :
    expect wanted k w = .ok (t, r) ↔ w = t :: r ∧ t.kind = k := by
  rw [expect, read_eq_ok]
  constructor
  · rintro ⟨u, rfl, hu⟩
    split at hu
    · obtain rfl := Option.some.inj hu
      exact ⟨rfl, by assumption⟩
    · cases hu
  · rintro ⟨rfl, hk⟩
    exact ⟨t, rfl, if_pos hk⟩

theorem expect_terminal (wanted : Expectation) {k : Token.Kind} (t : Terminal [k]) (r : List Token) :
    expect wanted k (t.token :: r) = .ok (t.token, r) :=
  expect_eq_ok.mpr ⟨rfl, List.mem_singleton.mp t.mem⟩

theorem expect_parses (wanted : Expectation) (k : Token.Kind) :
    Parses (expect wanted k) (fun t : Terminal [k] => [t.token]) Terminal.token [] where
  sound h := by
    obtain ⟨rfl, hk⟩ := expect_eq_ok.mp h
    exact ⟨⟨_, List.mem_singleton.mpr hk⟩, rfl, rfl⟩
  complete t _ _ := expect_terminal wanted t _

theorem name?_eq_some {t : Token} {n : Name} :
    t.name? = some n ↔ IsIdent t ∧ n = ⟨t.value, t.kind == .backquoted⟩ := by
  unfold Token.name? IsIdent
  cases hk : t.kind with
  | identifier =>
    have hv : t.value = t.lexeme := by simp [Token.value, hk]
    simp only [hv, Option.some.injEq, reduceCtorEq, false_and, or_false, true_and]
    exact eq_comm
  | backquoted =>
    by_cases hv : t.value = []
    · simp [hv]
    · simp only [List.isEmpty_iff, hv, if_false, Option.some.injEq, reduceCtorEq, false_or, true_and, ne_eq,
        not_false_eq_true]
      exact eq_comm
  | _ => simp

theorem name_eq_ok {wanted : Expectation} {w r : List Token} {n : Name} :
    name wanted w = .ok (n, r) ↔ ∃ i : Ident, w = i.token :: r ∧ n = i.name := by
  cases w with
  | nil => simp [name]
  | cons t w =>
    simp only [name]
    cases h : t.name? with
    | none =>
      constructor
      · intro e
        by_cases hk : t.kind = .backquoted <;> simp [hk] at e
      · rintro ⟨i, hi, -⟩
        rw [(List.cons.inj hi).1, name?_eq_some.mpr ⟨i.isIdent, rfl⟩] at h
        cases h
    | some m =>
      obtain ⟨hi, rfl⟩ := name?_eq_some.mp h
      constructor
      · intro e
        obtain ⟨rfl, rfl⟩ := Prod.mk.inj (Except.ok.inj e)
        exact ⟨⟨t, hi⟩, rfl, rfl⟩
      · rintro ⟨i, e, rfl⟩
        obtain ⟨rfl, rfl⟩ := List.cons.inj e
        rfl

theorem name_ident (wanted : Expectation) (i : Ident) (r : List Token) :
    name wanted (i.token :: r) = .ok (i.name, r) :=
  name_eq_ok.mpr ⟨i, rfl, rfl⟩

theorem name_parses (wanted : Expectation) : Parses (name wanted) (fun i : Ident => [i.token]) Ident.name [] where
  sound h := by
    obtain ⟨i, hw, hn⟩ := name_eq_ok.mp h
    exact ⟨i, hw, hn⟩
  complete i _ _ := name_ident wanted i _

section
variable {α : Type} {kind : α → Token.Kind} {f : Token → Option α} (hf : ∀ {t a}, f t = some a ↔ t.kind = kind a)
  {stops : List Token.Kind} (hs : ∀ a, kind a ∈ stops)
include hf hs

theorem eq_none_of_stops {t : Token} (ht : t.kind ∉ stops) : f t = none := by
  cases h : f t with
  | none => rfl
  | some a => exact absurd (hs a) (hf.mp h ▸ ht)

theorem read?_parses : Parses (read? f) (fun c : Option (Choice α kind) => c.toList.flatMap fun c => [c.token])
    (Option.map Choice.choice) stops where
  sound {w r o} h := by
    cases w with
    | nil =>
      obtain ⟨rfl, rfl⟩ := Prod.mk.inj (Except.ok.inj h)
      exact ⟨none, rfl, rfl⟩
    | cons t w =>
      simp only [read?] at h
      split at h
      · next a ha =>
        obtain ⟨rfl, rfl⟩ := Prod.mk.inj (Except.ok.inj h)
        exact ⟨some ⟨a, t, hf.mp ha⟩, rfl, rfl⟩
      · obtain ⟨rfl, rfl⟩ := Prod.mk.inj (Except.ok.inj h)
        exact ⟨none, rfl, rfl⟩
  complete c r hr := by
    cases c with
    | some c => simp [read?, hf.mpr c.kind_eq]
    | none =>
      cases r with
      | nil => rfl
      | cons t r => simp [read?, eq_none_of_stops hf hs (hr t rfl)]

omit hs in
theorem readAll_sound : ∀ {w r : List Token} {as : List α}, readAll f w = .ok (as, r) →
    ∃ cs : List (Choice α kind), w = cs.flatMap (fun c => [c.token]) ++ r ∧ as = cs.map Choice.choice
  | [], r, as, h => by
    obtain ⟨rfl, rfl⟩ := Prod.mk.inj (Except.ok.inj h)
    exact ⟨[], rfl, rfl⟩
  | t :: w, r, as, h => by
    simp only [readAll] at h
    split at h
    · next a ha =>
      obtain ⟨⟨bs, s⟩, hr, he⟩ := map_eq_ok.mp h
      obtain ⟨rfl, rfl⟩ := Prod.mk.inj he
      obtain ⟨cs, rfl, rfl⟩ := readAll_sound hr
      exact ⟨⟨a, t, hf.mp ha⟩ :: cs, rfl, rfl⟩
    · obtain ⟨rfl, rfl⟩ := Prod.mk.inj (Except.ok.inj h)
      exact ⟨[], rfl, rfl⟩

theorem readAll_parses : Parses (readAll f) (fun cs : List (Choice α kind) => cs.flatMap fun c => [c.token])
    (List.map Choice.choice) stops where
  sound h := readAll_sound hf h
  complete cs r hr := by
    induction cs with
    | nil =>
      cases r with
      | nil => rfl
      | cons t r => simp [readAll, eq_none_of_stops hf hs (hr t rfl)]
    | cons c cs ih =>
      simp only [List.flatMap_cons, List.cons_append, List.nil_append, readAll, hf.mpr c.kind_eq, ih]
      rfl

end

/-! ## Optional and repeated phrases -/

section
variable {α τ : Type} {kinds : List Token.Kind} {announces : Token.Kind → Bool}
  (ha : ∀ k, announces k = true ↔ k ∈ kinds) {rule : Rule α} {yield : τ → List Token} {ast : τ → α}

def announced (yield : τ → List Token) (p : Terminal kinds × τ) : List Token := p.1.token :: yield p.2

include ha in
theorem after_sound {stops : List Token.Kind} (hp : Parses rule yield ast stops) {w r : List Token} {o : Option α}
    (h : after announces rule w = .ok (o, r)) :
    ∃ p : Option (Terminal kinds × τ), w = p.toList.flatMap (announced yield) ++ r ∧
      o = p.map fun p => ast p.2 := by
  cases w with
  | nil =>
    obtain ⟨rfl, rfl⟩ := Prod.mk.inj (Except.ok.inj h)
    exact ⟨none, rfl, rfl⟩
  | cons t w =>
    simp only [after] at h
    split at h
    · next hk =>
      obtain ⟨⟨a, s⟩, hr, he⟩ := map_eq_ok.mp h
      obtain ⟨rfl, rfl⟩ := Prod.mk.inj he
      obtain ⟨x, rfl, rfl⟩ := hp.sound hr
      exact ⟨some (⟨t, (ha _).mp hk⟩, x), by simp [announced], rfl⟩
    · obtain ⟨rfl, rfl⟩ := Prod.mk.inj (Except.ok.inj h)
      exact ⟨none, rfl, rfl⟩

include ha in
theorem after_none {r : List Token} (hr : Avoids kinds r) : after announces rule r = .ok (none, r) := by
  cases r with
  | nil => rfl
  | cons t r =>
    have ht : announces t.kind = false := Bool.eq_false_iff.mpr fun h => hr t rfl ((ha _).mp h)
    simp [after, ht]

include ha in
theorem after_some {stops : List Token.Kind} (hp : Parses rule yield ast stops) (p : Terminal kinds × τ)
    {r : List Token} (hr : Avoids stops r) :
    after announces rule (announced yield p ++ r) = .ok (some (ast p.2), r) := by
  have ht := (ha _).mpr p.1.mem
  simp only [announced, List.cons_append, after, ht, if_true, hp.complete p.2 hr]
  rfl

include ha in
theorem after_parses {stops : List Token.Kind} (hp : Parses rule yield ast stops) :
    Parses (after announces rule) (fun p : Option (Terminal kinds × τ) => p.toList.flatMap (announced yield))
      (Option.map fun p => ast p.2) (kinds ++ stops) where
  sound h := after_sound ha hp h
  complete p r hr := by
    cases p with
    | none => exact after_none ha (hr.of_subset (List.subset_append_left ..))
    | some p => simpa using after_some ha hp p (hr.of_subset (List.subset_append_right ..))

include ha in
theorem repeatedUpTo_sound {stops : List Token.Kind} (hp : Parses rule yield ast stops) :
    ∀ (n : Nat) {w r : List Token} {as : List α}, repeatedUpTo announces rule n w = .ok (as, r) →
      ∃ ps : List (Terminal kinds × τ), w = ps.flatMap (announced yield) ++ r ∧ as = ps.map fun p => ast p.2
  | 0, w, r, as, h => by
    obtain ⟨rfl, rfl⟩ := pure_eq_ok.mp h
    exact ⟨[], rfl, rfl⟩
  | n + 1, w, r, as, h => by
    simp only [repeatedUpTo] at h
    obtain ⟨p, s, rfl, h₁⟩ := (after_parses ha hp).of_bind h
    cases p with
    | none =>
      obtain ⟨rfl, rfl⟩ := pure_eq_ok.mp h₁
      exact ⟨[], rfl, rfl⟩
    | some p =>
      obtain ⟨bs, s', hb, h₂⟩ := bind_eq_ok.mp h₁
      obtain ⟨rfl, rfl⟩ := pure_eq_ok.mp h₂
      obtain ⟨ps, rfl, rfl⟩ := repeatedUpTo_sound hp n hb
      exact ⟨p :: ps, by simp, rfl⟩

include ha in
theorem repeatedUpTo_complete (hp : Parses rule yield ast []) :
    ∀ (n : Nat) (ps : List (Terminal kinds × τ)), ps.length ≤ n → ∀ {r : List Token}, Avoids kinds r →
      repeatedUpTo announces rule n (ps.flatMap (announced yield) ++ r) = .ok (ps.map fun p => ast p.2, r)
  | 0, [], _, r, _ => rfl
  | n + 1, [], _, r, hr => by
    rw [List.flatMap_nil, List.nil_append, repeatedUpTo, bind_of_ok _ (after_none ha hr)]
    rfl
  | n + 1, p :: ps, hn, r, hr => by
    have ih := repeatedUpTo_complete hp n ps (Nat.le_of_succ_le_succ hn) hr
    rw [List.flatMap_cons, List.append_assoc, repeatedUpTo,
      bind_of_ok _ (after_some ha hp p (by simp [Avoids]))]
    exact bind_of_ok (fun as => pure (ast p.2 :: as)) ih

include ha in
theorem repeated_parses (hp : Parses rule yield ast []) :
    Parses (repeated announces rule) (fun ps : List (Terminal kinds × τ) => ps.flatMap (announced yield))
      (List.map fun p => ast p.2) kinds where
  sound h := repeatedUpTo_sound ha hp _ h
  complete ps r hr := by
    refine repeatedUpTo_complete ha hp _ ps ?_ hr
    induction ps with
    | nil => simp
    | cons p ps ih =>
      simp only [List.flatMap_cons, announced, List.length_append, List.length_cons] at ih ⊢
      omega

end

/-! ## Names, paths and assignments -/

theorem beq_kind_iff (k : Token.Kind) (x : Token.Kind) : (x == k) = true ↔ x ∈ [k] := by simp

theorem dottedName_parses (wanted : Expectation) : Parses (dottedName wanted) Dotted.yield Dotted.ast [.dot] := by
  have others := repeated_parses (beq_kind_iff .dot) (name_parses .nextPart)
  constructor
  · intro w r a h
    obtain ⟨i, r₁, rfl, h₁⟩ := (name_parses wanted).of_bind h
    obtain ⟨ps, r₂, rfl, h₂⟩ := others.of_bind h₁
    obtain ⟨rfl, rfl⟩ := pure_eq_ok.mp h₂
    exact ⟨⟨i, ps⟩, rfl, rfl⟩
  · intro d r hr
    rw [Dotted.yield, List.cons_append, dottedName, bind_of_ok _ (name_ident wanted d.first _)]
    exact bind_of_ok (fun ns => pure (DottedName.mk (d.first.name :: ns))) (others.complete d.others hr)

theorem formatPath_parses : Parses formatPath Path.yield Path.ast [] := by
  constructor
  · intro w r a h
    obtain ⟨i, r₁, rfl, h₁⟩ := (name_parses .formatName).of_bind h
    obtain ⟨t, r₂, rfl, h₂⟩ := (expect_parses .pathDot .dot).of_bind h₁
    obtain ⟨j, r₃, rfl, h₃⟩ := (name_parses .path).of_bind h₂
    obtain ⟨rfl, rfl⟩ := pure_eq_ok.mp h₃
    exact ⟨⟨i, t, j⟩, rfl, rfl⟩
  · intro p r _
    simp only [Path.yield, List.cons_append, List.nil_append]
    rw [formatPath, bind_of_ok _ (name_ident .formatName p.format _), bind_of_ok _ (expect_terminal .pathDot p.dot _),
      bind_of_ok _ (name_ident .path p.path _)]
    rfl

theorem string?_eq_some {t : Token} {v : Text} : t.string? = some v ↔ t.kind = .string ∧ v = t.value := by
  unfold Token.string?
  split <;> simp_all [eq_comm]

theorem string_parses : Parses (read .optionValue Token.string?) (fun t : Terminal [.string] => [t.token])
    (fun t => t.token.value) [] where
  sound h := by
    obtain ⟨t, rfl, hs⟩ := read_eq_ok.mp h
    obtain ⟨hk, rfl⟩ := string?_eq_some.mp hs
    exact ⟨⟨t, List.mem_singleton.mpr hk⟩, rfl, rfl⟩
  complete t _ _ := read_eq_ok.mpr ⟨_, rfl, string?_eq_some.mpr ⟨List.mem_singleton.mp t.mem, rfl⟩⟩

theorem assignment_parses : Parses assignment Assign.yield Assign.ast [] := by
  constructor
  · intro w r a h
    obtain ⟨i, r₁, rfl, h₁⟩ := (name_parses .optionKey).of_bind h
    obtain ⟨t, r₂, rfl, h₂⟩ := (expect_parses .optionEquals .equals).of_bind h₁
    obtain ⟨u, r₃, rfl, h₃⟩ := string_parses.of_bind h₂
    obtain ⟨rfl, rfl⟩ := pure_eq_ok.mp h₃
    exact ⟨⟨i, t, u⟩, rfl, rfl⟩
  · intro a r _
    have hv : read .optionValue Token.string? (a.value.token :: r) = .ok (a.value.token.value, r) :=
      string_parses.complete a.value (by simp [Avoids])
    simp only [Assign.yield, List.cons_append, List.nil_append]
    rw [assignment, bind_of_ok _ (name_ident .optionKey a.key _),
      bind_of_ok _ (expect_terminal .optionEquals a.equals _), bind_of_ok _ hv]
    rfl

theorem marker?_eq_some {t : Token} {m : Marker} : t.marker? = some m ↔ t.kind = .keyword m.keyword := by
  unfold Token.marker?
  split <;> cases m <;> simp_all [Marker.keyword]

theorem isName_iff {k : Token.Kind} : k.isName = true ↔ k ∈ nameKinds := by
  unfold Token.Kind.isName nameKinds
  split <;> simp_all

theorem marker_parses : Parses (read? Token.marker?)
    (fun c : Option (Choice Marker fun m => .keyword m.keyword) => c.toList.flatMap fun c => [c.token])
    (Option.map Choice.choice) [.keyword .options, .keyword .conditions] :=
  read?_parses marker?_eq_some fun m => by cases m <;> simp [Marker.keyword]

theorem first_parses : Parses (startingWith Token.Kind.isName assignment)
    (fun o : Option Assign => o.toList.flatMap Assign.yield) (Option.map Assign.ast) nameKinds where
  sound {w r a} h := by
    cases w with
    | nil =>
      obtain ⟨rfl, rfl⟩ := Prod.mk.inj (Except.ok.inj h)
      exact ⟨none, rfl, rfl⟩
    | cons t w =>
      simp only [startingWith] at h
      split at h
      · obtain ⟨⟨b, s⟩, hb, he⟩ := map_eq_ok.mp h
        obtain ⟨rfl, rfl⟩ := Prod.mk.inj he
        obtain ⟨x, hx, rfl⟩ := assignment_parses.sound hb
        exact ⟨some x, by simpa using hx, rfl⟩
      · obtain ⟨rfl, rfl⟩ := Prod.mk.inj (Except.ok.inj h)
        exact ⟨none, rfl, rfl⟩
  complete o r hr := by
    cases o with
    | some a =>
      have hk := isName_iff.mpr a.key.kind_mem
      have hp := assignment_parses.complete a (r := r) (by simp [Avoids])
      simp only [Option.toList_some, List.flatMap_cons, List.flatMap_nil, List.append_nil, Option.map_some]
      rw [Assign.yield] at hp ⊢
      simp only [List.cons_append, List.nil_append, startingWith, hk, if_true] at hp ⊢
      rw [hp]
      rfl
    | none =>
      cases r with
      | nil => rfl
      | cons t r =>
        have ht : t.kind.isName = false := Bool.eq_false_iff.mpr fun h => hr t rfl (isName_iff.mp h)
        simp [startingWith, ht]

theorem clause_parses : Parses clause Options.yield Options.ast Options.kinds := by
  have filters := repeated_parses (beq_kind_iff (.keyword .and)) assignment_parses
  constructor
  · intro w r a h
    obtain ⟨c, r₁, rfl, h₁⟩ := marker_parses.of_bind h
    obtain ⟨o, r₂, rfl, h₂⟩ := first_parses.of_bind h₁
    obtain ⟨ps, r₃, rfl, h₃⟩ := filters.of_bind h₂
    obtain ⟨rfl, rfl⟩ := pure_eq_ok.mp h₃
    refine ⟨⟨c, o, ps⟩, ?_, rfl⟩
    simp only [Options.yield, List.append_assoc]
    rfl
  · intro o r hr
    have hfilters := filters.complete o.filters (hr.of_subset (by decide))
    have hfirst := first_parses.complete o.first (r := o.filters.flatMap Options.filter ++ r)
      (Options.filters_avoid _ (hr.of_subset (by decide)) (by decide))
    have hmarker := marker_parses.complete o.marker (Options.first_avoids o.first o.filters hr)
    rw [Options.yield, List.append_assoc, List.append_assoc, clause, bind_of_ok _ hmarker, bind_of_ok _ hfirst]
    exact bind_of_ok (fun fs => pure (Clause.mk (o.marker.map Choice.choice) (o.first.map Assign.ast) fs)) hfilters

theorem settingValue_parses : Parses settingValue Value.yield Value.ast [.dot] := by
  constructor
  · intro w r a h
    cases w with
    | nil => cases h
    | cons t w =>
      simp only [settingValue] at h
      split at h
      · next hk =>
        obtain ⟨rfl, rfl⟩ := Prod.mk.inj (Except.ok.inj h)
        exact ⟨.string ⟨t, List.mem_singleton.mpr hk⟩, rfl, rfl⟩
      · next hk =>
        obtain ⟨rfl, rfl⟩ := Prod.mk.inj (Except.ok.inj h)
        exact ⟨.block ⟨t, List.mem_singleton.mpr hk⟩, rfl, rfl⟩
      · obtain ⟨⟨b, s⟩, hb, he⟩ := map_eq_ok.mp h
        obtain ⟨rfl, rfl⟩ := Prod.mk.inj he
        obtain ⟨d, hd, rfl⟩ := (dottedName_parses _).sound hb
        exact ⟨.name d, hd, rfl⟩
      · obtain ⟨⟨b, s⟩, hb, he⟩ := map_eq_ok.mp h
        obtain ⟨rfl, rfl⟩ := Prod.mk.inj he
        obtain ⟨d, hd, rfl⟩ := (dottedName_parses _).sound hb
        exact ⟨.name d, hd, rfl⟩
      · cases h
  · intro v r hr
    cases v with
    | name d =>
      have hd := (dottedName_parses .valueName).complete d hr
      have hk := d.first.kind_mem
      simp only [Value.yield, Dotted.yield, List.cons_append] at hd ⊢
      rw [settingValue]
      split
      all_goals simp_all [nameKinds]
      all_goals rfl
    | string t =>
      have hk := List.mem_singleton.mp t.mem
      simp [Value.yield, settingValue, hk, Value.ast]
    | block t =>
      have hk := List.mem_singleton.mp t.mem
      simp [Value.yield, settingValue, hk, Value.ast]

end Rule

end PipelineScript
