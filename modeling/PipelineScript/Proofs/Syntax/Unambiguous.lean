import PipelineScript.Proofs.Syntax.Tree

/-!
# Unambiguity

Two trees with the same yield are equal. Main statement: `Tree.eq_of_yield`.
-/

namespace PipelineScript.Syntax

def Avoids (kinds : List Token.Kind) (r : List Token) : Prop := ∀ t ∈ r.head?, t.kind ∉ kinds

theorem avoids_nil (kinds : List Token.Kind) : Avoids kinds [] := by simp [Avoids]

theorem avoids_cons {kinds : List Token.Kind} {t : Token} (r : List Token) (h : t.kind ∉ kinds) :
    Avoids kinds (t :: r) := by
  intro x hx
  obtain rfl := Option.some.inj hx
  exact h

theorem Terminal.avoids {ks : List Token.Kind} (t : Terminal ks) {kinds : List Token.Kind} (r : List Token)
    (h : ∀ k ∈ ks, k ∉ kinds) : Avoids kinds (t.token :: r) :=
  avoids_cons r (h _ t.mem)

theorem Avoids.of_subset {ks ls : List Token.Kind} {r : List Token} (hr : Avoids ls r) (h : ∀ k ∈ ks, k ∈ ls) :
    Avoids ks r :=
  fun t ht hm => hr t ht (h _ hm)

theorem Choice.eq_of_token {α : Type} {kind : α → Token.Kind} (hk : ∀ a b, kind a = kind b → a = b)
    {c d : Choice α kind} (h : c.token = d.token) : c = d := by
  obtain ⟨a, t, ha⟩ := c
  obtain ⟨b, u, hb⟩ := d
  obtain rfl : t = u := h
  obtain rfl := hk a b (ha.symm.trans hb)
  rfl

theorem marker_kind_inj : ∀ a b : Marker, Token.Kind.keyword a.keyword = .keyword b.keyword → a = b := by
  intro a b h
  cases a <;> cases b <;> first | rfl | cases h

theorem mode_kind_inj : ∀ a b : WriteMode, Token.Kind.keyword a.keyword = .keyword b.keyword → a = b := by
  intro a b h
  cases a <;> cases b <;> first | rfl | cases h

theorem verbatim_kind_inj : ∀ a b : Verbatim, Token.Kind.keyword a.keyword = .keyword b.keyword → a = b := by
  intro a b h
  cases a <;> cases b <;> first | rfl | cases h

theorem action_kind_inj : ∀ a b : ModelAction, Token.Kind.keyword a.keyword = .keyword b.keyword → a = b := by
  intro a b h
  cases a <;> cases b <;> first | rfl | cases h

def nameKinds : List Token.Kind := [.identifier, .backquoted]

theorem Ident.kind_mem (i : Ident) : i.token.kind ∈ nameKinds := by
  rcases i.isIdent with h | ⟨h, -⟩ <;> simp [nameKinds, h]

theorem Ident.avoids (i : Ident) {kinds : List Token.Kind} (r : List Token) (h : ∀ k ∈ nameKinds, k ∉ kinds) :
    Avoids kinds (i.token :: r) :=
  avoids_cons r (h _ i.kind_mem)

/-! ## Repetition -/

section
variable {α : Type} {yield : α → List Token} {kinds : List Token.Kind}
  (hs : ∀ a, ∃ t w, yield a = t :: w ∧ t.kind ∈ kinds)
  (hi : ∀ a b r r', yield a ++ r = yield b ++ r' → a = b ∧ r = r')
include hs hi

theorem flatMap_append_inj : ∀ {as bs : List α} {r r' : List Token}, Avoids kinds r → Avoids kinds r' →
    as.flatMap yield ++ r = bs.flatMap yield ++ r' → as = bs ∧ r = r'
  | [], [], _, _, _, _, h => ⟨rfl, h⟩
  | [], b :: bs, r, r', hr, _, h => by
    obtain ⟨t, w, hw, ht⟩ := hs b
    rw [List.flatMap_nil, List.nil_append, List.flatMap_cons, hw] at h
    exact absurd ht (hr t (by rw [h]; rfl))
  | a :: as, [], r, r', _, hr', h => by
    obtain ⟨t, w, hw, ht⟩ := hs a
    rw [List.flatMap_nil, List.nil_append, List.flatMap_cons, hw] at h
    exact absurd ht (hr' t (by rw [← h]; rfl))
  | a :: as, b :: bs, r, r', hr, hr', h => by
    rw [List.flatMap_cons, List.flatMap_cons, List.append_assoc, List.append_assoc] at h
    obtain ⟨rfl, hrest⟩ := hi a b _ _ h
    obtain ⟨rfl, rfl⟩ := flatMap_append_inj hr hr' hrest
    exact ⟨rfl, rfl⟩

theorem toList_append_inj {o p : Option α} {r r' : List Token} (hr : Avoids kinds r) (hr' : Avoids kinds r')
    (h : o.toList.flatMap yield ++ r = p.toList.flatMap yield ++ r') : o = p ∧ r = r' := by
  obtain ⟨ho, rfl⟩ := flatMap_append_inj hs hi hr hr' h
  refine ⟨Option.ext fun a => ?_, rfl⟩
  have ha : a ∈ o.toList ↔ a ∈ p.toList := by rw [ho]
  exact Option.mem_toList.symm.trans (ha.trans Option.mem_toList)

end

/-! ## Phrases -/

theorem Path.append_inj {p q : Path} {r r' : List Token} (h : p.yield ++ r = q.yield ++ r') :
    p = q ∧ r = r' := by
  simp only [Path.yield, List.cons_append, List.nil_append, List.cons.injEq] at h
  obtain ⟨h₁, h₂, h₃, rfl⟩ := h
  exact ⟨Path.ext (Ident.ext h₁) (Terminal.ext h₂) (Ident.ext h₃), rfl⟩

theorem Dotted.part_start (p : Terminal [.dot] × Ident) : ∃ t w, part p = t :: w ∧ t.kind ∈ [Token.Kind.dot] :=
  ⟨_, _, rfl, p.1.mem⟩

theorem Dotted.part_append_inj (p q : Terminal [.dot] × Ident) (r r' : List Token)
    (h : part p ++ r = part q ++ r') : p = q ∧ r = r' := by
  simp only [part, List.cons_append, List.nil_append, List.cons.injEq] at h
  obtain ⟨h₁, h₂, rfl⟩ := h
  exact ⟨Prod.ext (Terminal.ext h₁) (Ident.ext h₂), rfl⟩

theorem Dotted.append_inj {d e : Dotted} {r r' : List Token} (hr : Avoids [.dot] r) (hr' : Avoids [.dot] r')
    (h : d.yield ++ r = e.yield ++ r') : d = e ∧ r = r' := by
  simp only [Dotted.yield, List.cons_append, List.cons.injEq] at h
  obtain ⟨ho, rfl⟩ := flatMap_append_inj part_start part_append_inj hr hr' h.2
  exact ⟨Dotted.ext (Ident.ext h.1) ho, rfl⟩

theorem Dotted.eq_of_yield {d e : Dotted} (h : d.yield = e.yield) : d = e :=
  (append_inj (avoids_nil _) (avoids_nil _) (by rw [h] : d.yield ++ [] = e.yield ++ [])).1

theorem Assign.append_inj (a b : Assign) (r r' : List Token) (h : a.yield ++ r = b.yield ++ r') :
    a = b ∧ r = r' := by
  simp only [Assign.yield, List.cons_append, List.nil_append, List.cons.injEq] at h
  obtain ⟨h₁, h₂, h₃, rfl⟩ := h
  exact ⟨Assign.ext (Ident.ext h₁) (Terminal.ext h₂) (Terminal.ext h₃), rfl⟩

namespace Options

def kinds : List Token.Kind := [.keyword .options, .keyword .conditions, .identifier, .backquoted, .keyword .and]

theorem marker_start (m : Choice Marker fun m => .keyword m.keyword) :
    ∃ t w, [m.token] = t :: w ∧ t.kind ∈ [Token.Kind.keyword .options, .keyword .conditions] := by
  refine ⟨_, _, rfl, ?_⟩
  rw [m.kind_eq]
  cases m.choice <;> simp [Marker.keyword]

theorem marker_append_inj (m n : Choice Marker fun m => .keyword m.keyword) (r r' : List Token)
    (h : [m.token] ++ r = [n.token] ++ r') : m = n ∧ r = r' := by
  simp only [List.cons_append, List.nil_append, List.cons.injEq] at h
  exact ⟨Choice.eq_of_token marker_kind_inj h.1, h.2⟩

theorem first_start (a : Assign) : ∃ t w, a.yield = t :: w ∧ t.kind ∈ nameKinds := ⟨_, _, rfl, a.key.kind_mem⟩

theorem filter_start (f : Terminal [.keyword .and] × Assign) :
    ∃ t w, filter f = t :: w ∧ t.kind ∈ [Token.Kind.keyword .and] :=
  ⟨_, _, rfl, f.1.mem⟩

theorem filter_append_inj (f g : Terminal [.keyword .and] × Assign) (r r' : List Token)
    (h : filter f ++ r = filter g ++ r') : f = g ∧ r = r' := by
  simp only [filter, List.cons_append, List.cons.injEq] at h
  obtain ⟨h₁, h₂⟩ := h
  obtain ⟨ha, rfl⟩ := Assign.append_inj _ _ _ _ h₂
  exact ⟨Prod.ext (Terminal.ext h₁) ha, rfl⟩

theorem filters_avoid (fs : List (Terminal [.keyword .and] × Assign)) {ks : List Token.Kind} {r : List Token}
    (hr : Avoids ks r) (h : Token.Kind.keyword .and ∉ ks) : Avoids ks (fs.flatMap filter ++ r) := by
  cases fs with
  | nil => exact hr
  | cons f fs => exact f.1.avoids _ (by simpa using h)

theorem first_avoids (o : Option Assign) (fs : List (Terminal [.keyword .and] × Assign)) {r : List Token}
    (hr : Avoids kinds r) :
    Avoids [.keyword .options, .keyword .conditions]
      (o.toList.flatMap Assign.yield ++ (fs.flatMap filter ++ r)) := by
  cases o with
  | none => exact filters_avoid fs (hr.of_subset (by decide)) (by decide)
  | some a => exact a.key.avoids _ (by decide)

theorem append_inj {o p : Options} {r r' : List Token} (hr : Avoids kinds r) (hr' : Avoids kinds r')
    (h : o.yield ++ r = p.yield ++ r') : o = p ∧ r = r' := by
  simp only [yield, List.append_assoc] at h
  obtain ⟨hm, hrest⟩ := toList_append_inj marker_start marker_append_inj (first_avoids _ _ hr)
    (first_avoids _ _ hr') h
  have ha : Avoids nameKinds (o.filters.flatMap filter ++ r) :=
    filters_avoid _ (hr.of_subset (by decide)) (by decide)
  have ha' : Avoids nameKinds (p.filters.flatMap filter ++ r') :=
    filters_avoid _ (hr'.of_subset (by decide)) (by decide)
  obtain ⟨hf, hfilters⟩ := toList_append_inj first_start Assign.append_inj ha ha' hrest
  obtain ⟨hfs, rfl⟩ := flatMap_append_inj filter_start filter_append_inj
    (hr.of_subset (by decide)) (hr'.of_subset (by decide)) hfilters
  exact ⟨Options.ext hm hf hfs, rfl⟩

theorem eq_of_yield {o p : Options} (h : o.yield = p.yield) : o = p :=
  (append_inj (avoids_nil _) (avoids_nil _) (by rw [h] : o.yield ++ [] = p.yield ++ [])).1

theorem yield_avoids (o : Options) {ks : List Token.Kind} {r : List Token} (hr : Avoids ks r)
    (h : ∀ k ∈ kinds, k ∉ ks) : Avoids ks (o.yield ++ r) := by
  obtain ⟨m, a, fs⟩ := o
  simp only [yield, List.append_assoc]
  cases m with
  | some m =>
    obtain ⟨t, w, hw, ht⟩ := marker_start m
    simp only [Option.toList_some, List.flatMap_cons, List.flatMap_nil, List.append_nil, hw, List.cons_append]
    refine avoids_cons _ (h _ ?_)
    rcases List.mem_cons.mp ht with ht | ht
    · simp [kinds, ht]
    · obtain ht := List.mem_singleton.mp ht
      simp [kinds, ht]
  | none =>
    cases a with
    | some a => exact a.key.avoids _ fun k hk => h k (by revert k; decide)
    | none => exact filters_avoid fs hr (h _ (by decide))

end Options

namespace Value

def startKinds : Value → List Token.Kind
  | name _ => nameKinds
  | string _ => [.string]
  | block _ => [.blockString]

theorem start (v : Value) : ∃ t w, v.yield = t :: w ∧ t.kind ∈ v.startKinds := by
  cases v with
  | name n => exact ⟨_, _, rfl, n.first.kind_mem⟩
  | string t => exact ⟨_, _, rfl, t.mem⟩
  | block t => exact ⟨_, _, rfl, t.mem⟩

theorem append_inj {v u : Value} {r r' : List Token} (hr : Avoids [.dot] r) (hr' : Avoids [.dot] r')
    (h : v.yield ++ r = u.yield ++ r') : v = u ∧ r = r' := by
  obtain ⟨t, w, hw, ht⟩ := start v
  obtain ⟨t', w', hw', ht'⟩ := start u
  have e : t = t' := by rw [hw, hw'] at h; exact (List.cons.inj h).1
  subst e
  cases v <;> cases u
  case name.name n m =>
    obtain ⟨rfl, rfl⟩ := Dotted.append_inj hr hr' h
    exact ⟨rfl, rfl⟩
  case string.string a b =>
    obtain ⟨h₁, h₂⟩ := List.cons.inj h
    exact ⟨congrArg _ (Terminal.ext h₁), h₂⟩
  case block.block a b =>
    obtain ⟨h₁, h₂⟩ := List.cons.inj h
    exact ⟨congrArg _ (Terminal.ext h₁), h₂⟩
  all_goals simp_all [startKinds, nameKinds]

end Value

/-! ## Statements -/

theorem words_inj : ∀ {v w : List Word}, v.map Word.token = w.map Word.token → v = w
  | [], [], _ => rfl
  | [], _ :: _, h => by simp at h
  | _ :: _, [], h => by simp at h
  | a :: v, b :: w, h => by
    obtain ⟨h₁, h₂⟩ := List.cons.inj h
    rw [Word.ext h₁, words_inj h₂]

theorem mode_start (m : Choice WriteMode fun m => .keyword m.keyword) :
    ∃ t w, [m.token] = t :: w ∧ t.kind ∈ [Token.Kind.keyword .overwrite, .keyword .append,
      .keyword .errorIfExists, .keyword .ignore] := by
  refine ⟨_, _, rfl, ?_⟩
  rw [m.kind_eq]
  cases m.choice <;> simp [WriteMode.keyword]

theorem mode_append_inj (m n : Choice WriteMode fun m => .keyword m.keyword) (r r' : List Token)
    (h : [m.token] ++ r = [n.token] ++ r') : m = n ∧ r = r' := by
  simp only [List.cons_append, List.nil_append, List.cons.injEq] at h
  exact ⟨Choice.eq_of_token mode_kind_inj h.1, h.2⟩

section
variable {kinds : List Token.Kind} {τ : Type} (yield : τ → List Token)

theorem tail_avoids {ks : List Token.Kind} (hk : ∀ k ∈ kinds, k ∉ ks) (o : Option (Terminal kinds × τ)) :
    Avoids ks (o.toList.flatMap fun p => p.1.token :: yield p.2) := by
  cases o with
  | none => exact avoids_nil _
  | some p => exact p.1.avoids _ hk

theorem tail_inj (hy : ∀ x y, yield x = yield y → x = y) {o p : Option (Terminal kinds × τ)}
    (h : (o.toList.flatMap fun p => p.1.token :: yield p.2) = p.toList.flatMap fun p => p.1.token :: yield p.2) :
    o = p := by
  cases o with
  | none =>
    cases p with
    | none => rfl
    | some q => simp at h
  | some q =>
    cases p with
    | none => simp at h
    | some q' =>
      simp only [Option.toList_some, List.flatMap_cons, List.flatMap_nil, List.append_nil, List.cons.injEq] at h
      exact congrArg some (Prod.ext (Terminal.ext h.1) (hy _ _ h.2))

end

theorem column_avoids (o : Option (Terminal [.keyword .partitionBy, .keyword .as] × Ident)) :
    Avoids Options.kinds (o.toList.flatMap fun c => [c.1.token, c.2.token]) :=
  tail_avoids (fun i : Ident => [i.token]) (by decide) o

theorem database_avoids (o : Option (As × Dotted)) :
    Avoids Options.kinds (o.toList.flatMap fun d => d.1.token :: d.2.yield) :=
  tail_avoids Dotted.yield (by decide) o

namespace Tree

def headKinds : Tree → List Token.Kind
  | load .. => [.keyword .load]
  | save .. => [.keyword .save]
  | select .. => [.keyword .select]
  | verbatim .. => [.keyword .insert, .keyword .create, .keyword .drop, .keyword .refresh]
  | setting .. => [.keyword .set]
  | connect .. => [.keyword .connect]
  | model .. => [.keyword .train, .keyword .run]
  | register .. => [.keyword .register]
  | unregister .. => [.keyword .unregister]
  | inclusion .. => [.keyword .include]

theorem head_kind_mem (t : Tree) : t.head.kind ∈ t.headKinds := by
  cases t with
  | verbatim h _ =>
    rw [head, headKinds, h.kind_eq]
    cases h.choice <;> simp [Verbatim.keyword]
  | model h _ _ _ _ =>
    rw [head, headKinds, h.kind_eq]
    cases h.choice <;> simp [ModelAction.keyword]
  | load h | save h | select h | setting h | connect h | register h | unregister h | inclusion h => exact h.mem

/-! ### One production on both sides -/

section
variable {p₁ p₂ : Path} {o₁ o₂ : Options} {l₁ l₂ : As} {n₁ n₂ : Ident}

theorem load_inj {h₁ h₂ : Terminal [.keyword .load]} (hh : h₁.token = h₂.token)
    (hr : (load h₁ p₁ o₁ l₁ n₁).rest = (load h₂ p₂ o₂ l₂ n₂).rest) :
    load h₁ p₁ o₁ l₁ n₁ = load h₂ p₂ o₂ l₂ n₂ := by
  obtain ⟨rfl, ho⟩ := Path.append_inj hr
  obtain ⟨rfl, hl⟩ := Options.append_inj (l₁.avoids _ (by decide)) (l₂.avoids _ (by decide)) ho
  simp only [List.cons.injEq, and_true] at hl
  rw [Terminal.ext hh, Terminal.ext hl.1, Ident.ext hl.2]

theorem save_inj {h₁ h₂ : Terminal [.keyword .save]} {m₁ m₂ : List (Choice WriteMode fun m => .keyword m.keyword)}
    {c₁ c₂ : Option (Terminal [.keyword .partitionBy, .keyword .as] × Ident)} (hh : h₁.token = h₂.token)
    (hr : (save h₁ m₁ n₁ l₁ p₁ o₁ c₁).rest = (save h₂ m₂ n₂ l₂ p₂ o₂ c₂).rest) :
    save h₁ m₁ n₁ l₁ p₁ o₁ c₁ = save h₂ m₂ n₂ l₂ p₂ o₂ c₂ := by
  obtain ⟨rfl, hn⟩ := flatMap_append_inj mode_start mode_append_inj (n₁.avoids _ (by decide))
    (n₂.avoids _ (by decide)) hr
  simp only [List.cons.injEq] at hn
  obtain ⟨hn, hl, hp⟩ := hn
  obtain ⟨rfl, ho⟩ := Path.append_inj hp
  obtain ⟨rfl, hc⟩ := Options.append_inj (column_avoids _) (column_avoids _) ho
  rw [Terminal.ext hh, Ident.ext hn, Terminal.ext hl,
    tail_inj (fun i : Ident => [i.token]) (fun _ _ h => Ident.ext (List.cons.inj h).1) hc]

theorem select_inj {h₁ h₂ : Terminal [.keyword .select]} {w₁ w₂ : List Word} (hh : h₁.token = h₂.token)
    (hr : (select h₁ w₁ l₁ n₁).rest = (select h₂ w₂ l₂ n₂).rest) : select h₁ w₁ l₁ n₁ = select h₂ w₂ l₂ n₂ := by
  obtain ⟨hw, hl⟩ := List.append_inj' hr rfl
  simp only [List.cons.injEq, and_true] at hl
  rw [Terminal.ext hh, words_inj hw, Terminal.ext hl.1, Ident.ext hl.2]

theorem setting_inj {h₁ h₂ : Terminal [.keyword .set]} {k₁ k₂ : Dotted} {e₁ e₂ : Terminal [.equals]} {v₁ v₂ : Value}
    (hh : h₁.token = h₂.token) (hr : (setting h₁ k₁ e₁ v₁ o₁).rest = (setting h₂ k₂ e₂ v₂ o₂).rest) :
    setting h₁ k₁ e₁ v₁ o₁ = setting h₂ k₂ e₂ v₂ o₂ := by
  simp only [rest] at hr
  obtain ⟨rfl, he⟩ := Dotted.append_inj (e₁.avoids _ (by decide)) (e₂.avoids _ (by decide)) hr
  simp only [List.cons.injEq] at he
  obtain ⟨he, hv⟩ := he
  have avoids (o : Options) : Avoids [.dot] o.yield := by
    simpa using o.yield_avoids (avoids_nil _) (by decide)
  obtain ⟨rfl, ho⟩ := Value.append_inj (avoids o₁) (avoids o₂) hv
  rw [Terminal.ext hh, Terminal.ext he, Options.eq_of_yield ho]

theorem connect_inj {h₁ h₂ : Terminal [.keyword .connect]} {d₁ d₂ : Option (As × Dotted)} (hh : h₁.token = h₂.token)
    (hr : (connect h₁ n₁ o₁ d₁).rest = (connect h₂ n₂ o₂ d₂).rest) :
    connect h₁ n₁ o₁ d₁ = connect h₂ n₂ o₂ d₂ := by
  obtain ⟨hn, ho⟩ := List.cons.inj hr
  obtain ⟨rfl, hd⟩ := Options.append_inj (database_avoids _) (database_avoids _) ho
  rw [Terminal.ext hh, Ident.ext hn, tail_inj Dotted.yield (fun _ _ h => Dotted.eq_of_yield h) hd]

theorem model_inj {h₁ h₂ : Choice ModelAction fun a => .keyword a.keyword} (hh : h₁.token = h₂.token)
    (hr : (model h₁ n₁ l₁ p₁ o₁).rest = (model h₂ n₂ l₂ p₂ o₂).rest) :
    model h₁ n₁ l₁ p₁ o₁ = model h₂ n₂ l₂ p₂ o₂ := by
  simp only [rest, List.cons.injEq] at hr
  obtain ⟨hn, hl, hp⟩ := hr
  obtain ⟨rfl, ho⟩ := Path.append_inj hp
  rw [Choice.eq_of_token action_kind_inj hh, Ident.ext hn, Terminal.ext hl, Options.eq_of_yield ho]

theorem register_inj {h₁ h₂ : Terminal [.keyword .register]} (hh : h₁.token = h₂.token)
    (hr : (register h₁ p₁ l₁ n₁ o₁).rest = (register h₂ p₂ l₂ n₂ o₂).rest) :
    register h₁ p₁ l₁ n₁ o₁ = register h₂ p₂ l₂ n₂ o₂ := by
  obtain ⟨rfl, hl⟩ := Path.append_inj hr
  simp only [List.cons.injEq] at hl
  rw [Terminal.ext hh, Terminal.ext hl.1, Ident.ext hl.2.1, Options.eq_of_yield hl.2.2]

end

theorem eq_of_yield {t u : Tree} (h : t.yield = u.yield) : t = u := by
  obtain ⟨hh, hr⟩ := List.cons.inj h
  have ht := t.head_kind_mem
  have hu := u.head_kind_mem
  rw [hh] at ht
  cases t <;> cases u
  case load.load => exact load_inj hh hr
  case save.save => exact save_inj hh hr
  case select.select => exact select_inj hh hr
  case verbatim.verbatim => rw [Choice.eq_of_token verbatim_kind_inj hh, words_inj hr]
  case setting.setting => exact setting_inj hh hr
  case connect.connect => exact connect_inj hh hr
  case model.model => exact model_inj hh hr
  case register.register => exact register_inj hh hr
  case unregister.unregister =>
    obtain ⟨rfl, ho⟩ := Path.append_inj hr
    rw [Terminal.ext hh, Options.eq_of_yield ho]
  case inclusion.inclusion =>
    obtain ⟨rfl, ho⟩ := Path.append_inj hr
    rw [Terminal.ext hh, Options.eq_of_yield ho]
  -- two productions: no kind of token starts both
  all_goals
    simp only [headKinds] at ht hu
    exact absurd hu ((by decide : ∀ k ∈ _, k ∉ _) _ ht)

end Tree

end PipelineScript.Syntax
