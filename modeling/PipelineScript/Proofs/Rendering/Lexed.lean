import PipelineScript.Proofs.Rendering.Prints
import PipelineScript.Proofs.Syntax.Phrases

/-!
# Phrases of lexed tokens

In the tokens of a text a bare name is no keyword and a block string holds no
delimiter of its own, so what a tree over them stands for is readable.
-/

namespace PipelineScript

open Syntax

def Token.IsLexed (t : Token) : Prop := ∃ p c u, t = firstToken p c u

theorem isLexed_of_mem {p : Position} {t : Text} {x : Token} (hx : x ∈ tokensWithin p t) : x.IsLexed := by
  fun_induction tokensWithin p t with
  | case1 p => cases hx
  | case2 p c t ih =>
    rcases List.mem_cons.mp hx with rfl | hx
    · exact ⟨p, c, t, rfl⟩
    · exact ih hx

/-! ## Single tokens -/

namespace Token.IsLexed

variable {t : Token} (h : t.IsLexed)
include h

theorem word (hk : t.kind = .identifier ∨ ∃ k, t.kind = .keyword k) : Text.isWord t.lexeme = true ∧
    t.kind = match Keyword.ofWord? t.lexeme with | some k => .keyword k | none => .identifier := by
  obtain ⟨p, c, u, rfl⟩ := h
  have ho : opening c u = .word := by
    rcases hk with hk | ⟨k, hk⟩ <;>
      exact opening_of_kind hk (by simp) fun o' hm hs => by cases o' <;> simp_all [Opening.Makes]
  have hs : scan c u = scanWord c u := by
    rw [scan, ho]
    rfl
  have hl : (firstToken p c u).lexeme = c :: u.takeWhile Text.isWordChar := by
    rw [firstToken, hs, scanWord_snd, take_takeWhile]
  have hc : Text.isWordChar c = true := Opening.needs_of_eq ho
  have ha : (u.takeWhile Text.isWordChar).all Text.isWordChar = true := List.all_takeWhile
  rw [hl]
  refine ⟨by simp [Text.isWord, hc, ha], ?_⟩
  rw [firstToken, hs, scanWord]
  cases Keyword.ofWord? (c :: u.takeWhile Text.isWordChar) <;> rfl

theorem bare_name (hk : t.kind = .identifier) : Name.needsQuotes t.lexeme = false ∧ t.lexeme ≠ [] := by
  obtain ⟨hw, hkind⟩ := h.word (.inl hk)
  cases hk' : Keyword.ofWord? t.lexeme with
  | some k =>
    rw [hk', hk] at hkind
    cases hkind
  | none =>
    refine ⟨by simp [Name.needsQuotes, hw, hk'], fun hn => ?_⟩
    rw [hn] at hw
    cases hw

theorem keyword {k : Keyword} (hk : t.kind = .keyword k) : t.lexeme ∈ k.spellings := by
  have hkind := (h.word (.inr ⟨k, hk⟩)).2
  cases hk' : Keyword.ofWord? t.lexeme with
  | some k' =>
    rw [hk', hk] at hkind
    obtain rfl := Token.Kind.keyword.inj hkind
    exact Keyword.mem_spellings_of_ofWord? hk'
  | none =>
    rw [hk', hk] at hkind
    cases hkind

theorem plain_block (hk : t.kind = .blockString) : Literal.Block.IsPlain t.value := by
  obtain ⟨p, c, u, rfl⟩ := h
  have ho : opening c u = .block := opening_of_kind hk (by decide) fun o' hm hs => by
    cases o' <;> simp_all [Opening.Makes]
  have hs : scan c u = scanClosed .blockString 2 (Literal.Block.close? (u.drop 2)) := by
    rw [scan, ho]
    rfl
  obtain ⟨rfl, hu⟩ := Opening.needs_of_eq ho
  cases hc : Literal.Block.close? (u.drop 2) with
  | none =>
    rw [firstToken, hs, hc] at hk
    cases hk
  | some n =>
    obtain ⟨v, rest, hv, rfl, hplain⟩ := Literal.Block.isPlain_of_close? hc
    have hl : (firstToken p '\x27' u).lexeme = Literal.Block.encode v := by
      rw [firstToken, hs, hc, ← List.take_append_drop 2 u, hu, hv]
      simp only [scanClosed, Nat.add_comm 2]
      show '\x27' :: '\x27' :: '\x27' :: (v ++ _).take (v.length + 3) = _
      rw [List.take_length_add_append]
      rfl
    rw [Token.value, hk, hl]
    simp only
    rw [Literal.Block.decode_encode]
    exact hplain

theorem line_comment (hk : t.kind = .lineComment) : IsLineComment t.lexeme := by
  obtain ⟨p, c, u, rfl⟩ := h
  have ho : opening c u = .line := opening_of_kind hk (by decide) fun o' hm hs => by
    cases o' <;> simp_all [Opening.Makes]
  have hs : scan c u = (.lineComment, (u.takeWhile (· ≠ '\n')).length) := by
    rw [scan, ho]
    rfl
  have hl : (firstToken p c u).lexeme = c :: u.takeWhile (· ≠ '\n') := by
    rw [firstToken, hs, ← List.prefix_iff_eq_take.mp (List.takeWhile_prefix _)]
  obtain ⟨hc, hu⟩ := Opening.needs_of_eq ho
  rw [hl]
  cases u with
  | nil => cases hu
  | cons d u =>
    obtain rfl := Option.some.inj hu
    have hne : d ≠ '\n' := by rcases hc with rfl | rfl <;> decide
    have htake : (d :: u).takeWhile (· ≠ '\n') = d :: u.takeWhile (· ≠ '\n') := by simp [hne]
    rw [htake]
    refine ⟨?_, fun hn => ?_⟩
    · rcases hc with rfl | rfl
      · exact .inl (List.prefix_append ['-', '-'] _)
      · exact .inr (List.prefix_append ['/', '/'] _)
    · rcases List.mem_cons.mp hn with e | hn
      · exact hne e.symm
      · rcases List.mem_cons.mp hn with e | hn
        · exact hne e.symm
        · have hall : (u.takeWhile (· ≠ '\n')).all (· ≠ '\n') = true := List.all_takeWhile
          simpa using List.all_eq_true.mp hall _ hn

end Token.IsLexed

/-! ## Phrases -/

namespace Syntax

theorem Ident.readable {i : Ident} (h : i.token.IsLexed) : i.name.IsReadable ∧ i.name.normal = i.name := by
  rcases i.isIdent with hk | ⟨hk, hv⟩
  · obtain ⟨hq, hne⟩ := h.bare_name hk
    have hn : i.name = ⟨i.token.lexeme, false⟩ := i.name_eq (by rw [Token.value, hk]) (by rw [hk]; rfl)
    rw [hn]
    exact ⟨hne, by rw [Name.normal, hq]; rfl⟩
  · have hn : i.name = ⟨i.token.value, true⟩ := i.name_eq rfl (beq_iff_eq.mpr hk)
    rw [hn]
    exact ⟨hv, rfl⟩

theorem Path.readable {p : Path} (h : ∀ t ∈ p.yield, t.IsLexed) : p.ast.IsReadable ∧ p.ast.normal = p.ast := by
  have hf := Ident.readable (h p.format.token (by simp [Path.yield]))
  have hp := Ident.readable (h p.path.token (by simp [Path.yield]))
  refine ⟨⟨hf.1, hp.1⟩, ?_⟩
  rw [Path.ast, FormatPath.normal, hf.2, hp.2]

theorem Dotted.readable {d : Dotted} (h : ∀ t ∈ d.yield, t.IsLexed) : d.ast.IsReadable ∧ d.ast.normal = d.ast := by
  have hparts : ∀ n ∈ d.ast.parts, n.IsReadable ∧ n.normal = n := by
    intro n hn
    rcases List.mem_cons.mp hn with rfl | hn
    · exact Ident.readable (h _ List.mem_cons_self)
    · obtain ⟨q, hq, rfl⟩ := List.mem_map.mp hn
      refine Ident.readable (h _ (List.mem_cons_of_mem _ (List.mem_flatMap.mpr ⟨q, hq, ?_⟩)))
      exact List.mem_cons_of_mem _ List.mem_cons_self
  refine ⟨⟨List.cons_ne_nil _ _, fun n hn => (hparts n hn).1⟩, congrArg DottedName.mk ?_⟩
  exact (List.map_congr_left fun n hn => (hparts n hn).2).trans (List.map_id _)

theorem Dotted.readable_database {d : Dotted} (h : ∀ t ∈ d.yield, t.IsLexed) :
    (Database.ofDotted d.ast).IsReadable ∧ (Database.ofDotted d.ast).normal = Database.ofDotted d.ast := by
  obtain ⟨hr, hn⟩ := Dotted.readable h
  unfold Database.ofDotted
  split
  · next n hd =>
    rw [hd] at hr hn
    refine ⟨hr.2 n List.mem_cons_self, ?_⟩
    exact congrArg Database.name (List.cons.inj (DottedName.mk.inj hn)).1
  · next hd =>
    refine ⟨hr, ?_⟩
    rw [Database.normal, hn]
    unfold Database.ofDotted
    split
    · next n he => exact absurd he (hd n)
    · rfl

theorem Assign.readable {a : Assign} (h : ∀ t ∈ a.yield, t.IsLexed) :
    a.ast.key.IsReadable ∧ a.ast.normal = a.ast := by
  have hk := Ident.readable (h a.key.token (by simp [Assign.yield]))
  refine ⟨hk.1, ?_⟩
  rw [Assign.ast, Assignment.normal, hk.2]

theorem Options.readable {o : Options} (h : ∀ t ∈ o.yield, t.IsLexed) : o.ast.IsReadable ∧ o.ast.normal = o.ast := by
  have hfirst : ∀ a ∈ o.first, a.ast.key.IsReadable ∧ a.ast.normal = a.ast := by
    intro a ha
    refine Assign.readable fun t ht => h t (List.mem_append_right _ (List.mem_append_left _ ?_))
    exact List.mem_flatMap.mpr ⟨a, Option.mem_toList.mpr ha, ht⟩
  have hfilters : ∀ f ∈ o.filters, f.2.ast.key.IsReadable ∧ f.2.ast.normal = f.2.ast := by
    intro f hf
    refine Assign.readable fun t ht => h t (List.mem_append_right _ (List.mem_append_right _ ?_))
    exact List.mem_flatMap.mpr ⟨f, hf, List.mem_cons_of_mem _ ht⟩
  constructor
  · intro a ha
    rcases List.mem_append.mp ha with ha | ha
    · obtain ⟨x, hx, rfl⟩ := Option.map_eq_some_iff.mp (Option.mem_toList.mp ha)
      exact (hfirst x hx).1
    · obtain ⟨f, hf, rfl⟩ := List.mem_map.mp ha
      exact (hfilters f hf).1
  · rw [Options.ast, Clause.normal, List.map_map]
    congr 1
    · cases ho : o.first with
      | none => rfl
      | some a => exact congrArg some (hfirst a ho).2
    · exact List.map_congr_left fun f hf => (hfilters f hf).2

theorem Value.readable {v : Value} (h : ∀ t ∈ v.yield, t.IsLexed) : v.ast.IsReadable ∧ v.ast.normal = v.ast := by
  cases v with
  | name d =>
    obtain ⟨hr, hn⟩ := Dotted.readable h
    exact ⟨hr, congrArg SetValue.name hn⟩
  | string t => exact ⟨trivial, rfl⟩
  | block t => exact ⟨(h t.token List.mem_cons_self).plain_block (List.mem_singleton.mp t.mem), rfl⟩

end Syntax

end PipelineScript
