import PipelineScript.Token.Scanner
import PipelineScript.Proofs.Lexing.Delimiters
import PipelineScript.Proofs.Lexing.Scan

/-!
# The scanner hands out the tokens of its text

It never breaks off. Main statement: `Scanner.steps_start`.
-/

namespace PipelineScript

namespace Text

theorem splitBytes?_append (s t : Text) : splitBytes? s.byteLength (s ++ t) = some (s, t) := by
  induction s with
  | nil => cases t <;> rfl
  | cons c s ih =>
    have hc := c.utf8Size_pos
    obtain ⟨n, hn⟩ : ∃ n, c.utf8Size + byteLength s = n + 1 := Nat.exists_eq_succ_of_ne_zero (by omega)
    rw [byteLength_cons, hn, List.cons_append, splitBytes?, if_pos (by omega), ← hn, Nat.add_sub_cancel_left, ih]
    rfl

theorem slice?_append (s t u : Text) :
    slice? (s ++ (t ++ u)) s.byteLength (s.byteLength + t.byteLength) = some t := by
  rw [slice?, if_pos (Nat.le_add_right ..), Nat.add_sub_cancel_left]
  simp only [splitBytes?_append, Option.bind_eq_bind, Option.bind_some, Option.pure_def]

end Text

def Spot.past (s : Spot) (t : Text) : Spot := ⟨s.index + t.length, s.position.past t⟩

theorem Spot.past_append (s : Spot) (t u : Text) : s.past (t ++ u) = (s.past t).past u := by
  simp only [past, List.length_append, Nat.add_assoc, Position.past_append]

/-- The place is in front of `rest`, which `chars` ends with. -/
def Spot.Sees (s : Spot) (chars rest : Text) : Prop := ∃ done, chars = done ++ rest ∧ s = Spot.start.past done

namespace Scanner

theorem sees_start (source : Text) : Spot.start.Sees source source := ⟨[], rfl, rfl⟩

section
variable {chars : Text} {s : Spot}

theorem sees_past {u v : Text} (h : s.Sees chars (u ++ v)) : (s.past u).Sees chars v := by
  obtain ⟨done, rfl, rfl⟩ := h
  exact ⟨done ++ u, (List.append_assoc ..).symm, (Spot.past_append ..).symm⟩

theorem getElem?_eq {t : Text} (h : s.Sees chars t) (n : Nat) : chars[s.index + n]? = t[n]? := by
  obtain ⟨done, rfl, rfl⟩ := h
  simp [Spot.past, Spot.start, List.getElem?_append_right]

theorem isAtEnd_eq {t : Text} (h : s.Sees chars t) : isAtEnd chars s = t.isEmpty := by
  obtain ⟨done, rfl, rfl⟩ := h
  cases t <;> simp [isAtEnd, Spot.past, Spot.start]

theorem advance_eq {c : Char} {t : Text} (h : s.Sees chars (c :: t)) : advance chars s = .ok (c, s.past [c]) := by
  have hget : chars[s.index]? = some c := getElem?_eq h 0
  rw [advance, hget]
  rfl

theorem advanceBy_eq (u : Text) {v : Text} (h : s.Sees chars (u ++ v)) :
    advanceBy chars u.length s = .ok (s.past u) := by
  induction u generalizing s with
  | nil => rfl
  | cons c u ih =>
    rw [List.length_cons, advanceBy, advance_eq h]
    exact (ih (sees_past (u := [c]) h)).trans (by rw [← Spot.past_append]; rfl)

theorem slice_eq {u v : Text} (h : s.Sees chars (u ++ v)) : slice chars s (s.past u) = .ok u := by
  obtain ⟨done, rfl, rfl⟩ := h
  have hfirst : (Spot.start.past done).position.offset = done.byteLength := by
    simp [Spot.past, Spot.start, Position.past_offset, Position.start]
  have hlast : ((Spot.start.past done).past u).position.offset = done.byteLength + u.byteLength := by
    rw [← hfirst]
    exact Position.past_offset ..
  rw [slice, hfirst, hlast, Text.slice?_append]

theorem skipWhile_eq (p : Char → Bool) : ∀ {t : Text} {s : Spot}, s.Sees chars t →
    skipWhile p chars s = .ok (s.past (t.takeWhile p))
  | [], s, h => by
    rw [skipWhile, isAtEnd_eq h]
    rfl
  | c :: t, s, h => by
    have hpeek : peek chars s 0 = c := by rw [peek, getElem?_eq h]; rfl
    rw [skipWhile, isAtEnd_eq h, hpeek, List.takeWhile_cons]
    by_cases hc : p c = true
    · rw [if_pos (by simp [hc]), if_pos hc, ← List.singleton_append, Spot.past_append,
        ← skipWhile_eq p (sees_past (u := [c]) h)]
      split
      · next hf => rw [advance_eq h] at hf; cases hf
      · next hf => rw [advance_eq h] at hf; cases hf; rfl
    · rw [if_neg (by simp [hc]), if_neg hc]
      rfl

theorem peeks_eq {t : Text} (h : s.Sees chars t) (n : Nat) :
    peeks chars s n = (t ++ List.replicate n '\x00').take n := by
  refine List.ext_getElem? fun i => ?_
  by_cases hi : i < n
  · rw [peeks, List.getElem?_map, List.getElem?_range hi, List.getElem?_take_of_lt hi, Option.map_some, peek,
      getElem?_eq h]
    by_cases ht : i < t.length
    · rw [List.getElem?_append_left ht, List.getElem?_eq_getElem ht]
      rfl
    · rw [List.getElem?_append_right (by omega), List.getElem?_eq_none (by omega),
        List.getElem?_replicate_of_lt (by omega)]
      rfl
  · simp [peeks, hi]

theorem peeks_eq_iff {t : Text} (h : s.Sees chars t) (closing : Text) (hz : '\x00' ∉ closing) :
    peeks chars s closing.length = closing ↔ closing <+: t := by
  rw [peeks_eq h, eq_comm, ← List.prefix_iff_eq_take]
  refine ⟨fun hp => ?_, fun hp => hp.trans (List.prefix_append ..)⟩
  rcases List.prefix_or_prefix_of_prefix hp (List.prefix_append t _) with hp' | ⟨u, rfl⟩
  · exact hp'
  · rw [List.prefix_append_right_inj] at hp
    cases u with
    | nil => rw [List.append_nil]
    | cons d u =>
      have hd : d = '\x00' := List.eq_of_mem_replicate (hp.subset List.mem_cons_self)
      exact absurd (List.mem_append_right t (hd ▸ List.mem_cons_self)) hz

theorem opening_peeks {t : Text} (h : s.Sees chars t) (c : Char) : opening c (peeks chars s 2) = opening c t := by
  have hc : ¬ ((c = '-' ∨ c = '/') ∧ '\x00' = c) := by rintro ⟨rfl | rfl, h⟩ <;> exact absurd h (by decide)
  rw [peeks_eq h]
  match t with
  | [] => simp [opening, hc]
  | [d] => simp [opening]
  | d :: e :: t => simp [opening]

/-! ## Searches -/

inductive Tells (close? : Text → Option Nat) (s : Spot) (t : Text) : Look → Prop
  | found {u v : Text} : t = u ++ v → close? t = some u.length → Tells close? s t (.found (s.past u))
  | on {u v : Text} : t = u ++ v → close? t = (close? v).map (· + u.length) → Tells close? s t (.on (s.past u))
  | lost : close? t = none → Tells close? s t .lost

structure Hunt.Seeks (hunt : Hunt) (close? : Text → Option Nat) : Prop where
  nil : close? [] = none
  cons : ∀ {chars : Text} {s : Spot} {c : Char} {t : Text}, s.Sees chars (c :: t) →
    ∃ l, hunt.look chars s = .ok l ∧ Tells close? s (c :: t) l

theorem Hunt.Seeks.tells {hunt : Hunt} {close? : Text → Option Nat} (hh : hunt.Seeks close?) {t : Text}
    (h : s.Sees chars t) (hs : s.index < chars.length) {r : Except Fault Look} (hr : hunt.look chars s = r) :
    ∃ l, r = .ok l ∧ Tells close? s t l := by
  subst hr
  cases t with
  | nil =>
    have he := isAtEnd_eq h
    simp only [isAtEnd, List.isEmpty_nil, decide_eq_true_eq] at he
    omega
  | cons c t => exact hh.cons h

theorem Hunt.Seeks.seek_eq {hunt : Hunt} {close? : Text → Option Nat} (hh : hunt.Seeks close?) {t : Text}
    (h : s.Sees chars t) : hunt.seek chars s = .ok ((close? t).map fun n => s.past (t.take n)) := by
  fun_induction hunt.seek chars s generalizing t with
  | case1 s hs f hf =>
    obtain ⟨_, hl, -⟩ := hh.tells h hs hf
    cases hl
  | case2 s hs s' hf =>
    obtain ⟨_, ⟨⟩, ht⟩ := hh.tells h hs hf
    cases ht with
    | found ht hc => rw [hc, Option.map_some, ht, List.take_left]
  | case3 s hs s' hf ih =>
    obtain ⟨_, ⟨⟩, ht⟩ := hh.tells h hs hf
    cases ht with
    | @on u v ht hc =>
      subst ht
      rw [ih (sees_past h), hc, Option.map_map]
      refine congrArg Except.ok (congrArg (Option.map · (close? v)) (funext fun n => ?_))
      rw [Function.comp, Nat.add_comm, List.take_length_add_append, Spot.past_append]
  | case4 s hs hf =>
    obtain ⟨_, ⟨⟩, ht⟩ := hh.tells h hs hf
    cases ht with
    | lost hc => rw [hc]; rfl
  | case5 s hs =>
    cases t with
    | nil => rw [hh.nil]; rfl
    | cons c t =>
      have he := isAtEnd_eq h
      simp only [isAtEnd, List.isEmpty_cons, decide_eq_false_iff_not] at he
      omega

theorem seeks_verbatim {closing : Text} {close? : Text → Option Nat} (hs : Literal.Seeks closing close?)
    (hz : '\x00' ∉ closing) : (Hunt.verbatim closing).Seeks close? where
  nil := hs.nil
  cons {chars s c t} h := by
    simp only [Hunt.verbatim, peeks_eq_iff h closing hz]
    by_cases hp : closing <+: c :: t
    · have hc := hs.found hp
      obtain ⟨v, hv⟩ := hp
      rw [if_pos ⟨v, hv⟩, advanceBy_eq closing (hv ▸ h)]
      exact ⟨_, rfl, .found hv.symm hc⟩
    · rw [if_neg hp, advance_eq h]
      exact ⟨_, rfl, .on (u := [c]) rfl (hs.passed hp)⟩

theorem seeks_quoted (q : Char) : (Hunt.quoted q).Seeks (Literal.Quoted.close? q) where
  nil := rfl
  cons {chars s c t} h := by
    have hs := sees_past (u := [c]) h
    simp only [Hunt.quoted, advance_eq h, ok_bind]
    by_cases hb : c = '\\'
    · subst hb
      rw [if_pos rfl, isAtEnd_eq hs]
      cases t with
      | nil => exact ⟨.lost, rfl, .lost rfl⟩
      | cons d u =>
        rw [advance_eq hs]
        exact ⟨_, rfl, .on (u := ['\\', d]) rfl (Literal.Quoted.close?_backslash ..)⟩
    · have hc := Literal.Quoted.close?_cons (q := q) hb t
      rw [if_neg hb]
      by_cases hq : c = q
      · rw [if_pos hq] at hc ⊢
        exact ⟨_, rfl, .found (u := [c]) rfl hc⟩
      · rw [if_neg hq] at hc ⊢
        exact ⟨_, rfl, .on (u := [c]) rfl hc⟩

theorem seeks_backquoted : Hunt.backquoted.Seeks Literal.Backquoted.close? where
  nil := rfl
  cons {chars s c t} h := by
    have hs := sees_past (u := [c]) h
    simp only [Hunt.backquoted, advance_eq h, ok_bind]
    by_cases hc : c = '\x60'
    · subst hc
      rw [if_pos rfl, peek, getElem?_eq hs]
      cases t with
      | nil => exact ⟨_, rfl, .found (u := ['\x60']) rfl rfl⟩
      | cons d u =>
        by_cases hd : d = '\x60'
        · subst hd
          rw [if_pos (by rfl), advance_eq hs]
          exact ⟨_, rfl, .on (u := ['\x60', '\x60']) rfl (Literal.Backquoted.close?_pair u)⟩
        · have hh : (d :: u).head? ≠ some '\x60' := fun e => hd (Option.some.inj e)
          rw [if_neg (by exact hd)]
          exact ⟨_, rfl, .found (u := ['\x60']) rfl (Literal.Backquoted.close?_single hh)⟩
    · rw [if_neg hc]
      exact ⟨_, rfl, .on (u := [c]) rfl (Literal.Backquoted.close?_cons hc t)⟩

/-! ## Tokens -/

theorem close_eq {hunt : Hunt} {close? : Text → Option Nat} (hh : hunt.Seeks close?) (kind : Token.Kind) {c : Char}
    (u : Text) {v : Text} (h : s.Sees chars (c :: (u ++ v))) :
    (hunt.seek chars (s.past (c :: u)) >>= close chars s kind) =
      .ok ((scanClosed kind u.length (close? v)).1,
        s.past (c :: (u ++ v).take (scanClosed kind u.length (close? v)).2)) := by
  rw [hh.seek_eq (sees_past (u := c :: u) h), ok_bind]
  cases close? v with
  | none =>
    rw [Option.map_none, close, advance_eq h]
    rfl
  | some n =>
    rw [Option.map_some, ← Spot.past_append, List.cons_append, scanClosed, List.take_length_add_append]
    rfl

theorem close?_ne_two {t : Text} (h : ¬ ['*', '/'] <+: t) : Literal.Comment.close? t ≠ some 2 := by
  intro hc
  obtain ⟨i, ⟨hi, -⟩, h₂⟩ := Literal.Comment.seeks.eq_some_iff.mp hc
  obtain rfl : i = 0 := by simpa using h₂
  exact h hi

theorem comment_eq {t : Text} (h : s.Sees chars ('/' :: '*' :: t)) :
    comment chars s (s.past ['/']) = .ok ((scanComment t).1, s.past ('/' :: ('*' :: t).take (scanComment t).2)) := by
  have hs : (s.past ['/', '*']).Sees chars t := sees_past h
  have hpeeks : peeks chars (s.past ['/', '*']) 2 = ['*', '/'] ↔ ['*', '/'] <+: t :=
    peeks_eq_iff hs ['*', '/'] (by decide)
  rw [comment, advance_eq (sees_past (u := ['/']) h), ok_bind, ← Spot.past_append, List.singleton_append]
  by_cases hp : ['*', '/'] <+: t
  · obtain ⟨v, rfl⟩ := hp
    have hc : Literal.Comment.close? (['*', '/'] ++ v) = some 2 := rfl
    have hadvance : advanceBy chars 2 (s.past ['/', '*']) = .ok (s.past ['/', '*', '*', '/']) := advanceBy_eq _ hs
    simp only [if_pos (hpeeks.mpr (List.prefix_append ..)), hadvance, scanComment, hc]
    rfl
  · rw [scanComment, if_neg (close?_ne_two hp)]
    simp only [if_neg (hpeeks.not.mpr hp)]
    exact close_eq (seeks_verbatim Literal.Comment.seeks (by decide)) _ ['*'] h

theorem word_eq {c : Char} {t : Text} (h : s.Sees chars (c :: t)) :
    word chars s (s.past [c]) = .ok ((scanWord c t).1, s.past (c :: t.take (scanWord c t).2)) := by
  have hs := sees_past (u := [c]) h
  have hw : s.Sees chars (c :: t.takeWhile Text.isWordChar ++ t.dropWhile Text.isWordChar) := by
    rw [List.cons_append, List.takeWhile_append_dropWhile]
    exact h
  rw [word, skipWhile_eq _ hs, ok_bind, ← Spot.past_append, List.singleton_append, slice_eq hw, ok_bind, scanWord]
  cases Keyword.ofWord? (c :: t.takeWhile Text.isWordChar) <;> simp only [take_takeWhile] <;> rfl

theorem finish_eq {c : Char} {t : Text} (h : s.Sees chars (c :: t)) :
    finish chars c s (s.past [c]) (opening c t) = .ok ((scan c t).1, s.past (c :: t.take (scan c t).2)) := by
  have hs := sees_past (u := [c]) h
  have hn := opening_needs c t
  rw [scan]
  cases ho : opening c t with
  | blank =>
    rw [finish, skipWhile_eq _ hs, Opening.extent, take_takeWhile, ← Spot.past_append]
    rfl
  | line =>
    rw [finish, skipWhile_eq _ hs, Opening.extent, take_takeWhile, ← Spot.past_append]
    rfl
  | bracket =>
    rw [ho] at hn
    obtain ⟨rfl, ht⟩ := hn
    obtain ⟨v, rfl⟩ := List.head?_eq_some_iff.mp ht
    exact comment_eq h
  | single kind => rfl
  | block =>
    rw [ho] at hn
    obtain ⟨rfl, ht⟩ := hn
    obtain ⟨v, rfl⟩ : ['\x27', '\x27'] <+: t := ht ▸ List.take_prefix 2 t
    have hadvance : advanceBy chars 2 (s.past ['\x27']) = .ok (s.past ['\x27', '\x27', '\x27']) := advanceBy_eq _ hs
    rw [finish, hadvance]
    exact close_eq (seeks_verbatim Literal.Block.seeks (by decide)) _ ['\x27', '\x27'] h
  | quote => exact close_eq (seeks_quoted c) _ [] h
  | backquote => exact close_eq seeks_backquoted _ [] h
  | word => exact word_eq h
  | stray => rfl

theorem token_eq {c : Char} {t : Text} (h : s.Sees chars (c :: t)) :
    token chars s = .ok (firstToken s.position c t, s.past (firstToken s.position c t).lexeme) := by
  have hs := sees_past (u := [c]) h
  have hlexeme : s.Sees chars ((firstToken s.position c t).lexeme ++ afterFirst c t) := by
    rw [firstToken_append_afterFirst]
    exact h
  simp only [token, advance_eq h, ok_bind, opening_peeks hs, finish_eq h]
  exact congrArg (· >>= _) (slice_eq hlexeme)

end

inductive InStep : Scanner → Lexer → Prop
  | reading {chars rest : Text} {s : Spot} : s.Sees chars rest → InStep ⟨chars, s, false⟩ (.reading s.position rest)
  | finished {chars : Text} {s : Spot} : InStep ⟨chars, s, true⟩ .finished

theorem InStep.next {l : Scanner} {m : Lexer} (h : InStep l m) :
    ∃ l', l.next = .ok (m.next.1, l') ∧ InStep l' m.next.2 := by
  cases h with
  | finished => exact ⟨_, rfl, .finished⟩
  | @reading chars rest s hs =>
    rw [Scanner.next, if_neg nofun, isAtEnd_eq hs]
    cases rest with
    | nil => exact ⟨_, rfl, .finished⟩
    | cons c t =>
      rw [if_neg nofun, token_eq hs]
      rw [← firstToken_append_afterFirst s.position] at hs
      exact ⟨_, rfl, .reading (sees_past hs)⟩

theorem InStep.steps : ∀ (n : Nat) {l : Scanner} {m : Lexer}, InStep l m → steps n l = .ok (Lexer.steps n m)
  | 0, _, _, _ => rfl
  | n + 1, l, m, h => by
    obtain ⟨l', hl, h'⟩ := h.next
    simp only [Scanner.steps, hl, ok_bind, InStep.steps n h']
    rfl

/-- The scanner never breaks off, and hands out what the lexer does. -/
theorem steps_start (n : Nat) (source : Text) : steps n (start source) = .ok (Lexer.steps n (.start source)) :=
  (InStep.reading (sees_start source)).steps n

end Scanner

end PipelineScript
