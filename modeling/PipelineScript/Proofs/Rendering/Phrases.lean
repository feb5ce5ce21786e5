import PipelineScript.Proofs.Rendering.Prints

/-!
# Written phrases

Every phrase prints the yield of a tree for its normal form, wherever nothing
behind it runs into its last token.
-/

namespace PipelineScript

open Syntax

namespace Prints

variable {u rest : Text} {P : List Token → Prop}

theorem dotted (h : Prints u rest P) :
    Prints ('.' :: u) rest fun w => ∃ (t : Terminal [.dot]) (b : List Token), w = t.token :: b ∧ P b := by
  refine ((dot (u ++ rest)).append h).mono ?_
  rintro _ ⟨_, b, rfl, ⟨t, rfl⟩, hb⟩
  exact ⟨t, b, rfl, hb⟩

theorem linked (hu : Solid u) (h : Prints u rest P) :
    Prints (Statement.asText ++ u) rest fun w => ∃ (l : As) (b : List Token), w = l.token :: b ∧ P b := by
  have ht : Statement.asText = ' ' :: (Statement.word .as ++ [' ']) := by decide
  rw [ht]
  refine ((terminal_spaced .as (hu.append rest)).append h).mono ?_
  rintro _ ⟨_, b, rfl, ⟨l, rfl⟩, hb⟩
  exact ⟨l, b, rfl, hb⟩

end Prints

@[simp] theorem breaks_space (t : Text) : Breaks (' ' :: t) := breaks_cons (by decide) t

theorem breaks_flatMap {α : Type} {f : α → Text} (hf : ∀ a, ∃ t, f a = ' ' :: t) (l : List α) {rest : Text}
    (hr : Breaks rest) : Breaks (l.flatMap f ++ rest) := by
  cases l with
  | nil => exact hr
  | cons a l =>
    obtain ⟨t, ht⟩ := hf a
    rw [List.flatMap_cons, ht]
    exact breaks_space _

@[simp] theorem breaks_asText (t : Text) : Breaks (Statement.asText ++ t) := by
  have ht : Statement.asText = ' ' :: ['a', 's', ' '] := by decide
  rw [ht]
  exact breaks_space _

/-! ## Names -/

theorem FormatPath.solid_render {f : FormatPath} (h : f.IsReadable) : Solid f.render :=
  (Name.solid_render h.1).append _

theorem FormatPath.prints {f : FormatPath} (h : f.IsReadable) {rest : Text} (hr : Breaks rest) :
    Prints f.render rest fun w => ∃ p : Path, w = p.yield ∧ p.ast = f.normal := by
  have hpath := (Name.prints h.2 hr).dotted
  refine ((Name.prints h.1 (breaks_cons (by decide) _)).append hpath).mono ?_
  rintro _ ⟨_, _, rfl, ⟨i, rfl, hi⟩, t, _, rfl, j, rfl, hj⟩
  refine ⟨⟨i, t, j⟩, rfl, ?_⟩
  rw [Path.ast, hi, hj]
  rfl

namespace DottedName

theorem prints_parts {rest : Text} (hr : Breaks rest) : ∀ (n : Name) (ns : List Name),
    (∀ m ∈ n :: ns, m.IsReadable) →
    Prints (Text.join ['.'] ((n :: ns).map Name.render)) rest fun w =>
      ∃ d : Dotted, w = d.yield ∧ d.ast.parts = (n :: ns).map Name.normal
  | n, [], h => by
    refine (Name.prints (h n List.mem_cons_self) hr).mono ?_
    rintro _ ⟨i, rfl, hi⟩
    exact ⟨⟨i, []⟩, rfl, by simp [Dotted.ast, hi]⟩
  | n, m :: ns, h => by
    have hn := h n List.mem_cons_self
    have ih := (prints_parts hr m ns fun x hx => h x (List.mem_cons_of_mem _ hx)).dotted
    have hjoin : Text.join ['.'] ((n :: m :: ns).map Name.render) =
        n.render ++ '.' :: Text.join ['.'] ((m :: ns).map Name.render) := List.append_assoc ..
    rw [hjoin]
    refine ((Name.prints hn (breaks_cons (by decide) _)).append ih).mono ?_
    rintro _ ⟨_, _, rfl, ⟨i, rfl, hi⟩, t, _, rfl, d, rfl, hd⟩
    refine ⟨⟨i, (t, d.first) :: d.others⟩, rfl, ?_⟩
    rw [List.map_cons, ← hd, ← hi]
    rfl

theorem exists_parts {d : DottedName} (h : d.IsReadable) : ∃ n ns, d.parts = n :: ns :=
  List.exists_cons_of_ne_nil h.1

theorem prints {d : DottedName} (h : d.IsReadable) {rest : Text} (hr : Breaks rest) :
    Prints d.render rest fun w => ∃ x : Dotted, w = x.yield ∧ x.ast = d.normal := by
  obtain ⟨n, ns, hd⟩ := exists_parts h
  have hp := prints_parts hr n ns fun m hm => h.2 m (hd ▸ hm)
  rw [← hd] at hp
  refine hp.mono ?_
  rintro _ ⟨x, rfl, hx⟩
  exact ⟨x, rfl, congrArg DottedName.mk hx⟩

theorem solid_render {d : DottedName} (h : d.IsReadable) : Solid d.render := by
  obtain ⟨n, ns, hd⟩ := exists_parts h
  have hn := Name.solid_render (h.2 n (by rw [hd]; exact List.mem_cons_self))
  rw [render, hd]
  cases ns with
  | nil => exact hn
  | cons m ns => exact (hn.append ['.']).append _

end DottedName

namespace Database

theorem prints {d : Database} (h : d.IsReadable) {rest : Text} (hr : Breaks rest) :
    Prints d.render rest fun w => ∃ x : Dotted, w = x.yield ∧ ofDotted x.ast = d.normal := by
  cases d with
  | name n =>
    refine (Name.prints h hr).mono ?_
    rintro _ ⟨i, rfl, hi⟩
    exact ⟨⟨i, []⟩, rfl, congrArg name hi⟩
  | dotted d =>
    refine (DottedName.prints h hr).mono ?_
    rintro _ ⟨x, rfl, hx⟩
    exact ⟨x, rfl, congrArg ofDotted hx⟩

theorem solid_render {d : Database} (h : d.IsReadable) : Solid d.render := by
  cases d with
  | name n => exact Name.solid_render h
  | dotted d => exact DottedName.solid_render h

end Database

namespace SetValue

theorem solid_render {v : SetValue} (h : v.IsReadable) : Solid v.render := by
  cases v with
  | name d => exact DottedName.solid_render h
  | string v => exact ⟨'"', _, rfl, by decide⟩
  | block v => exact ⟨'\x27', _, rfl, by decide⟩

theorem prints {v : SetValue} (h : v.IsReadable) {rest : Text} (hr : Breaks rest) :
    Prints v.render rest fun w => ∃ x : Value, w = x.yield ∧ x.ast = v.normal := by
  cases v with
  | name d =>
    refine (DottedName.prints h hr).mono ?_
    rintro _ ⟨x, rfl, hx⟩
    exact ⟨.name x, rfl, congrArg name hx⟩
  | string v =>
    refine (Prints.string v rest).mono ?_
    rintro _ ⟨t, rfl, ht⟩
    exact ⟨.string t, rfl, congrArg string ht⟩
  | block v =>
    refine (Prints.block h rest).mono ?_
    rintro _ ⟨t, rfl, ht⟩
    exact ⟨.block t, rfl, congrArg block ht⟩

end SetValue

/-! ## Clauses -/

namespace Assignment

theorem solid_render {a : Assignment} (h : a.key.IsReadable) : Solid a.render :=
  (Name.solid_render h).append _

theorem prints {a : Assignment} (h : a.key.IsReadable) (rest : Text) :
    Prints a.render rest fun w => ∃ x : Assign, w = x.yield ∧ x.ast = a.normal := by
  have hv := (Prints.equals (Literal.Quoted.encode a.value ++ rest)).append (Prints.string a.value rest)
  refine ((Name.prints h (breaks_cons (by decide) _)).append hv).mono ?_
  rintro _ ⟨_, _, rfl, ⟨i, rfl, hi⟩, _, _, rfl, ⟨e, rfl⟩, t, rfl, ht⟩
  refine ⟨⟨i, e, t⟩, rfl, ?_⟩
  rw [Assign.ast, hi, ht]
  rfl

end Assignment

namespace Clause

theorem prints_marker (m : Option Marker) {rest : Text} (hr : Breaks rest) :
    Prints (m.toList.flatMap fun m => ' ' :: m.render) rest fun w =>
      ∃ c : Option (Choice Marker fun m => .keyword m.keyword),
        w = c.toList.flatMap (fun m => [m.token]) ∧ c.map Choice.choice = m := by
  cases m with
  | none =>
    refine (Prints.nil rest).mono ?_
    rintro _ rfl
    exact ⟨none, rfl, rfl⟩
  | some m =>
    rw [Option.toList_some, List.flatMap_cons, List.flatMap_nil, List.append_nil]
    refine ((Prints.keyword m.keyword hr).spaced m.keyword.solid_word).mono ?_
    rintro _ ⟨t, rfl, ht⟩
    exact ⟨some ⟨m, t, ht⟩, rfl, rfl⟩

theorem prints_first (o : Option Assignment) (h : ∀ a ∈ o, a.key.IsReadable) (rest : Text) :
    Prints (o.toList.flatMap fun a => ' ' :: a.render) rest fun w =>
      ∃ x : Option Assign, w = x.toList.flatMap Assign.yield ∧ x.map Assign.ast = o.map Assignment.normal := by
  cases o with
  | none =>
    refine (Prints.nil rest).mono ?_
    rintro _ rfl
    exact ⟨none, rfl, rfl⟩
  | some a =>
    have ha := h a rfl
    rw [Option.toList_some, List.flatMap_cons, List.flatMap_nil, List.append_nil]
    refine ((Assignment.prints ha rest).spaced (Assignment.solid_render ha)).mono ?_
    rintro _ ⟨x, rfl, hx⟩
    exact ⟨some x, by simp, congrArg some hx⟩

theorem prints_filters (rest : Text) : ∀ as : List Assignment, (∀ a ∈ as, a.key.IsReadable) →
    Prints (as.flatMap fun a => " and ".toList ++ a.render) rest fun w =>
      ∃ fs : List (Terminal [.keyword .and] × Assign), w = fs.flatMap Options.filter ∧
        (fs.map fun f => f.2.ast) = as.map Assignment.normal
  | [], _ => by
    refine (Prints.nil rest).mono ?_
    rintro _ rfl
    exact ⟨[], rfl, rfl⟩
  | a :: as, h => by
    have ha := h a List.mem_cons_self
    have ih := prints_filters rest as fun x hx => h x (List.mem_cons_of_mem _ hx)
    have hand : " and ".toList = ' ' :: (Statement.word .and ++ [' ']) := by decide
    have hone := (Prints.terminal_spaced .and ((Assignment.solid_render ha).append _)).append
      (Assignment.prints ha ((as.flatMap fun a => " and ".toList ++ a.render) ++ rest))
    rw [← hand] at hone
    rw [List.flatMap_cons]
    refine (hone.append ih).mono ?_
    rintro _ ⟨_, _, rfl, ⟨_, _, rfl, ⟨t, rfl⟩, x, rfl, hx⟩, fs, rfl, hfs⟩
    exact ⟨(t, x) :: fs, rfl, by rw [List.map_cons, hx, hfs, List.map_cons]⟩

@[simp] theorem breaks (c : Clause) {rest : Text} (hr : Breaks rest) : Breaks (c.render ++ rest) := by
  rw [render, List.append_assoc, List.append_assoc]
  exact breaks_flatMap (fun _ => ⟨_, rfl⟩) _
    (breaks_flatMap (fun _ => ⟨_, rfl⟩) _ (breaks_flatMap (fun _ => ⟨_, rfl⟩) _ hr))

theorem prints {c : Clause} (h : c.IsReadable) {rest : Text} (hr : Breaks rest) :
    Prints c.render rest fun w => ∃ o : Options, w = o.yield ∧ o.ast = c.normal := by
  have hfirst : ∀ a ∈ c.first, a.key.IsReadable := fun a ha =>
    h a (List.mem_append_left _ (Option.mem_toList.mpr ha))
  have hfilters : ∀ a ∈ c.filters, a.key.IsReadable := fun a ha => h a (List.mem_append_right _ ha)
  have hf := (prints_first c.first hfirst _).append (prints_filters rest c.filters hfilters)
  have hbreaks := breaks_flatMap (f := fun a : Assignment => ' ' :: a.render) (fun _ => ⟨_, rfl⟩) c.first.toList
    (breaks_flatMap (f := fun a : Assignment => " and ".toList ++ a.render) (fun _ => ⟨_, rfl⟩) c.filters hr)
  rw [← List.append_assoc] at hbreaks
  refine ((prints_marker c.marker hbreaks).append hf).mono ?_
  rintro _ ⟨_, _, rfl, ⟨m, rfl, hm⟩, _, _, rfl, ⟨x, rfl, hx⟩, fs, rfl, hfs⟩
  refine ⟨⟨m, x, fs⟩, rfl, ?_⟩
  rw [Options.ast, hm, hx, hfs]
  rfl

end Clause

end PipelineScript
