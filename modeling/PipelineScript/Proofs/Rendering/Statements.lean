import PipelineScript.Proofs.Rendering.Phrases
import PipelineScript.Proofs.Syntax.Statements

/-!
# Written statements

A readable statement is written as tokens that one tree derives, and the tree
stands for its normal form. Main statement: `readsBack`.
-/

namespace PipelineScript

open Syntax

namespace Statement

def Derived (s : Statement) (w : List Token) : Prop := ∃ t : Tree, w = t.yield ∧ ∀ ts, t.statement ts = s.normal

section
variable {rest : Text} (hr : Breaks rest)
include hr

theorem breaks_modes (modes : List WriteMode) : Breaks (renderModes modes ++ rest) :=
  breaks_flatMap (f := fun m : WriteMode => ' ' :: word m.keyword) (fun _ => ⟨_, rfl⟩) modes hr

theorem prints_modes : ∀ modes : List WriteMode, Prints (renderModes modes) rest fun w =>
    ∃ cs : List (Choice WriteMode fun m => .keyword m.keyword),
      w = cs.flatMap (fun m => [m.token]) ∧ cs.map Choice.choice = modes
  | [] => by
    refine (Prints.nil rest).mono ?_
    rintro _ rfl
    exact ⟨[], rfl, rfl⟩
  | m :: modes => by
    have hm := (Prints.keyword m.keyword (breaks_modes hr modes)).spaced m.keyword.solid_word
    refine (hm.append (prints_modes modes)).mono ?_
    rintro _ ⟨_, _, rfl, ⟨t, rfl, ht⟩, cs, rfl, hcs⟩
    exact ⟨⟨m, t, ht⟩ :: cs, rfl, congrArg (m :: ·) hcs⟩

theorem prints_partition {column : Option Name} (h : ∀ n ∈ column, n.IsReadable) :
    Prints (renderPartition column) rest fun w =>
      ∃ c : Option (Terminal [.keyword .partitionBy, .keyword .as] × Ident),
        w = c.toList.flatMap (fun c => [c.1.token, c.2.token]) ∧
          (c.map fun c => c.2.name) = column.map Name.normal := by
  cases column with
  | none =>
    refine (Prints.nil rest).mono ?_
    rintro _ rfl
    exact ⟨none, rfl, rfl⟩
  | some n =>
    have hn := h n rfl
    have ht : " partitionBy ".toList = ' ' :: (word .partitionBy ++ [' ']) := by decide
    have hp := (Prints.terminal_spaced .partitionBy ((Name.solid_render hn).append rest)).append (Name.prints hn hr)
    rw [← ht] at hp
    refine hp.mono ?_
    rintro _ ⟨_, _, rfl, ⟨t, rfl⟩, i, rfl, hi⟩
    exact ⟨some (⟨t.token, by simp [List.mem_singleton.mp t.mem]⟩, i), rfl, congrArg some hi⟩

theorem prints_database {database : Option Database} (h : ∀ d ∈ database, d.IsReadable) :
    Prints (renderDatabase database) rest fun w =>
      ∃ d : Option (As × Dotted), w = d.toList.flatMap (fun d => d.1.token :: d.2.yield) ∧
        (d.map fun d => Database.ofDotted d.2.ast) = database.map Database.normal := by
  cases database with
  | none =>
    refine (Prints.nil rest).mono ?_
    rintro _ rfl
    exact ⟨none, rfl, rfl⟩
  | some d =>
    have hd := h d rfl
    refine ((Database.prints hd hr).linked (Database.solid_render hd)).mono ?_
    rintro _ ⟨l, _, rfl, x, rfl, hx⟩
    exact ⟨some (l, x), by simp, congrArg some hx⟩

end

theorem prints_equals {u rest : Text} {P : List Token → Prop} (hu : Solid u) (h : Prints u rest P) :
    Prints (" = ".toList ++ u) rest fun w => ∃ (e : Terminal [.equals]) (b : List Token), w = e.token :: b ∧ P b := by
  have ht : " = ".toList = ' ' :: ['=', ' '] := by decide
  have he := ((Prints.equals ([' '] ++ (u ++ rest))).append (Prints.blank (hu.append rest))).spaced
    ⟨'=', [' '], rfl, by decide⟩
  rw [ht]
  refine (he.append h).mono ?_
  rintro _ ⟨_, b, rfl, ⟨_, _, rfl, ⟨e, rfl⟩, rfl⟩, hb⟩
  exact ⟨e, b, rfl, hb⟩

@[simp] theorem breaks_partition (column : Option Name) {rest : Text} (hr : Breaks rest) :
    Breaks (renderPartition column ++ rest) := by
  cases column with
  | none => exact hr
  | some n =>
    have ht : " partitionBy ".toList = ' ' :: "partitionBy ".toList := by decide
    show Breaks (" partitionBy ".toList ++ n.render ++ rest)
    rw [ht]
    exact breaks_space _

@[simp] theorem breaks_database (database : Option Database) {rest : Text} (hr : Breaks rest) :
    Breaks (renderDatabase database ++ rest) := by
  cases database with
  | none => exact hr
  | some d =>
    rw [renderDatabase, List.append_assoc]
    exact breaks_asText _

@[simp] theorem breaks_equals (t : Text) : Breaks (" = ".toList ++ t) := by
  have ht : " = ".toList = ' ' :: ['=', ' '] := by decide
  rw [ht]
  exact breaks_space _

/-! ## Statements that are parsed -/

section
variable {rest : Text} (hr : Breaks rest)
include hr

theorem prints_load {source : FormatPath} {options : Clause} {table : Name} (hs : source.IsReadable)
    (ho : options.IsReadable) (ht : table.IsReadable) :
    Prints (load source options table).render rest (Derived (load source options table)) := by
  simp only [render, List.append_assoc]
  refine Prints.mono (.append (.terminal .load ?_) (.append (.spaced (FormatPath.solid_render hs)
    (FormatPath.prints hs ?_)) (.append (Clause.prints ho ?_)
      (.linked (Name.solid_render ht) (Name.prints ht hr))))) ?_
  · simp
  · simp
  · simp
  · rintro _ ⟨_, _, rfl, ⟨h, rfl⟩, _, _, rfl, ⟨p, rfl, hp⟩, _, _, rfl, ⟨o, rfl, ho⟩, l, _, rfl, i, rfl, hi⟩
    refine ⟨.load h p o l i, rfl, fun ts => ?_⟩
    rw [Tree.statement, hp, ho, hi]
    rfl

theorem prints_save (modes : List WriteMode) {table : Name} {sink : FormatPath} {options : Clause}
    {column : Option Name} (ht : table.IsReadable) (hs : sink.IsReadable) (ho : options.IsReadable)
    (hc : ∀ n ∈ column, n.IsReadable) :
    Prints (save modes table sink options column).render rest (Derived (save modes table sink options column)) := by
  simp only [render, List.append_assoc]
  refine Prints.mono (.append (.terminal .save ?_) (.append (prints_modes ?_ modes) (.append
    (.spaced (Name.solid_render ht) (Name.prints ht ?_)) (.linked ((FormatPath.solid_render hs).append _)
      (.append (FormatPath.prints hs ?_) (.append (Clause.prints ho ?_) (prints_partition hr hc))))))) ?_
  · rw [List.append_assoc]
    exact breaks_modes (breaks_space _) modes
  · simp
  · simp
  · simp [hr]
  · simp [hr]
  · rintro _ ⟨_, _, rfl, ⟨h, rfl⟩, _, _, rfl, ⟨cs, rfl, hcs⟩, _, _, rfl, ⟨i, rfl, hi⟩, l, _, rfl,
      _, _, rfl, ⟨p, rfl, hp⟩, _, _, rfl, ⟨o, rfl, ho⟩, c, rfl, hc⟩
    refine ⟨.save h cs i l p o c, by simp [Tree.yield, Tree.head, Tree.rest], fun ts => ?_⟩
    rw [Tree.statement, hcs, hi, hp, ho, hc]
    rfl

theorem prints_setting {key : DottedName} {value : SetValue} {options : Clause} (hk : key.IsReadable)
    (hv : value.IsReadable) (ho : options.IsReadable) :
    Prints (setting key value options).render rest (Derived (setting key value options)) := by
  simp only [render, List.append_assoc]
  refine Prints.mono (.append (.terminal .set ?_) (.append (.spaced (DottedName.solid_render hk)
    (DottedName.prints hk ?_)) (prints_equals ((SetValue.solid_render hv).append _)
      (.append (SetValue.prints hv ?_) (Clause.prints ho hr))))) ?_
  · simp
  · rw [List.append_assoc]
    exact breaks_equals _
  · simp [hr]
  · rintro _ ⟨_, _, rfl, ⟨h, rfl⟩, _, _, rfl, ⟨k, rfl, hk⟩, e, _, rfl, _, _, rfl, ⟨v, rfl, hv⟩, o, rfl, ho⟩
    refine ⟨.setting h k e v o, rfl, fun ts => ?_⟩
    rw [Tree.statement, hk, hv, ho]
    rfl

theorem prints_connect {format : Name} {options : Clause} {database : Option Database} (hf : format.IsReadable)
    (ho : options.IsReadable) (hd : ∀ d ∈ database, d.IsReadable) :
    Prints (connect format options database).render rest (Derived (connect format options database)) := by
  simp only [render, List.append_assoc]
  refine Prints.mono (.append (.terminal .connect ?_) (.append (.spaced (Name.solid_render hf)
    (Name.prints hf ?_)) (.append (Clause.prints ho ?_) (prints_database hr hd)))) ?_
  · simp
  · simp [hr]
  · simp [hr]
  · rintro _ ⟨_, _, rfl, ⟨h, rfl⟩, _, _, rfl, ⟨i, rfl, hi⟩, _, _, rfl, ⟨o, rfl, ho⟩, d, rfl, hd⟩
    refine ⟨.connect h i o d, rfl, fun ts => ?_⟩
    rw [Tree.statement, hi, ho, hd]
    rfl

theorem prints_model (action : ModelAction) {table : Name} {target : FormatPath} {options : Clause}
    (ht : table.IsReadable) (hp : target.IsReadable) (ho : options.IsReadable) :
    Prints (model action table target options).render rest (Derived (model action table target options)) := by
  simp only [render, List.append_assoc]
  refine Prints.mono (.append (.keyword action.keyword ?_) (.append (.spaced (Name.solid_render ht)
    (Name.prints ht ?_)) (.linked ((FormatPath.solid_render hp).append _)
      (.append (FormatPath.prints hp ?_) (Clause.prints ho hr))))) ?_
  · simp
  · simp
  · simp [hr]
  · rintro _ ⟨_, _, rfl, ⟨h, rfl, hh⟩, _, _, rfl, ⟨i, rfl, hi⟩, l, _, rfl, _, _, rfl, ⟨p, rfl, hp⟩, o, rfl, ho⟩
    refine ⟨.model ⟨action, h, hh⟩ i l p o, rfl, fun ts => ?_⟩
    rw [Tree.statement, hi, hp, ho]
    rfl

theorem prints_register {target : FormatPath} {function : Name} {options : Clause} (ht : target.IsReadable)
    (hf : function.IsReadable) (ho : options.IsReadable) :
    Prints (registration .register target (some function) options).render rest
      (Derived (registration .register target (some function) options)) := by
  simp only [render, renderFunction, List.append_assoc]
  refine Prints.mono (.append (.terminal .register ?_) (.append (.spaced (FormatPath.solid_render ht)
    (FormatPath.prints ht ?_)) (.linked ((Name.solid_render hf).append _)
      (.append (Name.prints hf ?_) (Clause.prints ho hr))))) ?_
  · simp
  · simp
  · simp [hr]
  · rintro _ ⟨_, _, rfl, ⟨h, rfl⟩, _, _, rfl, ⟨p, rfl, hp⟩, l, _, rfl, _, _, rfl, ⟨i, rfl, hi⟩, o, rfl, ho⟩
    refine ⟨.register h p l i o, rfl, fun ts => ?_⟩
    rw [Tree.statement, hi, hp, ho]
    rfl

theorem prints_unregister {target : FormatPath} (function : Option Name) {options : Clause} (ht : target.IsReadable)
    (ho : options.IsReadable) :
    Prints (registration .unregister target function options).render rest
      (Derived (registration .unregister target function options)) := by
  simp only [render, List.append_assoc]
  refine Prints.mono (.append (.terminal .unregister ?_) (.append (.spaced (FormatPath.solid_render ht)
    (FormatPath.prints ht ?_)) (Clause.prints ho hr))) ?_
  · simp
  · simp [hr]
  · rintro _ ⟨_, _, rfl, ⟨h, rfl⟩, _, _, rfl, ⟨p, rfl, hp⟩, o, rfl, ho⟩
    refine ⟨.unregister h p o, rfl, fun ts => ?_⟩
    rw [Tree.statement, hp, ho]
    rfl

theorem prints_inclusion {target : FormatPath} {options : Clause} (ht : target.IsReadable)
    (ho : options.IsReadable) :
    Prints (inclusion target options).render rest (Derived (inclusion target options)) := by
  simp only [render, List.append_assoc]
  refine Prints.mono (.append (.terminal .include ?_) (.append (.spaced (FormatPath.solid_render ht)
    (FormatPath.prints ht ?_)) (Clause.prints ho hr))) ?_
  · simp
  · simp [hr]
  · rintro _ ⟨_, _, rfl, ⟨h, rfl⟩, _, _, rfl, ⟨p, rfl, hp⟩, o, rfl, ho⟩
    refine ⟨.inclusion h p o, rfl, fun ts => ?_⟩
    rw [Tree.statement, hp, ho]
    rfl

end

end Statement

end PipelineScript
