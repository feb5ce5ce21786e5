import PipelineScript.Proofs.Json.Reordered
import PipelineScript.Script.Codec

/-!
# Saved scripts

Every type of a script is read back, in turn. Main statement: `load?_written`.
-/

namespace PipelineScript

open Json

@[simp] theorem Name.plain {d : Nat} (n : Name) : Plain (d + 1) n.toJson := .record (by simp)

theorem Name.loads (n : Name) : Loads Name.ofJson? n.toJson n := by
  intro k hk
  obtain ⟨ps, rfl, hps⟩ := hk.record_inv
  have hvalue := hps.required? "value" rfl (loads_text n.value)
  have hquoted := hps.required? "quoted" rfl (loads_bool n.quoted)
  simp [ofJson?, fields?, hvalue, hquoted]

@[simp] theorem DottedName.plain {d : Nat} (n : DottedName) : Plain (d + 3) n.toJson := .record (by simp)

theorem DottedName.loads (n : DottedName) : Loads DottedName.ofJson? n.toJson n := by
  intro k hk
  obtain ⟨ps, rfl, hps⟩ := hk.record_inv
  have hparts := hps.required? "parts" rfl (loads_list fun n _ => n.loads)
  simp [ofJson?, fields?, hparts]

@[simp] theorem FormatPath.plain {d : Nat} (f : FormatPath) : Plain (d + 2) f.toJson := .record (by simp)

theorem FormatPath.loads (f : FormatPath) : Loads FormatPath.ofJson? f.toJson f := by
  intro k hk
  obtain ⟨ps, rfl, hps⟩ := hk.record_inv
  have hformat := hps.required? "format" rfl f.format.loads
  have hpath := hps.required? "path" rfl f.path.loads
  simp [ofJson?, fields?, hformat, hpath]

@[simp] theorem Database.plain {d : Nat} (b : Database) : Plain (d + 4) b.toJson := by
  cases b <;> exact .record (by simp)

theorem Database.loads : ∀ d : Database, Loads Database.ofJson? d.toJson d
  | name n => fun k hk => by
    obtain ⟨l, hl, hn⟩ := hk.variant?
    simp [ofJson?, hl, n.loads l hn]
  | dotted n => fun k hk => by
    obtain ⟨l, hl, hn⟩ := hk.variant?
    simp [ofJson?, hl, n.loads l hn]

@[simp] theorem Assignment.plain {d : Nat} (a : Assignment) : Plain (d + 2) a.toJson := .record (by simp)

theorem Assignment.loads (a : Assignment) : Loads Assignment.ofJson? a.toJson a := by
  intro k hk
  obtain ⟨ps, rfl, hps⟩ := hk.record_inv
  have hkey := hps.required? "key" rfl a.key.loads
  have hvalue := hps.required? "value" rfl (loads_text a.value)
  simp [ofJson?, fields?, hkey, hvalue]

theorem Marker.loads (m : Marker) : Loads Marker.ofJson? (.ofString m.jsonName) m :=
  loads_choice rfl (by cases m <;> rfl)

@[simp] theorem Clause.plain {d : Nat} (c : Clause) : Plain (d + 4) c.toJson := .record (by simp)

theorem Clause.loads (c : Clause) : Loads Clause.ofJson? c.toJson c := by
  intro k hk
  obtain ⟨ps, rfl, hps⟩ := hk.record_inv
  have hmarker := hps.nullable? "marker" rfl (loads_orNull rfl Marker.loads c.marker)
  have hfirst := hps.nullable? "assign" rfl (loads_orNull rfl Assignment.loads c.first)
  have hfilters := hps.required? "filters" rfl (loads_list fun a _ => a.loads)
  simp [ofJson?, fields?, hmarker, hfirst, hfilters]

@[simp] theorem SetValue.plain {d : Nat} (v : SetValue) : Plain (d + 4) v.toJson := by
  cases v <;> exact .record (by simp)

theorem SetValue.loads : ∀ v : SetValue, Loads SetValue.ofJson? v.toJson v
  | name n => fun k hk => by
    obtain ⟨l, hl, hn⟩ := hk.variant?
    simp [ofJson?, hl, n.loads l hn]
  | string t => fun k hk => by
    obtain ⟨l, hl, ht⟩ := hk.variant?
    simp [ofJson?, hl, loads_text t l ht]
  | block t => fun k hk => by
    obtain ⟨l, hl, ht⟩ := hk.variant?
    simp [ofJson?, hl, loads_text t l ht]

/-! ## Statements -/

theorem WriteMode.loads (m : WriteMode) : Loads WriteMode.ofJson? (.ofString m.jsonName) m :=
  loads_choice rfl (by cases m <;> rfl)

theorem Verbatim.loads (v : Verbatim) : Loads Verbatim.ofJson? (.ofString v.jsonName) v :=
  loads_choice rfl (by cases v <;> rfl)

theorem ModelAction.loads (a : ModelAction) : Loads ModelAction.ofJson? (.ofString a.jsonName) a :=
  loads_choice rfl (by cases a <;> rfl)

theorem Registration.loads (r : Registration) : Loads Registration.ofJson? (.ofString r.jsonName) r :=
  loads_choice rfl (by cases r <;> rfl)

namespace Statement

@[simp] theorem plain {d : Nat} (s : Statement) : Plain (d + 5) s.toJson := by
  cases s <;> exact .record (by simp)

def tag : Statement → String
  | load .. => "load"
  | save .. => "save"
  | select .. => "select_as"
  | verbatim .. => "raw_passthrough"
  | setting .. => "set_config"
  | connect .. => "connect"
  | model .. => "train_or_run"
  | registration .. => "register"
  | inclusion .. => "include"
  | comment _ => "comment_only"

def LoadsTagged (s : Statement) : Prop := Loads (ofTagged? s.tag.toList) s.toJson s

section
variable {source sink target : FormatPath} {options : Clause} {table : Name}

theorem loads_load : (load source options table).LoadsTagged := by
  intro k hk
  obtain ⟨ps, rfl, hps⟩ := hk.record_inv
  have hsource := hps.required? "source" rfl source.loads
  have hoptions := hps.required? "options" rfl options.loads
  have htable := hps.required? "table" rfl table.loads
  simp [ofTagged?, tag, fields?, hsource, hoptions, htable]

theorem loads_save {modes : List WriteMode} {column : Option Name} :
    (save modes table sink options column).LoadsTagged := by
  intro k hk
  obtain ⟨ps, rfl, hps⟩ := hk.record_inv
  have hmodes := hps.required? "modes" rfl (loads_list fun m _ => WriteMode.loads m)
  have htable := hps.required? "table" rfl table.loads
  have hsink := hps.required? "sink" rfl sink.loads
  have hoptions := hps.required? "options" rfl options.loads
  have hcolumn := hps.nullable? "partition_by" rfl (loads_orNull rfl Name.loads column)
  simp [ofTagged?, tag, fields?, hmodes, htable, hsink, hoptions, hcolumn]

theorem loads_select {sql : Text} : (select sql table).LoadsTagged := by
  intro k hk
  obtain ⟨ps, rfl, hps⟩ := hk.record_inv
  have hsql := hps.required? "sql" rfl (loads_text sql)
  have htable := hps.required? "table" rfl table.loads
  simp [ofTagged?, tag, fields?, hsql, htable]

theorem loads_verbatim {kind : Verbatim} {body : Text} : (verbatim kind body).LoadsTagged := by
  intro k hk
  obtain ⟨ps, rfl, hps⟩ := hk.record_inv
  have hkind := hps.required? "kind" rfl kind.loads
  have hbody := hps.required? "body" rfl (loads_text body)
  simp [ofTagged?, tag, fields?, hkind, hbody]

theorem loads_setting {key : DottedName} {value : SetValue} : (setting key value options).LoadsTagged := by
  intro k hk
  obtain ⟨ps, rfl, hps⟩ := hk.record_inv
  have hkey := hps.required? "key" rfl key.loads
  have hvalue := hps.required? "value" rfl value.loads
  have hoptions := hps.required? "options" rfl options.loads
  simp [ofTagged?, tag, fields?, hkey, hvalue, hoptions]

theorem loads_connect {format : Name} {database : Option Database} :
    (connect format options database).LoadsTagged := by
  intro k hk
  obtain ⟨ps, rfl, hps⟩ := hk.record_inv
  have hformat := hps.required? "format" rfl format.loads
  have hoptions := hps.required? "options" rfl options.loads
  have hdatabase := hps.nullable? "db" rfl (loads_orNull rfl Database.loads database)
  simp [ofTagged?, tag, fields?, hformat, hoptions, hdatabase]

theorem loads_model {action : ModelAction} : (model action table target options).LoadsTagged := by
  intro k hk
  obtain ⟨ps, rfl, hps⟩ := hk.record_inv
  have haction := hps.required? "kind" rfl action.loads
  have htable := hps.required? "table" rfl table.loads
  have htarget := hps.required? "target" rfl target.loads
  have hoptions := hps.required? "options" rfl options.loads
  simp [ofTagged?, tag, fields?, haction, htable, htarget, hoptions]

theorem loads_registration {kind : Registration} {function : Option Name} :
    (registration kind target function options).LoadsTagged := by
  intro k hk
  obtain ⟨ps, rfl, hps⟩ := hk.record_inv
  have hkind := hps.required? "kind" rfl kind.loads
  have htarget := hps.required? "target" rfl target.loads
  have hfunction := hps.nullable? "function" rfl (loads_orNull rfl Name.loads function)
  have hoptions := hps.required? "options" rfl options.loads
  simp [ofTagged?, tag, fields?, hkind, htarget, hfunction, hoptions]

theorem loads_inclusion : (inclusion target options).LoadsTagged := by
  intro k hk
  obtain ⟨ps, rfl, hps⟩ := hk.record_inv
  have htarget := hps.required? "target" rfl target.loads
  have hoptions := hps.required? "options" rfl options.loads
  simp [ofTagged?, tag, fields?, htarget, hoptions]

theorem loads_comment {text : Text} : (comment text).LoadsTagged := by
  intro k hk
  obtain ⟨ps, rfl, hps⟩ := hk.record_inv
  have htext := hps.required? "text" rfl (loads_text text)
  simp [ofTagged?, tag, fields?, htext]

end

theorem loads_tagged : ∀ s : Statement, s.LoadsTagged
  | load .. => loads_load
  | save .. => loads_save
  | select .. => loads_select
  | verbatim .. => loads_verbatim
  | setting .. => loads_setting
  | connect .. => loads_connect
  | model .. => loads_model
  | registration .. => loads_registration
  | inclusion .. => loads_inclusion
  | comment _ => loads_comment

theorem record_toJson (s : Statement) : ∃ ms, s.toJson = .record ms ∧
    (ms.filter fun m => m.1 == "statement").map (·.2) = [.ofString s.tag] := by
  cases s <;> exact ⟨_, rfl, rfl⟩

theorem loads {level : Nat} (hlevel : level + 5 ≤ maxLevel) (s : Statement) : Loads (ofJson? level) s.toJson s := by
  intro k hk
  -- the limits are set on the statement as it stands in the text, so they must hold in any order
  have hplain : Plain 5 k := (plain (d := 0) s).reordered hk
  have hlimits : k.isWellFormed = true ∧ level + k.depth ≤ maxLevel :=
    ⟨hplain.isWellFormed, Nat.le_trans (Nat.add_le_add_left hplain.depth_le level) hlevel⟩
  have hread := loads_tagged s k hk
  obtain ⟨ms, hms, htag⟩ := record_toJson s
  rw [hms] at hk
  obtain ⟨ps, rfl, hps⟩ := hk.record_inv
  rw [ofJson?, if_pos hlimits]
  simp only [hps.required? "statement" htag (loads_text s.tag.toList), Option.bind_eq_bind, Option.bind_some, hread]

end Statement

/-! ## Scripts -/

def Position.Fits (p : Position) : Prop := p.offset < Nat.pow 2 64 ∧ p.line < Nat.pow 2 64 ∧ p.column < Nat.pow 2 64

theorem Position.plain {p : Position} (h : p.Fits) {d : Nat} : Plain (d + 1) p.toJson := by
  obtain ⟨hoffset, hline, hcolumn⟩ := h
  exact .record (by simp [Plain.nat hoffset, Plain.nat hline, Plain.nat hcolumn])

theorem Position.loads {p : Position} (h : p.Fits) : Loads Position.ofJson? p.toJson p := by
  intro k hk
  obtain ⟨hoffset, hline, hcolumn⟩ := h
  obtain ⟨ps, rfl, hps⟩ := hk.record_inv
  have hoffset := hps.required? "offset" rfl (loads_word64 hoffset)
  have hline := hps.required? "line" rfl (loads_word64 hline)
  have hcolumn := hps.required? "column" rfl (loads_word64 hcolumn)
  simp [ofJson?, fields?, hoffset, hline, hcolumn]

namespace Script

theorem plain {s : Script} (h : ∀ p ∈ s.positions, p.Fits) : Plain 7 s.toJson := by
  have hpositions : Plain 6 (.array (s.positions.map Position.toJson)) := .list fun p hp => Position.plain (h p hp)
  exact .record (by simp [hpositions])

theorem loads {s : Script} (h : ∀ p ∈ s.positions, p.Fits) : Loads (ofJson? 0) s.toJson s := by
  intro k hk
  have hlevel : 2 + 5 ≤ Statement.maxLevel := by decide
  obtain ⟨ps, rfl, hps⟩ := hk.record_inv
  have hstatements := hps.required? "statements" rfl (loads_list fun t _ => Statement.loads hlevel t)
  have hpositions := hps.required? "spans" rfl (loads_list fun p hp => Position.loads (h p hp))
  simp [ofJson?, fields?, hstatements, hpositions]

/-- A saved script is read back, and so is every text that writes its value with other blanks and with the members
of its objects in another order. -/
theorem load?_written (s : Script) (h : ∀ p ∈ s.positions, p.Fits) :
    Json.Written s.toJson s.save ∧ load? s.save = some s ∧
      ∀ j t, s.toJson.Reordered j → Json.Written j t → load? t = some s := by
  have hload : ∀ j t, s.toJson.Reordered j → Json.Written j t → load? t = some s := by
    intro j t hj ht
    rw [load?, ((plain h).reordered hj).parse?_eq ht]
    exact loads h j hj
  exact ⟨written_print s.toJson, hload _ _ (.refl s.toJson) (written_print s.toJson), hload⟩

/-- A comment whose kind is said last, and the farthest position there is. -/
theorem load?_written_kind_last :
    (∀ p ∈ [(⟨18446744073709551615, 1, 0⟩ : Position), ⟨0, 1, 0⟩], p.Fits) ∧
      ∀ t, Json.Written (.record [("spans", .array [Position.toJson ⟨18446744073709551615, 1, 0⟩,
          Position.toJson ⟨0, 1, 0⟩]),
        ("statements", .array [.record [("text", .ofString "x"), ("statement", .ofString "comment_only")]])]) t →
        load? t = some ⟨[.comment ['x']], [⟨18446744073709551615, 1, 0⟩, ⟨0, 1, 0⟩]⟩ := by
  have hfits : ∀ p ∈ [(⟨18446744073709551615, 1, 0⟩ : Position), ⟨0, 1, 0⟩], p.Fits := by
    simp [Position.Fits]
  refine ⟨hfits, fun t ht => (load?_written ⟨[.comment ['x']], _⟩ hfits).2.2 _ t ?_ ht⟩
  have hcomment : (Statement.comment ['x']).toJson.Reordered
      (.record [("text", .ofString "x"), ("statement", .ofString "comment_only")]) :=
    .object (.cons (.intro rfl (.refl _)) (.cons (.intro rfl (.refl _)) .nil)) (.swap _ _ _)
  exact .object (.cons (.intro rfl (.array (.cons hcomment .nil))) (.cons (.intro rfl (.refl _)) .nil)) (.swap _ _ _)

end Script

end PipelineScript
