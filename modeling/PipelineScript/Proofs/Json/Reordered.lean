import Mathlib.Data.List.Forall2
import PipelineScript.Json.Decode
import PipelineScript.Proofs.Json.Plain

/-!
# Members in another order

A field is looked up by its name, so what is read from a record is read from it
in every order of its members.
-/

namespace PipelineScript.Json

variable {α : Type}

/-- The second value is the first one but for the order of the members in its objects. -/
inductive Reordered : Json → Json → Prop
  | refl (j : Json) : Reordered j j
  | array {js ks : List Json} (h : List.Forall₂ Reordered js ks) : Reordered (array js) (array ks)
  | object {ms ns ps : List (Text × Json)} (h : List.Forall₂ (Prod.RProd Eq Reordered) ms ns) (hp : ns.Perm ps) :
    Reordered (object ms) (object ps)

/-- The second members are the first ones in another order and with their values reordered. -/
def Fields.Reordered (ms ps : Fields) : Prop := ∃ ns, List.Forall₂ (Prod.RProd Eq Json.Reordered) ms ns ∧ ns.Perm ps

namespace Reordered

theorem array_inv {js : List Json} {k : Json} (h : (Json.array js).Reordered k) :
    ∃ ks, k = .array ks ∧ List.Forall₂ Reordered js ks := by
  cases h with
  | refl => exact ⟨js, rfl, List.forall₂_same.mpr fun j _ => .refl j⟩
  | array h => exact ⟨_, rfl, h⟩

theorem object_inv {ms : List (Text × Json)} {k : Json} (h : (Json.object ms).Reordered k) :
    ∃ ps, k = .object ps ∧ Fields.Reordered ms ps := by
  cases h with
  | refl => exact ⟨ms, rfl, ms, List.forall₂_same.mpr fun m _ => .intro rfl (.refl m.2), .refl ms⟩
  | object h hp => exact ⟨_, rfl, _, h, hp⟩

end Reordered

theorem exists_mem_of_forall₂ {β : Type} {R : α → β → Prop} {as : List α} {bs : List β}
    (h : List.Forall₂ R as bs) {b : β} (hb : b ∈ bs) : ∃ a ∈ as, R a b := by
  induction h with
  | nil => cases hb
  | cons hr _ ih =>
    rcases List.mem_cons.mp hb with rfl | hb
    · exact ⟨_, List.mem_cons_self, hr⟩
    · obtain ⟨a, ha, hab⟩ := ih hb
      exact ⟨a, List.mem_cons_of_mem _ ha, hab⟩

theorem Plain.reordered {d : Nat} {j k : Json} (h : Plain d j) (hk : j.Reordered k) : Plain d k := by
  induction h generalizing k with
  | null => cases hk with | refl => exact .null
  | bool b => cases hk with | refl => exact .bool b
  | nat h => cases hk with | refl => exact .nat h
  | text t => cases hk with | refl => exact .text t
  | array _ ih =>
    obtain ⟨ks, rfl, hks⟩ := hk.array_inv
    refine .array fun k hk => ?_
    obtain ⟨j, hj, hjk⟩ := exists_mem_of_forall₂ hks hk
    exact ih j hj hjk
  | object _ ih =>
    obtain ⟨ps, rfl, ns, hns, hp⟩ := hk.object_inv
    refine .object fun p hps => ?_
    obtain ⟨m, hm, ⟨-, hmp⟩⟩ := exists_mem_of_forall₂ hns (hp.mem_iff.mpr hps)
    exact ih _ hm hmp

def Fields.Record (ms : List (String × Json)) (ps : Fields) : Prop :=
  Fields.Reordered (ms.map fun m => (m.1.toList, m.2)) ps

theorem Fields.named_record (ms : List (String × Json)) (name : String) :
    Fields.named (ms.map fun m => (m.1.toList, m.2)) name = (ms.filter fun m => m.1 == name).map (·.2) := by
  have hname (m : String × Json) : (m.1.toList == name.toList) = (m.1 == name) := by
    rw [Bool.eq_iff_iff, beq_iff_eq, beq_iff_eq, String.toList_inj]
  simp only [Fields.named, List.filter_map, List.map_map, Function.comp_def, hname]

theorem Fields.Record.named {ms : List (String × Json)} {ps : Fields} (h : Fields.Record ms ps) {name : String}
    {j : Json} (hj : (ms.filter fun m => m.1 == name).map (·.2) = [j]) : ∃ k, ps.named name = [k] ∧ j.Reordered k := by
  obtain ⟨ns, hns, hp⟩ := h
  rw [← Fields.named_record] at hj
  have hvalues : List.Forall₂ Json.Reordered (Fields.named (ms.map fun m => (m.1.toList, m.2)) name)
      (Fields.named ns name) := by
    refine List.rel_map (fun _ _ hr => ?_) (List.rel_filter (fun _ _ hr => ?_) hns)
    · exact hr.casesOn fun _ hv => hv
    · obtain ⟨rfl, -⟩ := hr
      exact Iff.rfl
  have hperm : (Fields.named ns name).Perm (ps.named name) := (hp.filter _).map _
  rw [hj] at hvalues
  obtain ⟨k, ks, hk, hks, hnamed⟩ := List.forall₂_cons_left_iff.mp hvalues
  obtain rfl := List.forall₂_nil_left_iff.mp hks
  rw [hnamed] at hperm
  exact ⟨k, List.perm_singleton.mp hperm.symm, hk⟩

theorem Reordered.record_inv {ms : List (String × Json)} {k : Json} (h : (Json.record ms).Reordered k) :
    ∃ ps, k = .object ps ∧ Fields.Record ms ps := h.object_inv

theorem Reordered.variant? {name : String} {j k : Json} (h : (Json.record [(name, j)]).Reordered k) :
    ∃ l, k.variant? = some (name.toList, l) ∧ j.Reordered l := by
  obtain ⟨ps, rfl, ns, hns, hp⟩ := h.record_inv
  obtain ⟨⟨_, l⟩, ls, ⟨rfl, hl⟩, hls, rfl⟩ := List.forall₂_cons_left_iff.mp hns
  obtain rfl := List.forall₂_nil_left_iff.mp hls
  obtain rfl := List.perm_singleton.mp hp.symm
  exact ⟨l, rfl, hl⟩

/-! ## Values that are read back -/

/-- The value is read as `a`, in any order of the members in its objects. -/
def Loads (read : Json → Option α) (j : Json) (a : α) : Prop := ∀ k, j.Reordered k → read k = some a

theorem loads_text (t : Text) : Loads text? (text t) t := fun k hk => by
  cases hk with | refl => rfl

theorem loads_bool (b : Bool) : Loads bool? (bool b) b := fun k hk => by
  cases hk with | refl => rfl

theorem loads_word64 {n : Nat} (h : n < Nat.pow 2 64) : Loads word64? (nat n) n := fun k hk => by
  cases hk with | refl => exact if_pos h

variable {read : Json → Option α} {write : α → Json}

theorem loads_list {as : List α} (h : ∀ a ∈ as, Loads read (write a) a) :
    Loads (list? read) (array (as.map write)) as := by
  intro k hk
  obtain ⟨ks, rfl, hks⟩ := hk.array_inv
  rw [List.forall₂_map_left_iff] at hks
  rw [list?]
  clear hk
  induction hks with
  | nil => rfl
  | cons ha _ ih =>
    obtain ⟨hread, h⟩ := List.forall_mem_cons.mp h
    simp [List.mapM_cons, hread _ ha, ih h]

theorem loads_orNull (hnull : read null = none) (h : ∀ a, Loads read (write a) a) (o : Option α) :
    Loads (nullable? read) (orNull (o.map write)) o := by
  intro k hk
  cases o with
  | none => cases hk with | refl => rfl
  | some a =>
    have ha := h a k hk
    unfold nullable?
    split
    · cases hnull.symm.trans ha
    · rw [ha]
      rfl

theorem loads_choice {isNothing : Json → Bool} (hnull : isNothing null = true) {all : List α} {name : α → String}
    {a : α} (ha : all.find? (fun b => (name b).toList == (name a).toList) = some a) :
    Loads (choice? isNothing all name) (ofString (name a)) a := by
  intro k hk
  cases hk with | refl => ?_
  simp [choice?, ofString, variant?, hnull, ha]

variable {ms : List (String × Json)} {ps : Fields} {j : Json} {a : α}

theorem Fields.Record.required? (h : Fields.Record ms ps) (name : String)
    (hj : (ms.filter fun m => m.1 == name).map (·.2) = [j]) (hread : Loads read j a) :
    ps.required? name read = some a := by
  obtain ⟨k, hk, hjk⟩ := h.named hj
  rw [Fields.required?, hk]
  exact hread k hjk

theorem Fields.Record.nullable? (h : Fields.Record ms ps) (name : String)
    (hj : (ms.filter fun m => m.1 == name).map (·.2) = [j]) {o : Option α} (hread : Loads (Json.nullable? read) j o) :
    ps.nullable? name read = some o := by
  obtain ⟨k, hk, hjk⟩ := h.named hj
  rw [Fields.nullable?, Fields.optional?, hk]
  exact hread k hjk

end PipelineScript.Json
