import StageArchive.Json.Shape
import StageArchive.Proofs.Json.Reader
import StageArchive.Proofs.Outcome
/-!
# Reading what was printed

A record whose members are its fields, each once and in order, is read field by field. A value that
its shape reads from its document is read from the printed document.
-/

namespace StageArchive.Json.Shape

/-- The members of a record whose keys differ have one value each. -/
theorem valuesOf_of_mem {members : List (String × Json)} (hnodup : (members.map (·.1)).Nodup)
    {member : String × Json} (h : member ∈ members) : valuesOf members member.1 = [member.2] := by
  induction members with
  | nil => cases h
  | cons first members ih =>
      rw [List.map_cons, List.nodup_cons] at hnodup
      obtain ⟨hfirst, hothers⟩ := hnodup
      rcases List.mem_cons.mp h with rfl | hmem
      · have hnone : members.filter (·.1 == member.1) = [] := by
          refine List.filter_eq_nil_iff.mpr ?_
          intro other hother heq
          exact hfirst (beq_iff_eq.mp heq ▸ List.mem_map_of_mem hother)
        simp only [valuesOf, List.filter_cons, beq_self_eq_true, if_true, hnone, List.map_cons,
          List.map_nil]
      · have hne : ¬ first.1 == member.1 := by
          intro heq
          exact hfirst (beq_iff_eq.mp heq ▸ List.mem_map_of_mem hmem)
        rw [← ih hothers hmem]
        simp only [valuesOf, List.filter_cons, if_neg hne]

/-- A record whose members are its fields in order is read field by field. -/
theorem record_of_keys (strictness : Strictness) (fields : List String) (hnodup : fields.Nodup)
    {members : List (String × Json)} (hkeys : members.map (·.1) = fields) (levels : Nat) :
    record strictness fields (levels + 1) (.object members) =
      .ok (levels, members.map fun member => some member.2) := by
  subst hkeys
  have hknown : unknownField? (members.map (·.1)) members = none := by
    refine List.find?_eq_none.mpr ?_
    intro name hname hunknown
    rw [List.contains_iff_mem.mpr hname] at hunknown
    cases hunknown
  have honce : (members.map (·.1)).any
      (fun field => 1 < (valuesOf members field).length) = false := by
    refine List.any_eq_false.mpr ?_
    intro field hfield
    obtain ⟨member, hmember, rfl⟩ := List.mem_map.mp hfield
    rw [valuesOf_of_mem hnodup hmember]
    simp
  have hvalues : (members.map (·.1)).map (fun field => (valuesOf members field).head?) =
      members.map fun member => some member.2 := by
    rw [List.map_map]
    refine List.map_congr_left ?_
    intro member hmember
    show (valuesOf members member.1).head? = _
    rw [valuesOf_of_mem hnodup hmember]
    rfl
  cases strictness with
  | strict | lenient => simp [record, hknown, honce, hvalues]

/-- A list is read when each of its items is. -/
theorem list_map {α : Type} {shape : Shape α} {toJson : α → Json} {levels : Nat}
    (h : ∀ value, shape levels (toJson value) = .ok value) (values : List α) :
    list shape (levels + 1) (.array (values.map toJson)) = .ok values := by
  show (values.map toJson).mapM (shape levels) = .ok values
  induction values with
  | nil => rfl
  | cons value values ih =>
      rw [List.map_cons, List.mapM_cons]
      exact bind_eq_ok.mpr ⟨value, h value, bind_eq_ok.mpr ⟨values, ih, rfl⟩⟩

/-- A value with a new key goes behind the others. -/
theorem insertLast_of_notMem {κ α : Type} [DecidableEq κ] {key : κ} {value : α}
    {entries : List (κ × α)} (h : key ∉ entries.map (·.1)) :
    insertLast key value entries = entries ++ [(key, value)] := by
  induction entries with
  | nil => rfl
  | cons entry entries ih =>
      rw [List.map_cons, List.mem_cons, not_or] at h
      rw [insertLast, if_neg (Ne.symm h.1), ih h.2]
      rfl

/-- Reads one member of a map behind those before it. -/
def addMember {κ α : Type} [DecidableEq κ] (keyOf? : String → Option κ) (shape : Shape α)
    (levels : Nat) (entries : List (κ × α)) : String × Json → Except Refusal (List (κ × α))
  | (name, json) =>
    match keyOf? name with
    | none => .error (.unknownVariant name)
    | some key => (shape levels json).map fun value => insertLast key value entries

section Map

variable {κ α : Type} [DecidableEq κ] {keyOf? : String → Option κ} {name : κ → String}
  {shape : Shape α} {toJson : α → Json} {levels : Nat}

/-- Members whose keys are new and differ are read in order behind those before them. -/
theorem foldlM_addMember (hkey : ∀ key, keyOf? (name key) = some key)
    (hvalue : ∀ value, shape levels (toJson value) = .ok value) {done entries : List (κ × α)}
    (hnodup : ((done ++ entries).map (·.1)).Nodup) :
    (entries.map fun (key, value) => (name key, toJson value)).foldlM
      (addMember keyOf? shape levels) done = .ok (done ++ entries) := by
  induction entries generalizing done with
  | nil => exact congrArg Except.ok (List.append_nil done).symm
  | cons entry entries ih =>
      obtain ⟨key, value⟩ := entry
      have hnew : key ∉ done.map (·.1) := by
        rw [List.map_append] at hnodup
        intro hthere
        exact (List.nodup_append.mp hnodup).2.2 key hthere key (List.mem_cons_self ..) rfl
      have hadd : addMember keyOf? shape levels done (name key, toJson value) =
          .ok (done ++ [(key, value)]) := by
        simp only [addMember, hkey, hvalue, ← @insertLast_of_notMem κ α _ key value done hnew]
        rfl
      rw [List.append_cons] at hnodup
      rw [List.map_cons, List.foldlM_cons]
      exact bind_eq_ok.mpr ⟨_, hadd, (ih hnodup).trans (congrArg _ (List.append_cons ..).symm)⟩

/-- A map whose keys differ is read from its entries in order. -/
theorem map_of_keys (hkey : ∀ key, keyOf? (name key) = some key)
    (hvalue : ∀ value, shape levels (toJson value) = .ok value) {entries : List (κ × α)}
    (hnodup : (entries.map (·.1)).Nodup) :
    map keyOf? shape (levels + 1)
        (.object (entries.map fun (key, value) => (name key, toJson value))) = .ok entries :=
  @foldlM_addMember κ α _ keyOf? name shape toJson levels hkey hvalue [] entries hnodup

end Map

/-- A word is read from its literal. -/
theorem word_ofNat (levels : Nat) (value : UInt32) :
    word levels (Json.ofNat value.toNat) = .ok value := by
  have hlt : value.toNat < 2 ^ 32 := value.toNat_lt
  have hinteger : integer 0 (2 ^ 32 - 1) levels (Json.ofNat value.toNat) =
      .ok (value.toNat : Int) := by
    have hliteral := @Number.integer?_ofNat value.toNat (by omega)
    simp only [integer, Json.ofNat, hliteral]
    rw [if_pos (by simp; omega)]
  rw [word, hinteger]
  show Except.ok (UInt32.ofNat (value.toNat : Int).toNat) = _
  rw [Int.toNat_natCast, UInt32.ofNat_toNat]

/-- What a shape reads from a plain document it reads from the printed document. -/
theorem parse_pretty {α : Type} {shape : Shape α} {json : Json} {value : α} (hplain : IsPlain json)
    (h : shape nestingLimit json = .ok value) : parse shape json.pretty = .ok value := by
  rw [parse, parse?_pretty hplain]
  exact h

end StageArchive.Json.Shape
