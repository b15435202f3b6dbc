import StageArchive.Proofs.Json.Shape
import StageArchive.Proofs.Symbol.Search
import StageArchive.Symbol.Document
import StageArchive.Symbol.Scan
/-!
# Symbol tables are read back

The text of a table describes that table with its names and classes in order. A table that was
recorded or loaded is in order already, so it is read back as it is, and a document that was edited
stays the same from the first time it is loaded.
-/

namespace StageArchive

open Json (Shape IsPlain)

/-- A class is read from its document, whatever metadata it has. -/
theorem ClassInfo.shape_toJson (levels : Nat) (info : ClassInfo) :
    ClassInfo.shape (levels + 1) info.toJson = .ok info := by
  obtain ⟨name, header, package⟩ := info
  cases header with
  | none => cases package <;> rfl
  | some header => cases package <;> rfl

/-- The document of a class is plain. -/
theorem ClassInfo.isPlain_toJson (info : ClassInfo) : IsPlain info.toJson := by
  obtain ⟨name, header, package⟩ := info
  cases header with
  | none => cases package <;> exact ⟨trivial, by trivial⟩
  | some header => cases package <;> exact ⟨trivial, by trivial⟩

/-- A namespace is found by its name. -/
theorem Namespace.ofName?_name (space : Namespace) : Namespace.ofName? space.name = some space := by
  cases space <;> rfl

namespace NamespaceMap

variable {α : Type}

/-- The values that are there, each with its namespace. -/
def present (entries : NamespaceMap (Option α)) : List (Namespace × α) :=
  Namespace.all.filterMap fun space => (entries.get space).map fun value => (space, value)

/-- The document of a map has a member for each value that is there. -/
theorem toJson_eq (encode : α → Json) (entries : NamespaceMap (Option α)) :
    entries.toJson encode =
      .object (entries.present.map fun (space, value) => (space.name, encode value)) := by
  rw [present, List.map_filterMap]
  simp only [toJson, Option.map_map, Function.comp_def]

/-- No namespace has two values. -/
theorem nodup_present (entries : NamespaceMap (Option α)) :
    (entries.present.map (·.1)).Nodup := by
  have hall : Namespace.all.Nodup := by decide
  rw [List.Nodup, List.pairwise_map, present, List.pairwise_filterMap]
  refine hall.imp ?_
  intro space other hdiffer first hfirst second hsecond
  obtain ⟨_, -, rfl⟩ := Option.map_eq_some_iff.mp hfirst
  obtain ⟨_, -, rfl⟩ := Option.map_eq_some_iff.mp hsecond
  exact hdiffer

/-- What is there says what the map is. -/
theorem ofEntries_present (entries : NamespaceMap (Option α)) :
    ofEntries entries.present = entries := by
  refine ext_get fun space => ?_
  rw [ofEntries, get_ofFn]
  cases hfound : entries.present.find? (·.1 = space) with
  | some entry =>
      have hspace : entry.1 = space := by simpa using List.find?_some hfound
      obtain ⟨other, -, hother⟩ := List.mem_filterMap.mp (List.mem_of_find?_eq_some hfound)
      obtain ⟨value, hvalue, rfl⟩ := Option.map_eq_some_iff.mp hother
      rw [← hspace, hvalue]
      rfl
  | none =>
      cases hvalue : entries.get space with
      | none => rfl
      | some value =>
          have hmem : (space, value) ∈ entries.present :=
            List.mem_filterMap.mpr ⟨space, space.mem_all, by rw [hvalue]; rfl⟩
          exact absurd (decide_eq_true rfl) (List.find?_eq_none.mp hfound _ hmem)

/-- A map is read from its document when its values are read from theirs. -/
theorem shape_toJson {value : Shape α} {encode : α → Json} {levels : Nat}
    (h : ∀ item, value levels (encode item) = .ok item) (entries : NamespaceMap (Option α)) :
    shape value (levels + 1) (entries.toJson encode) = .ok entries := by
  have hmap := Shape.map_of_keys Namespace.ofName?_name h entries.nodup_present
  rw [← toJson_eq] at hmap
  rw [shape, hmap]
  exact congrArg Except.ok entries.ofEntries_present

/-- The document of a map is plain when those of its values are. -/
theorem isPlain_toJson {encode : α → Json} (h : ∀ item, IsPlain (encode item))
    (entries : NamespaceMap (Option α)) : IsPlain (entries.toJson encode) := by
  rw [toJson_eq]
  exact Json.havePlain_map (fun entry => h entry.2) entries.present

end NamespaceMap

namespace SymbolTable

/-- A table is read from its document. -/
theorem shape_toJson (levels : Nat) (table : SymbolTable) :
    shape (levels + 4) table.toJson = .ok table := by
  obtain ⟨spaces, classes⟩ := table
  have hspaces : NamespaceMap.shape (Shape.list Shape.text) (levels + 3)
      (spaces.toJson Json.ofTexts) = .ok spaces :=
    NamespaceMap.shape_toJson (Shape.list_map fun _ => rfl) spaces
  have hclasses : NamespaceMap.shape (Shape.list ClassInfo.shape) (levels + 3)
      (classes.toJson fun classes => .array (classes.map ClassInfo.toJson)) = .ok classes :=
    NamespaceMap.shape_toJson (Shape.list_map (ClassInfo.shape_toJson levels)) classes
  refine bind_eq_ok.mpr ⟨_, Shape.record_of_keys .lenient ["namespaces", "classes"] (by decide) rfl
    (levels + 3), ?_⟩
  exact bind_eq_ok.mpr ⟨spaces, hspaces, bind_eq_ok.mpr ⟨classes, hclasses, rfl⟩⟩

/-- The document of a table is plain. -/
theorem isPlain_toJson (table : SymbolTable) : IsPlain table.toJson := by
  have hnames (names : List String) : IsPlain (Json.ofTexts names) :=
    @Json.arePlain_map String Json.text (fun _ => trivial) names
  have hclasses (classes : List ClassInfo) :
      IsPlain (.array (classes.map ClassInfo.toJson)) :=
    Json.arePlain_map ClassInfo.isPlain_toJson classes
  exact ⟨NamespaceMap.isPlain_toJson hnames table.spaces,
    NamespaceMap.isPlain_toJson hclasses table.classes, trivial⟩

/-- The text of a table describes the table in order. -/
theorem parse_print (table : SymbolTable) : parse table.print = .ok table.normalize := by
  rw [parse, print, Shape.parse_pretty table.isPlain_toJson (table.shape_toJson 123)]
  rfl

/-- Tables with the same names and classes in each namespace are equal. -/
theorem eq_of_get {first second : SymbolTable}
    (hspaces : ∀ space, first.spaces.get space = second.spaces.get space)
    (hclasses : ∀ space, first.classes.get space = second.classes.get space) : first = second := by
  cases first
  cases second
  rw [mk.injEq]
  exact ⟨NamespaceMap.ext_get hspaces, NamespaceMap.ext_get hclasses⟩

/-- A table of what was recorded is in order. -/
theorem normalize_finish (record : SymbolRecord) : record.finish.normalize = record.finish := by
  refine eq_of_get (fun space => ?_) fun space => ?_
  · simp only [normalize, SymbolRecord.finish, NamespaceMap.get_map, Option.map_some,
      Symbol.sortNames_sortNames]
  · simp only [normalize, SymbolRecord.finish, NamespaceMap.get_map]
    split
    · rfl
    · rw [Option.map_some, Symbol.sortClasses_sortClasses]

/-- Putting a table in order once more changes nothing. -/
theorem normalize_normalize (table : SymbolTable) : table.normalize.normalize = table.normalize := by
  refine eq_of_get (fun space => ?_) fun space => ?_
  · simp only [normalize, NamespaceMap.get_map, Option.map_map, Function.comp_def,
      Symbol.sortNames_sortNames]
  · simp only [normalize, NamespaceMap.get_map, Option.map_map, Function.comp_def,
      Symbol.sortClasses_sortClasses]

/-- A table was recorded, or loaded from a text. -/
inductive IsBuilt : SymbolTable → Prop
  | finish (record : SymbolRecord) : IsBuilt record.finish
  | parse {text : String} {table : SymbolTable} (h : SymbolTable.parse text = .ok table) :
      IsBuilt table

/-- A table that was recorded or loaded is in order. -/
theorem IsBuilt.normalize_eq {table : SymbolTable} (h : table.IsBuilt) : table.normalize = table := by
  cases h with
  | finish record => exact normalize_finish record
  | parse h =>
      obtain ⟨loaded, -, rfl⟩ := map_eq_ok.mp h
      exact loaded.normalize_normalize

/-- So are its names. -/
theorem IsBuilt.isOrdered {table : SymbolTable} (h : table.IsBuilt) : table.IsOrdered :=
  h.normalize_eq ▸ table.isOrdered_normalize

/-- The text of a table that was scanned describes the table. -/
theorem parse_print_scan (resolver : ClassResolver) (root : Node) :
    parse (scan resolver root).print = .ok (scan resolver root) := by
  rw [parse_print, scan, normalize_finish]

/-- The text of a table that was recorded or loaded is loaded as that table, whatever characters its
names and metadata have. So what any text is loaded as stays the same when its own text is loaded: names,
classes, indices and the text once more. -/
theorem parse_print_stable :
    (∀ table : SymbolTable, table.IsBuilt → parse table.print = .ok table) ∧
    ∀ text table, parse text = .ok table → ∃ again, parse table.print = .ok again ∧ again = table ∧
      again.print = table.print ∧ ∀ space,
        (∀ name, again.index? space name = table.index? space name) ∧
        ∀ index, again.name? space index = table.name? space index := by
  have hbuilt {table : SymbolTable} (h : table.IsBuilt) : parse table.print = .ok table := by
    rw [parse_print, h.normalize_eq]
  refine ⟨fun table => hbuilt, fun text table h => ?_⟩
  exact ⟨table, hbuilt (.parse h), rfl, rfl, fun space => ⟨fun name => rfl, fun index => rfl⟩⟩

/-- A document that was edited: names out of order, one of them twice. -/
def edited : SymbolTable where
  spaces := (NamespaceMap.const none).modify .instances fun _ => some ["b", "\"a\n\u00e9\"", "b"]
  classes := (NamespaceMap.const none).modify .actorClass fun _ =>
    some [⟨"Mesh", some "mesh.h", none⟩, ⟨"Mesh", none, none⟩]

/-- The edited document is loaded in order, and stays so. -/
theorem parse_print_stable_edited :
    ∃ table, parse edited.print = .ok table ∧ parse table.print = .ok table ∧
      table.names .instances = ["\"a\n\u00e9\"", "b"] := by
  have hedited : parse edited.print = .ok edited.normalize := parse_print edited
  obtain ⟨again, hagain, rfl, -⟩ := parse_print_stable.2 _ _ hedited
  exact ⟨edited.normalize, hedited, hagain, by decide +kernel⟩

end SymbolTable

end StageArchive
