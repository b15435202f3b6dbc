import StageArchive.Proofs.Symbol.Search
import StageArchive.Symbol.Scan
/-!
# What a scan finds

`Mentions` says which names a node mentions in which namespace: its class, its own name where that
is an instance name, and the properties of its class. `mem_names_scan` says that the table of a tree
has the names that some node of the tree mentions, and no others.
-/

namespace StageArchive

/-- A node with a class mentions a name of a namespace. -/
inductive Mentions (resolver : ClassResolver) (node : Node) : Namespace → String → Prop
  | className {space : Namespace} {info : ClassInfo}
      (hspace : node.kind.classNamespace? = some space) (hinfo : resolver node = some info) :
      Mentions resolver node space info.name
  | instanceName {space : Namespace} {info : ClassInfo}
      (hspace : node.kind.classNamespace? = some space) (hinfo : resolver node = some info)
      (hnamed : node.kind.hasInstanceName = true) :
      Mentions resolver node .instances node.name
  | property {space : Namespace} {info : ClassInfo} {property : Property}
      (hspace : node.kind.classNamespace? = some space) (hinfo : resolver node = some info)
      (hkind : node.kind ≠ .media) (hproperty : property ∈ node.data.properties) :
      Mentions resolver node .property (qualifiedProperty info.name property.name)

/-- What a node with a class mentions. -/
theorem mentions_iff {resolver : ClassResolver} {node : Node} {own space : Namespace}
    {info : ClassInfo} {name : String} (hspace : node.kind.classNamespace? = some own)
    (hinfo : resolver node = some info) :
    Mentions resolver node space name ↔
      (space = own ∧ name = info.name) ∨
        (node.kind.hasInstanceName = true ∧ space = .instances ∧ name = node.name) ∨
        (node.kind ≠ .media ∧ space = .property ∧
          ∃ property ∈ node.data.properties, name = qualifiedProperty info.name property.name) := by
  constructor
  · intro h
    cases h with
    | className hown hclass =>
        cases hspace.symm.trans hown
        cases hinfo.symm.trans hclass
        exact .inl ⟨rfl, rfl⟩
    | instanceName _ _ hnamed => exact .inr (.inl ⟨hnamed, rfl, rfl⟩)
    | property _ hclass hkind hproperty =>
        cases hinfo.symm.trans hclass
        exact .inr (.inr ⟨hkind, rfl, _, hproperty, rfl⟩)
  · rintro (⟨rfl, rfl⟩ | ⟨hnamed, rfl, rfl⟩ | ⟨hkind, rfl, property, hproperty, rfl⟩)
    · exact .className hspace hinfo
    · exact .instanceName hspace hinfo hnamed
    · exact .property hspace hinfo hkind hproperty

namespace SymbolRecord

variable {record : SymbolRecord} {space : Namespace} {name : String}

/-- A name that is recorded is added to those of its namespace. -/
theorem mem_addName {own : Namespace} {added : String} :
    name ∈ (record.addName own added).names.get space ↔
      (space = own ∧ name = added) ∨ name ∈ record.names.get space := by
  rw [addName, NamespaceMap.get_modify]
  split
  · rename_i hspace
    simp [hspace]
  · rename_i hspace
    simp [hspace]

/-- A class that is recorded adds its name. -/
theorem mem_addClass {own : Namespace} {info : ClassInfo} :
    name ∈ (record.addClass own info).names.get space ↔
      (space = own ∧ name = info.name) ∨ name ∈ record.names.get space :=
  mem_addName

/-- Properties that are recorded add their names under that of the class. -/
theorem mem_addProperties {className : String} {properties : List Property} :
    name ∈ (record.addProperties className properties).names.get space ↔
      (space = .property ∧
          ∃ property ∈ properties, name = qualifiedProperty className property.name) ∨
        name ∈ record.names.get space := by
  induction properties generalizing record with
  | nil => simp [addProperties]
  | cons property properties ih =>
      have hcons : record.addProperties className (property :: properties) =
          (record.addName .property
            (qualifiedProperty className property.name)).addProperties className properties := rfl
      rw [hcons, ih, mem_addName]
      simp only [List.mem_cons, exists_eq_or_imp]
      rw [and_or_left]
      exact or_left_comm.trans or_assoc.symm

/-- A node that is recorded adds what it mentions. -/
theorem mem_addNode {resolver : ClassResolver} {node : Node} :
    name ∈ (addNode resolver record node).names.get space ↔
      Mentions resolver node space name ∨ name ∈ record.names.get space := by
  unfold addNode
  split
  · rename_i own info hspace hinfo
    rw [mentions_iff hspace hinfo, mem_addClass, or_assoc]
    refine or_congr_right ?_
    have hnamed : name ∈ (if node.kind.hasInstanceName then record.addName .instances node.name
        else record).names.get space ↔
          (node.kind.hasInstanceName = true ∧ space = .instances ∧ name = node.name) ∨
            name ∈ record.names.get space := by
      split
      · rename_i hinstance
        simp [mem_addName, hinstance]
      · rename_i hinstance
        simp [hinstance]
    -- A media node contributes no properties.
    by_cases hkind : node.kind = .media
    · have hproperties : ¬ (node.kind ≠ .media ∧ space = .property ∧ ∃ property ∈
          node.data.properties, name = qualifiedProperty info.name property.name) :=
        fun h => h.1 hkind
      rw [if_pos hkind, hnamed, or_iff_left hproperties]
    · rw [if_neg hkind, mem_addProperties, hnamed]
      simp only [hkind, ne_eq, not_false_eq_true, true_and]
      exact or_left_comm.trans or_assoc.symm
  · rename_i hnone
    constructor
    · exact .inr
    · rintro (h | h)
      · cases h with
        | className hspace hinfo | instanceName hspace hinfo | property hspace hinfo =>
            exact absurd hinfo (hnone _ _ hspace)
      · exact h

/-- Nodes that are recorded add what they mention. -/
theorem mem_foldl_addNode {resolver : ClassResolver} {nodes : List Node} :
    name ∈ (nodes.foldl (addNode resolver) record).names.get space ↔
      (∃ node ∈ nodes, Mentions resolver node space name) ∨
        name ∈ record.names.get space := by
  induction nodes generalizing record with
  | nil => simp
  | cons node nodes ih =>
      rw [List.foldl_cons, ih, mem_addNode]
      simp only [List.mem_cons, exists_eq_or_imp]
      exact or_left_comm.trans or_assoc.symm

/-- Nothing is recorded at first. -/
theorem notMem_empty : name ∉ empty.names.get space := by
  cases space <;> exact List.not_mem_nil

end SymbolRecord

namespace SymbolTable

/-- The table of a tree has the names that its nodes mention. -/
theorem mem_names_scan {resolver : ClassResolver} {root : Node} {space : Namespace}
    {name : String} :
    name ∈ (scan resolver root).names space ↔
      ∃ node ∈ root.preorder, Mentions resolver node space name := by
  rw [scan, names_finish, Symbol.mem_sortNames, List.mem_reverse, SymbolRecord.mem_foldl_addNode]
  exact or_iff_left SymbolRecord.notMem_empty

/-- Looking up a name fails only for a name that is not in the table. -/
theorem lookup_eq_error {table : SymbolTable} (h : table.IsOrdered) {space : Namespace}
    {name : String} {fault : SymbolFault} :
    table.lookup space name = .error fault ↔
      name ∉ table.names space ∧ fault = .unknown space name := by
  rw [← index?_eq_none h, lookup]
  cases table.index? space name with
  | none =>
      constructor
      · intro h
        cases h
        exact ⟨rfl, rfl⟩
      · rintro ⟨-, rfl⟩
        rfl
  | some index => exact ⟨nofun, fun h => nomatch h.1⟩

end SymbolTable

end StageArchive
