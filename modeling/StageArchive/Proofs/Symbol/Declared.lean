import StageArchive.Emit.Entity
import StageArchive.Proofs.Symbol.Indices
import StageArchive.Proofs.Tree.Stack
/-!
# What a table has is what the tree declares

A node is of a class when nodes of its kind have classes and its attributes name one. `scan_declared`
says, for the classes that attributes declare, which names the table of a tree has in each namespace, in
which order, and whose metadata a class has. A walk with a stack over anything that shows the tree
records the same table.
-/

namespace StageArchive

/-- A node is of a class: nodes of its kind have classes, and the node's attributes name this one. -/
def Node.IsOfClass (node : Node) (className : String) : Prop :=
  node.kind.classNamespace?.isSome ∧ node.data.attribute? "class" = some className

/-- A node is classified: it is of some class. -/
def Node.IsClassified (node : Node) : Prop :=
  ∃ className, node.IsOfClass className

/-- A node declares a class in a namespace: its attributes name the class, and the classes of its kind are
in the namespace. -/
def Node.DeclaresClass (node : Node) (space : Namespace) (className : String) : Prop :=
  node.kind.classNamespace? = some space ∧ node.data.attribute? "class" = some className

instance (node : Node) (space : Namespace) (className : String) :
    Decidable (node.DeclaresClass space className) :=
  inferInstanceAs (Decidable (_ ∧ _))

/-- The class that a node is of, with the metadata that its attributes give. -/
def Node.classOfName (node : Node) (className : String) : ClassInfo :=
  ⟨className, node.data.attribute? "header", node.data.attribute? "package"⟩

/-- The class that attributes declare, with its metadata. -/
theorem ClassResolver.attributes_eq_some {node : Node} {info : ClassInfo} :
    ClassResolver.attributes node = some info ↔
      ∃ className, node.data.attribute? "class" = some className ∧
        node.classOfName className = info :=
  Option.map_eq_some_iff

/-- A node is of a class exactly when its kind has a namespace and its attributes declare the class. -/
theorem Node.isOfClass_iff {node : Node} {className : String} :
    node.IsOfClass className ↔ ∃ space info, node.kind.classNamespace? = some space ∧
      ClassResolver.attributes node = some info ∧ info.name = className := by
  constructor
  · rintro ⟨hkind, hclass⟩
    obtain ⟨space, hspace⟩ := Option.isSome_iff_exists.mp hkind
    exact ⟨space, _, hspace, ClassResolver.attributes_eq_some.mpr ⟨className, hclass, rfl⟩, rfl⟩
  · rintro ⟨space, info, hspace, hinfo, rfl⟩
    obtain ⟨className, hclass, rfl⟩ := ClassResolver.attributes_eq_some.mp hinfo
    exact ⟨Option.isSome_of_eq_some hspace, hclass⟩

/-- A node mentions a name when it is of a class and the name is that of the class, its own or that of a
property. -/
theorem mentions_attributes_iff {node : Node} {space : Namespace} {name : String} :
    Mentions .attributes node space name ↔ ∃ className, node.IsOfClass className ∧
      ((node.kind.classNamespace? = some space ∧ name = className) ∨
        (node.kind.hasInstanceName ∧ space = .instances ∧ name = node.name) ∨
        (node.kind ≠ .media ∧ space = .property ∧ ∃ property ∈ node.data.properties,
          name = qualifiedProperty className property.name)) := by
  constructor
  · intro h
    cases h with
    | className hspace hinfo =>
        exact ⟨_, Node.isOfClass_iff.mpr ⟨_, _, hspace, hinfo, rfl⟩, .inl ⟨hspace, rfl⟩⟩
    | instanceName hspace hinfo hnamed =>
        exact ⟨_, Node.isOfClass_iff.mpr ⟨_, _, hspace, hinfo, rfl⟩, .inr (.inl ⟨hnamed, rfl, rfl⟩)⟩
    | property hspace hinfo hkind hproperty =>
        exact ⟨_, Node.isOfClass_iff.mpr ⟨_, _, hspace, hinfo, rfl⟩,
          .inr (.inr ⟨hkind, rfl, _, hproperty, rfl⟩)⟩
  · rintro ⟨className, hclass, hname⟩
    obtain ⟨own, info, hspace, hinfo, rfl⟩ := Node.isOfClass_iff.mp hclass
    rw [mentions_iff hspace hinfo]
    refine hname.imp_left fun ⟨hown, hsame⟩ => ⟨?_, hsame⟩
    exact Option.some_inj.mp (hown.symm.trans hspace)

/-- The classes that nodes declare are in the namespace of their kind. -/
theorem mentions_class_iff {kind : NodeKind} {space : Namespace}
    (h : kind.classNamespace? = some space) {node : Node} {name : String} :
    Mentions .attributes node space name ↔ node.kind = kind ∧ node.IsOfClass name := by
  have hkind : node.kind.classNamespace? = some space ↔ node.kind = kind := by
    revert h
    cases kind <;> cases node.kind <;> simp [NodeKind.classNamespace?] <;> rintro rfl <;> simp
  have hspaces : space ≠ .instances ∧ space ≠ .property := by
    revert h
    cases kind <;> simp [NodeKind.classNamespace?] <;> rintro rfl <;> simp
  rw [mentions_attributes_iff]
  simp only [hkind, hspaces.1, hspaces.2, false_and, and_false, or_false]
  constructor
  · rintro ⟨_, hclass, hsame, rfl⟩
    exact ⟨hsame, hclass⟩
  · rintro ⟨hsame, hclass⟩
    exact ⟨name, hclass, hsame, rfl⟩

/-- The names of classified groups, actors, roles and sets are the instance names. -/
theorem mentions_instances_iff {node : Node} {name : String} :
    Mentions .attributes node .instances name ↔
      node.kind ∈ [.group, .actor, .role, .set] ∧ node.IsClassified ∧ node.name = name := by
  have hnamed : node.kind.hasInstanceName ↔ node.kind ∈ [.group, .actor, .role, .set] := by
    cases node.kind <;> decide
  have hkind : node.kind.classNamespace? ≠ some .instances := by
    cases node.kind <;> nofun
  rw [mentions_attributes_iff]
  simp only [hkind, hnamed, false_and, and_false, false_or, or_false, true_and, reduceCtorEq]
  constructor
  · rintro ⟨className, hclass, hthere, rfl⟩
    exact ⟨hthere, ⟨className, hclass⟩, rfl⟩
  · rintro ⟨hthere, ⟨className, hclass⟩, rfl⟩
    exact ⟨className, hclass, hthere, rfl⟩

/-- The properties of classified nodes but media are recorded under the names of the classes. -/
theorem mentions_property_iff {node : Node} {name : String} :
    Mentions .attributes node .property name ↔
      node.kind ≠ .media ∧ ∃ className, node.IsOfClass className ∧
        ∃ property ∈ node.data.properties, name = className ++ "_" ++ property.name := by
  have hkind : node.kind.classNamespace? ≠ some .property := by
    cases node.kind <;> nofun
  rw [mentions_attributes_iff]
  simp only [hkind, false_and, and_false, false_or, true_and, reduceCtorEq]
  constructor
  · rintro ⟨className, hclass, hmedia, hproperty⟩
    exact ⟨hmedia, className, hclass, hproperty⟩
  · rintro ⟨hmedia, className, hclass, hproperty⟩
    exact ⟨className, hclass, hmedia, hproperty⟩

namespace SymbolCall

/-- The calls that record the names that a node of a class mentions beside the class. -/
def mentions (className : String) (node : Node) : List SymbolCall :=
  (if node.kind.hasInstanceName then [.intern .instances node.name] else []) ++
    (if node.kind = .media then []
      else node.data.properties.map fun property =>
        .intern .property (qualifiedProperty className property.name))

/-- The calls that record what a node mentions and declares. -/
def ofNode (resolver : ClassResolver) (node : Node) : List SymbolCall :=
  match node.kind.classNamespace?, resolver node with
  | some space, some info => mentions info.name node ++ [.declare space info]
  | _, _ => []

/-- Properties are recorded by a call each. -/
theorem addProperties_eq (record : SymbolRecord) (className : String) (properties : List Property) :
    record.addProperties className properties =
      record.afterCalls (properties.map fun property =>
        .intern .property (qualifiedProperty className property.name)) := by
  rw [SymbolRecord.afterCalls, List.foldl_map]
  rfl

/-- A node is recorded by its calls. -/
theorem addNode_eq (resolver : ClassResolver) (record : SymbolRecord) (node : Node) :
    SymbolRecord.addNode resolver record node = record.afterCalls (ofNode resolver node) := by
  unfold SymbolRecord.addNode ofNode
  cases node.kind.classNamespace? with
  | none => rfl
  | some space =>
      cases resolver node with
      | none => rfl
      | some info =>
          dsimp only
          rw [addProperties_eq, mentions]
          simp only [SymbolRecord.afterCalls, List.foldl_append]
          split <;> split <;> rfl

/-- Nodes are recorded by their calls, one node after another. -/
theorem foldl_addNode_eq (resolver : ClassResolver) (record : SymbolRecord) (nodes : List Node) :
    nodes.foldl (SymbolRecord.addNode resolver) record =
      record.afterCalls (nodes.flatMap (ofNode resolver)) := by
  rw [SymbolRecord.afterCalls, List.foldl_flatMap]
  exact congrArg (fun step => nodes.foldl step record)
    (funext fun record => funext fun node => addNode_eq resolver record node)

/-- Names that are mentioned declare no class. -/
theorem findSome?_mentions (mentioned : String) (node : Node) (space : Namespace)
    (className : String) :
    (mentions mentioned node).findSome? (·.declared? space className) = none := by
  rw [List.findSome?_eq_none_iff]
  intro call hcall
  rcases List.mem_append.mp hcall with hnamed | hproperty
  · split at hnamed
    · rw [List.mem_singleton.mp hnamed]
      rfl
    · cases hnamed
  · split at hproperty
    · cases hproperty
    · obtain ⟨property, -, rfl⟩ := List.mem_map.mp hproperty
      rfl

/-- What a node declares about a class of a namespace. -/
theorem findSome?_ofNode (node : Node) (space : Namespace) (className : String) :
    (ofNode .attributes node).findSome? (·.declared? space className) =
      if node.DeclaresClass space className then some (node.classOfName className) else none := by
  unfold ofNode
  split
  · rename_i own info hown hinfo
    obtain ⟨name, hname, rfl⟩ := ClassResolver.attributes_eq_some.mp hinfo
    rw [List.findSome?_append, findSome?_mentions, Option.none_or, List.findSome?_singleton,
      declared?]
    have hdeclares : node.DeclaresClass space className ↔
        own = space ∧ (node.classOfName name).name = className := by
      rw [Node.DeclaresClass, hown, hname, Option.some_inj, Option.some_inj]
      rfl
    by_cases h : own = space ∧ (node.classOfName name).name = className
    · rw [if_pos h, if_pos (hdeclares.mpr h), ← h.2]
      rfl
    · rw [if_neg h, if_neg (fun hthere => h (hdeclares.mp hthere))]
  · rename_i hnone
    rw [if_neg]
    · rfl
    · rintro ⟨hown, hclass⟩
      exact hnone _ _ hown (ClassResolver.attributes_eq_some.mpr ⟨className, hclass, rfl⟩)

/-- The first node that declares a class of a namespace is the one whose declaration counts. -/
theorem findSome?_flatMap_ofNode (nodes : List Node) (space : Namespace) (className : String) :
    (nodes.flatMap (ofNode .attributes)).findSome? (·.declared? space className) =
      (nodes.find? (·.DeclaresClass space className)).map (·.classOfName className) := by
  induction nodes with
  | nil => rfl
  | cons node nodes ih =>
      rw [List.flatMap_cons, List.findSome?_append, findSome?_ofNode, ih, List.find?_cons]
      by_cases hdeclares : node.DeclaresClass space className
      · rw [if_pos hdeclares, decide_eq_true hdeclares]
        rfl
      · rw [if_neg hdeclares, decide_eq_false hdeclares]
        rfl

end SymbolCall

/-- Records what a node with this data mentions. -/
def SymbolRecord.addData (record : SymbolRecord) (data : NodeData) : SymbolRecord :=
  record.addNode .attributes (.mk data [])

/-- A node mentions what its data says, whatever its children are. -/
theorem SymbolRecord.addData_eq (record : SymbolRecord) (node : Node) :
    record.addData node.data = record.addNode .attributes node := by
  obtain ⟨data, children⟩ := node
  rfl

namespace TreeView

variable {ι : Type}

/-- A walk with a stack starts at the root, records what each node mentions and ends with a table. No
visit fails. -/
def Scans (view : TreeView ι) (table : SymbolTable) : Prop :=
  ∃ record : SymbolRecord, record.finish = table ∧
    view.Loop (ε := Empty) (fun record handle => .ok (record.addData (view.data handle)))
      .empty [view.root] (.ok record)

/-- A walk with a stack ends with the table of the tree. -/
theorem scans_iff {view : TreeView ι} {root : Node} {handles : List ι}
    (h : view.Shows view.root root handles) {table : SymbolTable} :
    view.Scans table ↔ table = .scan .attributes root := by
  let visit (record : SymbolRecord) (data : NodeData) : Except Empty SymbolRecord :=
    .ok (record.addData data)
  have hloop (record : SymbolRecord) :
      view.Loop (fun record handle => visit record (view.data handle)) .empty [view.root]
        (.ok record) ↔ _ :=
    TreeView.loop_data_iff visit h
  have hvisits : root.preorder.foldlM (fun record node => visit record node.data) .empty =
        .ok (root.preorder.foldl (SymbolRecord.addNode .attributes) .empty) := by
    simp only [visit, SymbolRecord.addData_eq]
    exact List.foldlM_pure ..
  constructor
  · rintro ⟨record, rfl, hwalk⟩
    cases hvisits.symm.trans ((hloop record).mp hwalk)
    rfl
  · rintro rfl
    exact ⟨_, rfl, (hloop _).mpr hvisits⟩

end TreeView

/-- A namespace that holds neither properties nor instances holds the classes of a kind. -/
theorem Namespace.exists_kind {space : Namespace} (hproperty : space ≠ .property)
    (hinstances : space ≠ .instances) : ∃ kind : NodeKind, kind.classNamespace? = some space := by
  cases space with
  | actorClass => exact ⟨.actor, rfl⟩
  | roleClass => exact ⟨.role, rfl⟩
  | groupClass => exact ⟨.group, rfl⟩
  | sceneClass => exact ⟨.scene, rfl⟩
  | setClass => exact ⟨.set, rfl⟩
  | mediaClass => exact ⟨.media, rfl⟩
  | property => exact absurd rfl hproperty
  | instances => exact absurd rfl hinstances

namespace SymbolTable

/-- The metadata of a class is what the first node that declares it says. -/
theorem classInfo?_scan (root : Node) (space : Namespace) (className : String) :
    (scan .attributes root).classInfo? space className =
      (root.preorder.find? (·.DeclaresClass space className)).map (·.classOfName className) := by
  rw [scan, SymbolCall.foldl_addNode_eq, SymbolRecord.classInfo?_finish,
    SymbolRecord.find?_afterCalls, SymbolCall.findSome?_flatMap_ofNode]
  cases space <;> rfl

/-- The table of a tree whose nodes name their classes in attributes has exactly what the tree declares.
The names of every namespace are in the order of their bytes, each once. Beside the properties and the
instances, every namespace belongs to a kind, and its names are the classes of the nodes of that kind.
The instances are the names of the classified groups, actors, roles and sets, and the properties are
those of the classified nodes but media, each behind the class of its node. The metadata of a class is
that of the first node that declares it. A walk with a stack over what shows the tree ends with this
table and with no other. -/
theorem scan_declared (root : Node) :
    (∀ space, ((scan .attributes root).names space).Pairwise
      fun first second => Text.utf8 first < Text.utf8 second) ∧
    (∀ space, space ≠ .property → space ≠ .instances →
      ∃ kind : NodeKind, kind.classNamespace? = some space ∧
        ∀ name, name ∈ (scan .attributes root).names space ↔
          ∃ node ∈ root.preorder, node.kind = kind ∧ node.IsOfClass name) ∧
    (∀ name, name ∈ (scan .attributes root).names .instances ↔
      ∃ node ∈ root.preorder, node.kind ∈ [.group, .actor, .role, .set] ∧ node.IsClassified ∧
        node.name = name) ∧
    (∀ name, name ∈ (scan .attributes root).names .property ↔
      ∃ node ∈ root.preorder, node.kind ≠ .media ∧ ∃ className, node.IsOfClass className ∧
        ∃ property ∈ node.data.properties, name = className ++ "_" ++ property.name) ∧
    (∀ space className, (scan .attributes root).classInfo? space className =
      (root.preorder.find? (·.DeclaresClass space className)).map (·.classOfName className)) ∧
    ∀ {ι : Type} (view : TreeView ι) (handles : List ι), view.Shows view.root root handles →
      ∀ table, view.Scans table ↔ table = scan .attributes root := by
  refine ⟨fun space => ?_, fun space hproperty hinstances => ?_, fun name => ?_, fun name => ?_,
    classInfo?_scan root, fun view handles hshows table => TreeView.scans_iff hshows⟩
  · exact (isOrdered_finish _ space).imp Text.utf8_lt_utf8_iff.mpr
  · obtain ⟨kind, hkind⟩ := Namespace.exists_kind hproperty hinstances
    refine ⟨kind, hkind, fun name => ?_⟩
    simp only [mem_names_scan, mentions_class_iff hkind]
  · simp only [mem_names_scan, mentions_instances_iff]
  · simp only [mem_names_scan, mentions_property_iff]

/-- A group whose actor has no class but two roles of one, and a medium. -/
def castle : Node :=
  let doze (name header : String) : Node :=
    .mk ⟨.role, name, [("class", "Sleep"), ("header", header)], 0, [⟨"depth", .int 3⟩], []⟩ []
  let guard : Node := .mk ⟨.actor, "guard", [("set", "hall")], 0, [⟨"rank", .int 1⟩], []⟩
    [doze "nap" "first.h", doze "dream" "second.h"]
  .mk ⟨.root, "castle", [], 0, [], []⟩
    [.mk ⟨.group, "keep", [("class", "Watch")], 0, [], []⟩ [guard],
      .mk ⟨.media, "song", [("class", "Music")], 0, [⟨"pitch", .int 2⟩], []⟩ []]

/-- The actor is left out and its roles are not, and the first of them says what their class is. -/
theorem scan_declared_castle :
    (∃ kind : NodeKind, kind.classNamespace? = some .roleClass ∧
      ("Sleep" ∈ (scan .attributes castle).names .roleClass ↔
        ∃ node ∈ castle.preorder, node.kind = kind ∧ node.IsOfClass "Sleep")) ∧
      castle.view.Scans (scan .attributes castle) ∧
      (scan .attributes castle).names .instances = ["dream", "keep", "nap"] ∧
      (scan .attributes castle).names .property = ["Sleep_depth"] ∧
      (scan .attributes castle).classInfo? .roleClass "Sleep" =
        some ⟨"Sleep", some "first.h", none⟩ := by
  obtain ⟨-, hclasses, -, -, hinfo, hscans⟩ := scan_declared castle
  obtain ⟨kind, hkind, hnames⟩ := hclasses .roleClass (by decide) (by decide)
  refine ⟨⟨kind, hkind, hnames "Sleep"⟩,
    (hscans castle.view _ (TreeView.shows_view castle castle) _).mpr rfl, ?_, ?_, ?_⟩
  · decide +kernel
  · decide +kernel
  · rw [hinfo]
    decide +kernel

end SymbolTable

end StageArchive
