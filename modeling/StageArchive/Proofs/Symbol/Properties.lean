import StageArchive.Proofs.Symbol.Scan
/-!
# Which properties share an index

A property is recorded under the name of its class, joined to its own name by an underscore. Names may
hold underscores themselves, so a joined name can often be taken apart in more than one way.
`qualifiedProperty_eq_iff` says when two pairs of names are joined to one, and `property_indices_eq_iff`
that exactly the properties of such pairs share an index.
-/

namespace StageArchive

/-- A tree declares a property of a class: some classified node that is no medium has it. -/
inductive DeclaresProperty (resolver : ClassResolver) (root : Node) : String → String → Prop
  | mk {node : Node} {space : Namespace} {info : ClassInfo} {property : Property}
      (hnode : node ∈ root.preorder) (hspace : node.kind.classNamespace? = some space)
      (hinfo : resolver node = some info) (hkind : node.kind ≠ .media)
      (hproperty : property ∈ node.data.properties) :
      DeclaresProperty resolver root info.name property.name

/-- A property of a class overlaps a property of a class with a longer name: the longer name continues the
name of the class with an underscore and some text, and the name of the property continues that text with
an underscore and the name of the other property. -/
def Overlaps (className property other otherProperty : String) : Prop :=
  ∃ middle, other = className ++ "_" ++ middle ∧ property = middle ++ "_" ++ otherProperty

/-- Overlapping in terms of characters. -/
theorem overlaps_iff {className property other otherProperty : String} :
    Overlaps className property other otherProperty ↔ ∃ middle,
      other.toList = className.toList ++ '_' :: middle ∧
        property.toList = middle ++ '_' :: otherProperty.toList := by
  constructor
  · rintro ⟨middle, rfl, rfl⟩
    exact ⟨middle.toList, by simp, by simp⟩
  · rintro ⟨middle, hother, hproperty⟩
    exact ⟨String.ofList middle, String.toList_inj.mp (by simp [hother]),
      String.toList_inj.mp (by simp [hproperty])⟩

section Split

variable {α : Type} {item : α} {first rest second others : List α}

/-- A list that is split at an item, and split again at or behind it. -/
theorem exists_append_iff :
    (∃ front, second = first ++ front ∧ item :: rest = front ++ item :: others) ↔
      (first = second ∧ rest = others) ∨
        ∃ middle, second = first ++ item :: middle ∧ rest = middle ++ item :: others := by
  constructor
  · rintro ⟨front, rfl, hrest⟩
    obtain ⟨rfl, hsame⟩ | ⟨middle, rfl, hrest⟩ := List.cons_eq_append_iff.mp hrest
    · exact .inl ⟨(List.append_nil first).symm, (List.cons.inj hsame).2.symm⟩
    · exact .inr ⟨middle, rfl, (List.cons.inj hrest).2⟩
  · rintro (⟨rfl, rfl⟩ | ⟨middle, rfl, rfl⟩)
    · exact ⟨[], (List.append_nil first).symm, rfl⟩
    · exact ⟨item :: middle, rfl, rfl⟩

/-- Two lists that are split at an item are equal when they are split at the same place, or one of them
is split earlier. -/
theorem append_cons_eq_append_cons_iff :
    first ++ item :: rest = second ++ item :: others ↔
      (first = second ∧ rest = others) ∨
        (∃ middle, second = first ++ item :: middle ∧ rest = middle ++ item :: others) ∨
        ∃ middle, first = second ++ item :: middle ∧ others = middle ++ item :: rest := by
  rw [List.append_eq_append_iff, exists_append_iff, exists_append_iff, eq_comm (a := second),
    eq_comm (a := others), ← or_or_distrib_left]

end Split

/-- Two pairs of names are joined to one name when they are the same pair, or one overlaps the other. -/
theorem qualifiedProperty_eq_iff {className property other otherProperty : String} :
    qualifiedProperty className property = qualifiedProperty other otherProperty ↔
      (className, property) = (other, otherProperty) ∨
        Overlaps className property other otherProperty ∨
        Overlaps other otherProperty className property := by
  have hlist (className property : String) :
      (qualifiedProperty className property).toList =
        className.toList ++ '_' :: property.toList := by
    simp [qualifiedProperty]
  rw [← String.toList_inj, hlist, hlist, append_cons_eq_append_cons_iff, Prod.mk_inj,
    String.toList_inj, String.toList_inj, overlaps_iff, overlaps_iff]

namespace SymbolTable

variable {resolver : ClassResolver} {root : Node}

/-- The joined name of a property of a tree has an index. -/
theorem exists_index?_of_declaresProperty {className property : String}
    (h : DeclaresProperty resolver root className property) :
    ∃ index, (scan resolver root).index? .property (qualifiedProperty className property) =
      some index := by
  refine Option.ne_none_iff_exists'.mp fun hnone => (index?_eq_none (isOrdered_finish _)).mp hnone ?_
  cases h with
  | mk hnode hspace hinfo hkind hproperty =>
      exact mem_names_scan.mpr ⟨_, hnode, .property hspace hinfo hkind hproperty⟩

/-- Every property of a classified node that is no medium has an index, and as long as a word can count
the properties, those of two different pairs of a class and a name share one exactly when one pair overlaps
the other. -/
theorem property_indices_eq_iff {className property other otherProperty : String}
    (hproperty : DeclaresProperty resolver root className property)
    (hother : DeclaresProperty resolver root other otherProperty)
    (hsize : (scan resolver root).size .property ≤ 2 ^ 32) :
    ∃ index otherIndex,
      (scan resolver root).index? .property (qualifiedProperty className property) = some index ∧
        (scan resolver root).index? .property (qualifiedProperty other otherProperty) =
          some otherIndex ∧
        (index = otherIndex ↔ (className, property) = (other, otherProperty) ∨
          Overlaps className property other otherProperty ∨
          Overlaps other otherProperty className property) := by
  have hordered : (scan resolver root).IsOrdered := isOrdered_finish _
  obtain ⟨index, hindex⟩ := exists_index?_of_declaresProperty hproperty
  obtain ⟨otherIndex, hotherIndex⟩ := exists_index?_of_declaresProperty hother
  refine ⟨index, otherIndex, hindex, hotherIndex, ?_⟩
  rw [← qualifiedProperty_eq_iff]
  constructor
  · rintro rfl
    have hname := name?_of_index? hordered hsize hindex
    exact Option.some.inj (hname.symm.trans (name?_of_index? hordered hsize hotherIndex))
  · intro hsame
    rw [hsame] at hindex
    exact Option.some.inj (hindex.symm.trans hotherIndex)

/-- A set of a class with one property. -/
def setOf (name className property : String) : Node :=
  .mk ⟨.set, name, [("class", className)], 0, [⟨property, .int 1⟩], []⟩ []

/-- A tree of two sets, each of a class with one property. -/
def twoSets (className property other otherProperty : String) : Node :=
  .mk ⟨.root, "production", [], 0, [], []⟩
    [setOf "set" className property, setOf "other" other otherProperty]

/-- A set of a tree declares its property. -/
theorem declaresProperty_setOf {name className property : String}
    (h : setOf name className property ∈ root.preorder) :
    DeclaresProperty .attributes root className property :=
  @DeclaresProperty.mk .attributes root (setOf name className property) .setClass (.plain className)
    ⟨property, .int 1⟩ h rfl rfl nofun (List.mem_singleton_self _)

/-- A tree of two sets declares the property of each. -/
theorem declaresProperty_twoSets (className property other otherProperty : String) :
    DeclaresProperty .attributes (twoSets className property other otherProperty) className property ∧
      DeclaresProperty .attributes (twoSets className property other otherProperty) other
        otherProperty :=
  ⟨declaresProperty_setOf (List.mem_cons_of_mem _ (List.mem_cons_self ..)),
    declaresProperty_setOf (List.mem_cons_of_mem _ (List.mem_cons_of_mem _ (List.mem_cons_self ..)))⟩

/-- Underscores alone do not make properties share an index. -/
theorem property_indices_meshes :
    (scan .attributes (twoSets "Mesh" "size" "Mesh_lod" "size")).index? .property "Mesh_size" =
        some 1 ∧
      (scan .attributes (twoSets "Mesh" "size" "Mesh_lod" "size")).index? .property
        "Mesh_lod_size" = some 0 ∧
      ¬ Overlaps "Mesh" "size" "Mesh_lod" "size" := by
  obtain ⟨hmesh, hlod⟩ := declaresProperty_twoSets "Mesh" "size" "Mesh_lod" "size"
  obtain ⟨index, otherIndex, hindex, hother, hshared⟩ :=
    property_indices_eq_iff hmesh hlod (by decide +kernel)
  have hindex : some 1 = some index := Eq.trans (by decide +kernel) hindex
  have hother : some 0 = some otherIndex := Eq.trans (by decide +kernel) hother
  cases hindex
  cases hother
  exact ⟨by decide +kernel, by decide +kernel,
    fun hoverlaps => absurd (hshared.mpr (.inr (.inl hoverlaps))) (by decide)⟩

/-- Two different properties of two different classes share an index. -/
theorem property_indices_shared :
    ∃ root className property other otherProperty index,
      DeclaresProperty .attributes root className property ∧
        DeclaresProperty .attributes root other otherProperty ∧
        (className, property) ≠ (other, otherProperty) ∧
        (scan .attributes root).index? .property (qualifiedProperty className property) =
          some index ∧
        (scan .attributes root).index? .property (qualifiedProperty other otherProperty) =
          some index := by
  obtain ⟨hleft, hright⟩ := declaresProperty_twoSets "a_b" "c" "a" "b_c"
  exact ⟨twoSets "a_b" "c" "a" "b_c", "a_b", "c", "a", "b_c", 0, hleft, hright, by decide,
    by decide +kernel, by decide +kernel⟩

end SymbolTable

end StageArchive
