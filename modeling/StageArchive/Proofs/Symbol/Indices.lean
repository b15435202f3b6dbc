import StageArchive.Proofs.Symbol.Document
import StageArchive.Proofs.Symbol.Scan
import StageArchive.Proofs.Text
/-!
# Indices do not depend on how names were met

Names are recorded by calls, in any order and as often as they are met. What the finished table says
depends only on which names were recorded in which namespace: they are in the order of their bytes,
and the index of a name is its place. Only the metadata of a class depends on the order of the calls,
since its first declaration counts.
-/

namespace StageArchive

/-- A call that records a name, or a class with its metadata. -/
inductive SymbolCall where
  | intern (space : Namespace) (name : String)
  | declare (space : Namespace) (info : ClassInfo)
  deriving DecidableEq, Repr

namespace SymbolCall

/-- What a call records: a name in a namespace. -/
def recorded : SymbolCall → Namespace × String
  | .intern space name => (space, name)
  | .declare space info => (space, info.name)

/-- What a call declares about a class. -/
def declared? (space : Namespace) (name : String) : SymbolCall → Option ClassInfo
  | .intern _ _ => none
  | .declare own info => if own = space ∧ info.name = name then some info else none

end SymbolCall

namespace SymbolRecord

/-- The record after a call. -/
def perform (record : SymbolRecord) : SymbolCall → SymbolRecord
  | .intern space name => record.addName space name
  | .declare space info => record.addClass space info

/-- The record after calls in order. -/
def afterCalls (record : SymbolRecord) (calls : List SymbolCall) : SymbolRecord :=
  calls.foldl perform record

variable {record : SymbolRecord} {calls : List SymbolCall} {space : Namespace} {name : String}

/-- A call adds the name that it records. -/
theorem mem_perform {call : SymbolCall} :
    name ∈ (record.perform call).names.get space ↔
      (space, name) = call.recorded ∨ name ∈ record.names.get space := by
  cases call with
  | intern own added => rw [perform, mem_addName, SymbolCall.recorded, Prod.mk_inj]
  | declare own info => rw [perform, mem_addClass, SymbolCall.recorded, Prod.mk_inj]

/-- Calls add the names that they record. -/
theorem mem_afterCalls :
    name ∈ (record.afterCalls calls).names.get space ↔
      (space, name) ∈ calls.map (·.recorded) ∨ name ∈ record.names.get space := by
  induction calls generalizing record with
  | nil => simp [afterCalls]
  | cons call calls ih =>
      rw [afterCalls, List.foldl_cons, ← afterCalls, ih, mem_perform, List.map_cons, List.mem_cons]
      exact or_left_comm.trans or_assoc.symm

/-- Tables have the same names when the same names were recorded. -/
theorem spaces_finish_eq_iff {first second : SymbolRecord} :
    first.finish.spaces = second.finish.spaces ↔
      ∀ space name, name ∈ first.names.get space ↔ name ∈ second.names.get space := by
  constructor
  · intro h space name
    have hnames : first.finish.names space = second.finish.names space := by
      rw [SymbolTable.names, SymbolTable.names, h]
    rw [SymbolTable.names_finish, SymbolTable.names_finish] at hnames
    rw [← List.mem_reverse, ← Symbol.mem_sortNames, hnames, Symbol.mem_sortNames, List.mem_reverse]
  · intro h
    refine NamespaceMap.ext_get fun space => ?_
    rw [finish, finish, NamespaceMap.get_map, NamespaceMap.get_map, Symbol.sortNames_eq,
      Symbol.sortNames_eq]
    refine congrArg some ((Symbol.isIncreasing_sortBy _).eq_of_mem_iff
      (Symbol.isIncreasing_sortBy _) fun name => ?_)
    rw [← Symbol.sortNames_eq, ← Symbol.sortNames_eq, Symbol.mem_sortNames, Symbol.mem_sortNames,
      List.mem_reverse, List.mem_reverse]
    exact h space name

/-- The metadata of a class is what was declared first. -/
theorem classInfo?_finish :
    record.finish.classInfo? space name =
      (record.classes.get space).reverse.find? (·.name == name) := by
  rw [SymbolTable.classInfo?, finish, NamespaceMap.get_map]
  split
  · rename_i hnone
    rw [List.isEmpty_iff.mp hnone]
    rfl
  · rw [Option.getD_some, Symbol.sortClasses_eq, Symbol.find?_sortBy]

/-- A call declares a class behind those declared before. -/
theorem find?_perform {call : SymbolCall} :
    ((record.perform call).classes.get space).reverse.find? (·.name == name) =
      ((record.classes.get space).reverse.find? (·.name == name)).or
        (call.declared? space name) := by
  cases call with
  | intern own added => exact Option.or_none.symm
  | declare own info =>
      rw [perform, addClass, NamespaceMap.get_modify, SymbolCall.declared?]
      split
      · rename_i hspace
        rw [List.reverse_cons, List.find?_append, List.find?_singleton]
        simp [hspace]
      · rename_i hspace
        rw [if_neg fun h => hspace h.1.symm, Option.or_none]

/-- Calls declare classes in order. -/
theorem find?_afterCalls :
    ((record.afterCalls calls).classes.get space).reverse.find? (·.name == name) =
      ((record.classes.get space).reverse.find? (·.name == name)).or
        (calls.findSome? (·.declared? space name)) := by
  induction calls generalizing record with
  | nil => exact Option.or_none.symm
  | cons call calls ih =>
      rw [afterCalls, List.foldl_cons, ← afterCalls, ih, find?_perform, Option.or_assoc,
        List.findSome?_cons]
      cases call.declared? space name <;> rfl

end SymbolRecord

/-- The indices of a table that was recorded or loaded are canonical, whichever way it is searched. Its
names are in the order of their bytes, and the index of a name is its place, cut to a word; as long as a
word can count the names, a name has an index exactly when it is the name at that index. Which names
were recorded decides the table up to the metadata of classes, whatever the order and number of the
calls, and the first declaration of a class decides its metadata. -/
theorem SymbolTable.indices_canonical :
    (∀ table : SymbolTable, table.IsBuilt → ∀ space,
      (table.names space).Pairwise (fun first second => Text.utf8 first < Text.utf8 second) ∧
      ∀ name index,
        (table.index? space name = some index ↔
          ∃ place, (table.names space)[place]? = some name ∧ UInt32.ofNat place = index) ∧
        (table.name? space index = some name → table.index? space name = some index) ∧
        (table.size space ≤ 2 ^ 32 → table.index? space name = some index →
          table.name? space index = some name)) ∧
    (∀ first second : List SymbolCall,
      (SymbolRecord.empty.afterCalls first).finish.spaces =
          (SymbolRecord.empty.afterCalls second).finish.spaces ↔
        ∀ pair, pair ∈ first.map (·.recorded) ↔ pair ∈ second.map (·.recorded)) ∧
    ∀ calls space name, (SymbolRecord.empty.afterCalls calls).finish.classInfo? space name =
      calls.findSome? (·.declared? space name) := by
  refine ⟨fun table htable space => ⟨?_, fun name index => ?_⟩, fun first second => ?_,
    fun calls space name => ?_⟩
  · exact (htable.isOrdered space).imp Text.utf8_lt_utf8_iff.mpr
  · have hindex := @SymbolTable.index?_eq_some_iff table space name htable.isOrdered index
    exact ⟨hindex, fun hname => hindex.mpr ⟨index.toNat, hname, UInt32.ofNat_toNat⟩,
      SymbolTable.name?_of_index? htable.isOrdered⟩
  · rw [SymbolRecord.spaces_finish_eq_iff, Prod.forall]
    simp only [SymbolRecord.mem_afterCalls, SymbolRecord.notMem_empty, or_false]
  · rw [SymbolRecord.classInfo?_finish, SymbolRecord.find?_afterCalls]
    cases space <;> rfl

/-- Calls that record ten names of instances, the last one first, and declare a class twice. -/
def tenNames : List SymbolCall :=
  ["n9", "n8", "n7", "n6", "n5", "n4", "n3", "n2", "n1", "n0"].map (.intern .instances) ++
    [.declare .actorClass ⟨"Mesh", some "mesh.h", none⟩,
      .declare .actorClass ⟨"Mesh", some "other.h", none⟩]

/-- A table with too many names to search them from the front. -/
theorem SymbolTable.indices_canonical_tenNames :
    (SymbolRecord.empty.afterCalls tenNames).finish.index? .instances "n5" = some 5 ∧
      (SymbolRecord.empty.afterCalls tenNames).finish.name? .instances 5 = some "n5" ∧
      (SymbolRecord.empty.afterCalls tenNames).finish.spaces =
        (SymbolRecord.empty.afterCalls (tenNames ++ tenNames.reverse)).finish.spaces ∧
      (SymbolRecord.empty.afterCalls tenNames).finish.classInfo? .actorClass "Mesh" =
        some ⟨"Mesh", some "mesh.h", none⟩ := by
  obtain ⟨hindices, hspaces, hclasses⟩ := SymbolTable.indices_canonical
  obtain ⟨-, hindex⟩ := hindices _ (.finish (SymbolRecord.empty.afterCalls tenNames)) .instances
  obtain ⟨-, hfound, hname⟩ := hindex "n5" 5
  have hfound := hfound (by decide +kernel)
  refine ⟨hfound, hname (by decide +kernel) hfound, (hspaces _ _).mpr fun pair => ?_, hclasses _ _ _⟩
  rw [List.map_append, List.mem_append, List.map_reverse, List.mem_reverse, or_self]

end StageArchive
