import Recompose.Proofs.Scope.Descendants
import Recompose.Proofs.Snapshot.Merge
import Recompose.Proofs.Snapshot.Order

/-!
Tables of a snapshot: where the trees of each method are, and where the scopes of each group are.
They are filled in tree by tree, and in a tree scope by scope from the root down. Main result: they
leave nothing out, list nothing twice and are in order, so that looking something up in them and
searching all trees for it come to the same.
-/

namespace Recompose

instance : Std.TransOrd MethodId :=
  inferInstanceAs (Std.TransCmp (compareLex (compareOn MethodId.className)
    (compareLex (compareOn MethodId.name) (compareOn MethodId.descriptor))))

instance : Std.LawfulEqOrd MethodId where
  eq_of_compare {a b} same := by
    obtain ⟨c, n, d⟩ := a
    obtain ⟨c', n', d'⟩ := b
    obtain ⟨classes, rest⟩ := Ordering.then_eq_eq.mp same
    obtain ⟨names, descriptors⟩ := Ordering.then_eq_eq.mp rest
    obtain rfl : c = c' := Std.LawfulEqOrd.eq_of_compare classes
    obtain rfl : n = n' := Std.LawfulEqOrd.eq_of_compare names
    obtain rfl : d = d' := Std.LawfulEqOrd.eq_of_compare descriptors
    rfl

/-- Lists of items under keys. -/
structure Table (α β : Type) [Ord α] [Std.TransOrd α] where
  entries : Std.TreeMap α (List β) := {}
  /-- No key is entered without an item. -/
  listed : ∀ key : α, entries[key]? ≠ some [] := by simp

namespace Table

section Fill

variable {α β : Type} [Ord α] [Std.TransOrd α]

def items (table : Table α β) (key : α) : List β :=
  table.entries.getD key []

/-- The keys with an item, ascending. -/
def keys (table : Table α β) : List α :=
  table.entries.keys

/-- Puts an item behind those of its key. -/
def push (table : Table α β) (key : α) (item : β) : Table α β where
  entries := table.entries.alter key fun items => some (items.getD [] ++ [item])
  listed k := by
    rw [Std.TreeMap.getElem?_alter]
    split
    · simp
    · exact table.listed k

/-- Puts items under their keys, one after another; those without a key are left out. -/
def fill (table : Table α β) (key? : β → Option α) (items : List β) : Table α β :=
  items.foldl (fun table item =>
    match key? item with
    | some key => table.push key item
    | none => table) table

theorem keys_pairwise (table : Table α β) : table.keys.Pairwise (compare · · = .lt) :=
  Std.TreeMap.ordered_keys

end Fill

section Items

variable {α β : Type} [Ord α] [Std.TransOrd α] [Std.LawfulEqOrd α] {table : Table α β} {key : α}

theorem mem_keys : key ∈ table.keys ↔ table.items key ≠ [] := by
  rw [keys, items, Std.TreeMap.mem_keys, Std.TreeMap.getD_eq_getD_getElem?,
    Std.TreeMap.mem_iff_isSome_getElem?]
  have listed := table.listed key
  cases found : table.entries[key]? with
  | none => simp
  | some items =>
    rw [found] at listed
    simpa using listed

variable [DecidableEq α]

theorem items_push (table : Table α β) (key k : α) (item : β) :
    (table.push key item).items k = table.items k ++ if key = k then [item] else [] := by
  simp only [push, items, Std.TreeMap.getD_alter, Std.LawfulEqOrd.compare_eq_iff_eq]
  by_cases same : key = k
  · simp [same, Std.TreeMap.getD_eq_getD_getElem?]
  · simp [same]

/-- A key has its items in the order in which they came. -/
theorem items_fill (table : Table α β) (key? : β → Option α) (items : List β) (k : α) :
    (table.fill key? items).items k = table.items k ++ items.filter (key? · == some k) := by
  induction items generalizing table with
  | nil => simp [fill]
  | cons item items ih =>
    rw [fill, List.foldl_cons]
    show (fill _ key? items).items k = _
    rw [ih]
    cases own : key? item with
    | none => simp [own]
    | some key => by_cases same : key = k <;> simp [items_push, own, same]

end Items

end Table

/-- Where the trees of each method and the scopes of each group are. -/
structure Tables where
  methods : Table MethodId Nat := {}
  groups : Table GroupKey ScopeRef := {}

namespace ScopeTree

/-- The places of the scopes of a tree, from the root down, if the tree is the one of number
`index`. -/
def places (t : ScopeTree) (index : Nat) : List ScopeRef :=
  (t.descendants 0).map (ScopeRef.mk index)

theorem mem_places {t : ScopeTree} {index : Nat} {ref : ScopeRef} :
    ref ∈ t.places index ↔ ref.tree = index ∧ ref.scope < t.size := by
  rw [places, descendants_root, List.mem_map]
  constructor
  · rintro ⟨n, mem, rfl⟩
    exact ⟨rfl, List.mem_range.mp mem⟩
  · rintro ⟨rfl, inside⟩
    exact ⟨ref.scope, List.mem_range.mpr inside, rfl⟩

/-- The group of the scope of a number, if there is such a scope and it has a key. -/
def groupOf? (t : ScopeTree) (number : Nat) : Option GroupKey :=
  (t.scope? number).bind (·.group)

end ScopeTree

namespace Tables

/-- Enters the tree of number `index`. -/
def enter (tables : Tables) (t : ScopeTree) (index : Nat) : Tables where
  methods := tables.methods.push t.method index
  groups := tables.groups.fill (fun ref => t.groupOf? ref.scope) (t.places index)

theorem methods_foldl_enter (trees : List (ScopeTree × Nat)) (tables : Tables) (m : MethodId) :
    (trees.foldl (fun tables (t, i) => tables.enter t i) tables).methods.items m =
      tables.methods.items m ++ (trees.filter (·.1.method == m)).map (·.2) := by
  induction trees generalizing tables with
  | nil => simp
  | cons p trees ih =>
    obtain ⟨t, i⟩ := p
    rw [List.foldl_cons, ih]
    show (tables.methods.push t.method i).items m ++ _ = _
    rw [Table.items_push]
    by_cases own : t.method = m <;> simp [own]

theorem groups_foldl_enter (trees : List (ScopeTree × Nat)) (tables : Tables) (key : GroupKey) :
    (trees.foldl (fun tables (t, i) => tables.enter t i) tables).groups.items key =
      tables.groups.items key ++ trees.flatMap fun (t, i) =>
        (t.places i).filter fun ref => t.groupOf? ref.scope == some key := by
  induction trees generalizing tables with
  | nil => simp
  | cons p trees ih =>
    obtain ⟨t, i⟩ := p
    rw [List.foldl_cons, ih]
    show (tables.groups.fill _ (t.places i)).items key ++ _ = _
    rw [Table.items_fill, List.flatMap_cons, List.append_assoc]

end Tables

namespace Snapshot

/-- The tables with all trees entered. -/
def tables (s : Snapshot) : Tables :=
  s.trees.zipIdx.foldl (fun tables (t, i) => tables.enter t i) {}

/-! ## Looking up and searching -/

/-- The places in a tree are those that its scopes are listed with. -/
theorem places_eq (t : ScopeTree) (i : Nat) :
    t.places i =
      (t.placed.zipIdx.map fun (scope, n) => ((⟨i, n⟩ : ScopeRef), scope)).map (·.1) := by
  have numbers : t.descendants 0 = t.placed.zipIdx.map (·.2) := by
    rw [List.zipIdx_map_snd, ScopeTree.length_placed, ScopeTree.descendants_root,
      List.range_eq_range']
  rw [ScopeTree.places, numbers, List.map_map, List.map_map]
  rfl

/-- The table of groups has the scopes of a group, as they are found in all trees. -/
theorem items_groups (s : Snapshot) (key : GroupKey) : s.tables.groups.items key = s.group key := by
  rw [tables, Tables.groups_foldl_enter, group, tagged, placed, List.filter_flatMap,
    List.map_flatMap]
  show List.flatMap _ _ = _
  refine List.flatMap_congr ?_
  rintro ⟨t, i⟩ -
  dsimp only
  rw [places_eq, List.filter_map]
  congr 1
  refine List.filter_congr ?_
  rintro ⟨ref, scope⟩ mem
  obtain ⟨⟨p, n⟩, mem, ⟨⟩⟩ := List.mem_map.mp mem
  have here : t.scope? n = some scope := List.mem_zipIdx_iff_getElem?.mp mem
  simp [ScopeTree.groupOf?, here]

/-- The table of methods has the places of the trees of a method. -/
theorem items_methods (s : Snapshot) (m : MethodId) :
    s.tables.methods.items m = (s.trees.zipIdx.filter (·.1.method == m)).map (·.2) := by
  rw [tables, Tables.methods_foldl_enter]
  rfl

/-- At these places are the trees of the method, in order. -/
theorem trees_items_methods (s : Snapshot) (m : MethodId) :
    (s.tables.methods.items m).map (s.trees[·]?) = (s.treesOf m).map some := by
  have known : ∀ p ∈ s.trees.zipIdx.filter (·.1.method == m), s.trees[p.2]? = some p.1 :=
    fun p mem => List.mem_zipIdx_iff_getElem?.mp (List.mem_of_mem_filter mem)
  have own : s.treesOf m = (s.trees.zipIdx.filter (·.1.method == m)).map (·.1) := by
    conv_lhs => rw [treesOf, ← List.zipIdx_map_fst 0 s.trees, List.filter_map]
    rfl
  rw [items_methods, own, List.map_map, List.map_map]
  exact List.map_congr_left known

theorem mem_items_methods {s : Snapshot} {m : MethodId} {i : Nat} :
    i ∈ s.tables.methods.items m ↔ ∃ t, s.trees[i]? = some t ∧ t.method = m := by
  simp [items_methods, List.mem_zipIdx_iff_getElem?]

theorem items_methods_pairwise (s : Snapshot) (m : MethodId) :
    (s.tables.methods.items m).Pairwise (· < ·) := by
  rw [items_methods]
  exact (indices_pairwise s.trees).sublist (List.filter_sublist.map _)

/-- A method is known if it is entered. -/
theorem hasMethod_iff_mem_keys {s : Snapshot} {m : MethodId} :
    s.hasMethod m = true ↔ m ∈ s.tables.methods.keys := by
  rw [Table.mem_keys, ← Bool.not_eq_false, hasMethod_eq_false_iff, not_iff_not]
  rw [← List.map_eq_nil_iff (f := some), ← trees_items_methods, List.map_eq_nil_iff]

theorem mem_group {s : Snapshot} {key : GroupKey} {ref : ScopeRef} :
    ref ∈ s.group key ↔ ∃ scope, s.scope? ref = some scope ∧ scope.group = some key := by
  simp [group, mem_tagged]

/-- The places of a group are in order. -/
theorem group_pairwise (s : Snapshot) (key : GroupKey) : (s.group key).Pairwise ScopeRef.Before :=
  s.ascending_places.sublist (List.filter_sublist.map _)

theorem hasGroup_iff_group_ne_nil {s : Snapshot} {key : GroupKey} :
    s.hasGroup key = true ↔ s.group key ≠ [] := by
  rw [hasGroup_iff, Ne, List.eq_nil_iff_forall_not_mem]
  simp [mem_group]

/-- The groups that are entered are those that a scope carries. -/
theorem keys_groups (s : Snapshot) : s.tables.groups.keys = s.groupKeys := by
  refine Ascending.eq_of_mem_iff (Table.keys_pairwise _) (Ascending.pairwise_ofList _) fun key => ?_
  show _ ↔ key ∈ s.groupKeys
  rw [Table.mem_keys, items_groups, mem_groupKeys, hasGroup_iff_group_ne_nil]

/-- A merge keeps the trees of the methods that are not entered on the incoming side. -/
theorem merge_eq_of_tables (s incoming : Snapshot) :
    s.merge incoming =
      ⟨(s.trees.filter fun t => t.method ∉ incoming.tables.methods.keys) ++ incoming.trees⟩ := by
  have kept (t : ScopeTree) : (!incoming.hasMethod t.method) =
      decide (t.method ∉ incoming.tables.methods.keys) := by
    rw [Bool.eq_iff_iff, decide_eq_true_iff, ← hasMethod_iff_mem_keys]
    simp
  simp only [merge, kept]

/-! ## The tables as a whole -/

/-- Tables that say of each method and of each group where it is in the snapshot. -/
structure Describes (tables : Tables) (s : Snapshot) : Prop where
  /-- Under a group are the places of all scopes, at any depth, that carry its key, -/
  mem_group : ∀ key ref, ref ∈ tables.groups.items key ↔
    ∃ scope, s.scope? ref = some scope ∧ scope.group = some key
  /-- by tree and then by number, so that each is there once. -/
  group_pairwise : ∀ key, (tables.groups.items key).Pairwise ScopeRef.Before
  mem_groupKeys : ∀ key, key ∈ tables.groups.keys ↔ tables.groups.items key ≠ []
  groupKeys_pairwise : tables.groups.keys.Pairwise (· < ·)
  /-- Under a method are the places of its trees, -/
  mem_method : ∀ m i, i ∈ tables.methods.items m ↔ ∃ t, s.trees[i]? = some t ∧ t.method = m
  /-- in order, so that each is there once, -/
  method_pairwise : ∀ m, (tables.methods.items m).Pairwise (· < ·)
  /-- and these are the trees of the method. -/
  trees : ∀ m, (tables.methods.items m).map (s.trees[·]?) = (s.treesOf m).map some
  mem_methods : ∀ m, m ∈ tables.methods.keys ↔ s.hasMethod m = true
  /-- Every place that is entered is there. -/
  group_inside : ∀ key, ∀ ref ∈ tables.groups.items key,
    ∃ t, s.tree? ref = some t ∧ ref.scope < t.size
  method_inside : ∀ m, ∀ i ∈ tables.methods.items m, i < s.size

/-- **The tables are complete and in order**, whatever trees the snapshot holds, merged ones or not:
they say just what the trees say. Searching all trees for a group or listing the groups comes to the
same, and a merge may look the methods of the other side up. -/
theorem tables_describe (s : Snapshot) :
    Describes s.tables s ∧ (∀ key, s.group key = s.tables.groups.items key) ∧
      s.groupKeys = s.tables.groups.keys ∧
      ∀ incoming, s.merge incoming =
        ⟨(s.trees.filter fun t => t.method ∉ incoming.tables.methods.keys) ++ incoming.trees⟩ := by
  refine ⟨?_, fun key => (s.items_groups key).symm, s.keys_groups.symm, s.merge_eq_of_tables⟩
  constructor
  case mem_group => exact fun key ref => s.items_groups key ▸ mem_group
  case group_pairwise => exact fun key => s.items_groups key ▸ s.group_pairwise key
  case mem_groupKeys => exact fun key => Table.mem_keys
  case groupKeys_pairwise => exact (Table.keys_pairwise _).imp Std.compare_eq_lt.mp
  case mem_method => exact fun m i => mem_items_methods
  case method_pairwise => exact s.items_methods_pairwise
  case trees => exact s.trees_items_methods
  case mem_methods => exact fun m => hasMethod_iff_mem_keys.symm
  case group_inside =>
    intro key ref mem
    rw [items_groups] at mem
    obtain ⟨scope, here, -⟩ := mem_group.mp mem
    obtain ⟨t, atTree, atScope⟩ := Option.bind_eq_some_iff.mp here
    exact ⟨t, atTree, (t.exists_scope?_iff ref.scope).mp ⟨scope, atScope⟩⟩
  case method_inside =>
    intro m i mem
    obtain ⟨t, atTree, -⟩ := mem_items_methods.mp mem
    exact (List.getElem?_eq_some_iff.mp atTree).1

end Snapshot

end Recompose
