import Uv.PypiTypes.GroupIncludes

/-!
# Declared conflicts and the lock

Users write conflicts without package names, the lock holds them with their
names.  Both readers ask for two items in every set.  The first counts the items
as they are written, before the names are filled in and before groups are
replaced, so what is written to the lock may be a set that cannot be read back.
-/

namespace Uv.PypiTypes

open Uv.Core
open Uv.Resolver (ConflictItem ConflictKind)

/-! ## Items on the wire -/

/-- An item as it is written. -/
structure ConflictItemWire where
  package : Option PackageName
  extra : Option ExtraName
  group : Option GroupName

/-- `TryFrom<ConflictItemWire> for ConflictItem`. -/
def conflictItemOfWire (wire : ConflictItemWire) : Except ConflictError ConflictItem :=
  match wire.package with
  | none => .error .missingPackage
  | some package =>
      match wire.extra, wire.group with
      | some _, some _ => .error .foundExtraAndGroup
      | none, none => .ok ⟨package, .project⟩
      | some extra, none => .ok ⟨package, .extra extra⟩
      | none, some group => .ok ⟨package, .group group⟩

/-- `From<ConflictItem> for ConflictItemWire`. -/
def conflictItemToWire (item : ConflictItem) : ConflictItemWire :=
  match item.kind with
  | .extra extra => ⟨some item.package, some extra, none⟩
  | .group group => ⟨some item.package, none, some group⟩
  | .project => ⟨some item.package, none, none⟩

theorem conflictItemOfWire_toWire (item : ConflictItem) :
    conflictItemOfWire (conflictItemToWire item) = .ok item := by
  obtain ⟨package, kind⟩ := item
  cases kind <;> rfl

/-! ## Conflicts as users declare them -/

/-- An item that may come without its package. -/
structure SchemaConflictItem where
  package : Option PackageName
  kind : ConflictKind
  deriving DecidableEq

/-- `TryFrom<ConflictItemWire> for SchemaConflictItem`. -/
def SchemaConflictItem.ofWire (wire : ConflictItemWire) :
    Except ConflictError SchemaConflictItem :=
  match wire.extra, wire.group with
  | some _, some _ => .error .foundExtraAndGroup
  | none, none =>
      match wire.package with
      | none => .error .missingPackageAndExtraAndGroup
      | some package => .ok ⟨some package, .project⟩
  | some extra, none => .ok ⟨wire.package, .extra extra⟩
  | none, some group => .ok ⟨wire.package, .group group⟩

/-- An explicit package name takes precedence. -/
def SchemaConflictItem.fill (package : PackageName) (item : SchemaConflictItem) :
    ConflictItem :=
  ⟨item.package.getD package, item.kind⟩

/-- A set that was accepted. -/
structure SchemaConflictSet where
  items : List SchemaConflictItem
  length : 2 ≤ items.length

/-- `TryFrom<Vec<SchemaConflictItem>>`. -/
def SchemaConflictSet.tryFrom (items : List SchemaConflictItem) :
    Except ConflictError SchemaConflictSet :=
  match hlength : items.length with
  | 0 => .error .zeroItems
  | 1 => .error .oneItem
  | count + 2 => .ok ⟨items, by omega⟩

abbrev SchemaConflicts : Type := List SchemaConflictSet

/-- `Deserialize for SchemaConflicts`. -/
def SchemaConflicts.deserialize (wires : List (List ConflictItemWire)) :
    Except ConflictError SchemaConflicts :=
  wires.mapM fun wires => do
    let items ← wires.mapM SchemaConflictItem.ofWire
    SchemaConflictSet.tryFrom items

/-- Pair every item with its package; `none` stands for a panic. -/
def SchemaConflicts.toConflictsWithPackageName (schema : SchemaConflicts)
    (package : PackageName) : Option Conflicts :=
  schema.mapM fun set =>
    match ConflictSet.tryFrom (set.items.map (SchemaConflictItem.fill package)) with
    | .ok set => some set
    | .error _ => none

/-! ## The lock -/

/-- Every set with its items in order. -/
def Conflicts.serialize (sets : Conflicts) : List (List ConflictItemWire) :=
  sets.map fun set => set.iter.map conflictItemToWire

/-- `Deserialize for Conflicts`. -/
def Conflicts.deserialize (wires : List (List ConflictItemWire)) :
    Except ConflictError Conflicts :=
  wires.mapM fun wires => do
    let items ← wires.mapM conflictItemOfWire
    ConflictSet.tryFrom items

theorem ConflictSet.tryFrom_iter {set : ConflictSet} (hcard : 2 ≤ set.card) :
    tryFrom set.iter = .ok set := by
  rw [tryFrom, length_iter]
  match hlength : set.card with
  | 0 => omega
  | 1 => omega
  | count + 2 => exact congrArg Except.ok set.toFinset_iter

theorem mapM_conflictItemOfWire (items : List ConflictItem) :
    (items.map conflictItemToWire).mapM conflictItemOfWire = .ok items := by
  induction items with
  | nil => rfl
  | cons item items ih =>
      rw [List.map_cons, List.mapM_cons, conflictItemOfWire_toWire, ih]
      rfl

/-- Sets of at least two items are read back as they were written. -/
theorem Conflicts.deserialize_serialize {sets : Conflicts}
    (hcard : ∀ set ∈ sets, 2 ≤ set.card) : deserialize (serialize sets) = .ok sets := by
  unfold deserialize serialize
  induction sets with
  | nil => rfl
  | cons set sets ih =>
      rw [List.map_cons, List.mapM_cons, mapM_conflictItemOfWire,
        ih fun other hother => hcard other (List.mem_cons_of_mem _ hother)]
      have hset := ConflictSet.tryFrom_iter (hcard set (by simp))
      simp only [bind, Except.bind, hset]
      rfl

/-- What is left of the declared sets once names are filled in. -/
def SchemaConflicts.filled (schema : SchemaConflicts) (package : PackageName) :
    Conflicts :=
  schema.map fun set => (set.items.map (SchemaConflictItem.fill package)).toFinset

theorem SchemaConflicts.toConflictsWithPackageName_eq (schema : SchemaConflicts)
    (package : PackageName) :
    schema.toConflictsWithPackageName package = some (schema.filled package) := by
  unfold toConflictsWithPackageName filled
  induction schema with
  | nil => rfl
  | cons set schema ih =>
      have hset :
          ConflictSet.tryFrom (set.items.map (SchemaConflictItem.fill package)) =
            .ok (set.items.map (SchemaConflictItem.fill package)).toFinset := by
        have hlength := set.length
        rw [ConflictSet.tryFrom, List.length_map]
        match hcount : set.items.length with
        | 0 => omega
        | 1 => omega
        | count + 2 => rfl
      rw [List.mapM_cons, hset, ih]
      rfl

/-! ## Two items -/

section TwoItems

variable (runtime : Runtime) (schema : SchemaConflicts) (package project : PackageName)
  (groups : DependencyGroups)

/-- Every set has two items, with the names filled in and with the groups
expanded, so the lock can be read back. -/
def TwoItems : Prop :=
  ∃ sets expanded, schema.toConflictsWithPackageName package = some sets ∧
    Conflicts.expandTransitiveGroupIncludes runtime sets project groups =
      some expanded ∧
    (∀ set ∈ sets, 2 ≤ set.card) ∧ (∀ set ∈ expanded, 2 ≤ set.card) ∧
    Conflicts.deserialize sets.serialize = .ok sets ∧
    Conflicts.deserialize expanded.serialize = .ok expanded

/-- In every set two items are different, and the items of no set can all become
the same one. -/
def StaysApart : Prop :=
  ∀ set ∈ schema, (∃ left ∈ set.items, ∃ right ∈ set.items,
      left.fill package ≠ right.fill package) ∧
    (groups.Acyclic → ∀ target, ∃ item ∈ set.items, item.fill package ≠ target ∧
      ¬ Replaces (schema.filled package) project groups (item.fill package) target)

end TwoItems

theorem two_le_card_iff {set : ConflictSet} :
    2 ≤ set.card ↔ ∃ left ∈ set, ∃ right ∈ set, left ≠ right :=
  Finset.one_lt_card

/-- Rewriting keeps two items apart unless all of them can become the same. -/
theorem forall_rewrites_card {source : ConflictSet} {sub : ConflictItem → ConflictItem → Prop}
    (hcard : 2 ≤ source.card) :
    (∀ target, Rewrites sub source target → 2 ≤ target.card) ↔
      ∀ target, ∃ item ∈ source, item ≠ target ∧ ¬ sub item target := by
  have hne : source.Nonempty := Finset.card_pos.mp (by omega)
  constructor
  · intro hall target
    by_contra hnone
    push Not at hnone
    have hrewrites : Rewrites sub source {target} := by
      refine ⟨fun _ => target, fun item hitem => ?_, Finset.image_const hne target⟩
      by_cases heq : item = target
      · exact .inl heq.symm
      · exact .inr (hnone item hitem heq)
    have hcard' := hall {target} hrewrites
    rw [Finset.card_singleton] at hcard'
    omega
  · rintro hapart target ⟨f, hf, rfl⟩
    obtain ⟨first, hfirst⟩ := hne
    obtain ⟨item, hitem, hdifferent, hnot⟩ := hapart (f first)
    rw [two_le_card_iff]
    refine ⟨f first, Finset.mem_image_of_mem f hfirst, f item,
      Finset.mem_image_of_mem f hitem, fun heq => ?_⟩
    rcases hf item hitem with hsame | hsub
    · exact hdifferent (by rw [heq, hsame])
    · exact hnot (heq ▸ hsub)

section TwoItems

variable {runtime : Runtime} {schema : SchemaConflicts} {package project : PackageName}
  {groups : DependencyGroups}

theorem mem_filled {set : ConflictSet} :
    set ∈ schema.filled package ↔ ∃ declared ∈ schema,
      (declared.items.map (SchemaConflictItem.fill package)).toFinset = set :=
  List.mem_map

theorem exists_mem_fill {set : SchemaConflictSet} {good : ConflictItem → Prop} :
    (∃ item ∈ (set.items.map (SchemaConflictItem.fill package)).toFinset, good item) ↔
      ∃ item ∈ set.items, good (item.fill package) := by
  simp only [List.mem_toFinset, List.mem_map, exists_exists_and_eq_and]

/-- All sets have two items exactly if the declared ones stay apart. -/
theorem twoItems_iff (hvalid : runtime.Valid (schema.filled package) project groups) :
    TwoItems runtime schema package project groups ↔
      StaysApart schema package project groups := by
  have hfilled : (∀ set ∈ schema.filled package, 2 ≤ set.card) ↔
      ∀ set ∈ schema, ∃ left ∈ set.items, ∃ right ∈ set.items,
        left.fill package ≠ right.fill package := by
    simp only [mem_filled, forall_exists_index, and_imp, forall_apply_eq_imp_iff₂,
      two_le_card_iff, List.mem_toFinset, List.mem_map, exists_exists_and_eq_and]
  have happly : TwoItems runtime schema package project groups ↔ ∃ expanded,
      Conflicts.expandTransitiveGroupIncludes runtime (schema.filled package) project
        groups = some expanded ∧
      (∀ set ∈ schema.filled package, 2 ≤ set.card) ∧ ∀ set ∈ expanded, 2 ≤ set.card := by
    constructor
    · rintro ⟨sets, expanded, hsets, hexpanded, hcard, hcard', -⟩
      rw [schema.toConflictsWithPackageName_eq, Option.some.injEq] at hsets
      subst hsets
      exact ⟨expanded, hexpanded, hcard, hcard'⟩
    · rintro ⟨expanded, hexpanded, hcard, hcard'⟩
      exact ⟨_, expanded, schema.toConflictsWithPackageName_eq package, hexpanded, hcard,
        hcard', Conflicts.deserialize_serialize hcard,
        Conflicts.deserialize_serialize hcard'⟩
  rw [happly]
  by_cases hacyclic : groups.Acyclic
  · obtain ⟨new, hresult, -, hmem⟩ := expand_eq hacyclic hvalid
    have hexpanded : (∀ set ∈ schema.filled package ++ new, 2 ≤ set.card) ↔
        ∀ source ∈ schema.filled package, ∀ target,
          Rewrites (Replaces (schema.filled package) project groups) source target →
            2 ≤ target.card := by
      constructor
      · intro hall source hsource target hrewrites
        apply hall target
        rw [List.mem_append, hmem]
        by_cases hold : target ∈ schema.filled package
        · exact .inl hold
        · exact .inr ⟨hold, source, hsource, hrewrites⟩
      · intro hall set hset
        rw [List.mem_append, hmem] at hset
        rcases hset with hset | ⟨-, source, hsource, hrewrites⟩
        · exact hall set hset set (.refl _ set)
        · exact hall source hsource set hrewrites
    rw [hresult]
    constructor
    · rintro ⟨_, hsome, hcard, hcard'⟩
      cases hsome
      intro set hset
      have hfill : (set.items.map (SchemaConflictItem.fill package)).toFinset ∈
          schema.filled package :=
        mem_filled.mpr ⟨set, hset, rfl⟩
      refine ⟨hfilled.mp hcard set hset, fun _ target => ?_⟩
      have hapart := (forall_rewrites_card (hcard _ hfill)).mp
        (hexpanded.mp hcard' _ hfill) target
      exact exists_mem_fill.mp hapart
    · intro hapart
      have hcard := hfilled.mpr fun set hset => (hapart set hset).1
      refine ⟨_, rfl, hcard, hexpanded.mpr fun source hsource => ?_⟩
      obtain ⟨set, hset, rfl⟩ := mem_filled.mp hsource
      rw [forall_rewrites_card (hcard _ hsource)]
      intro target
      exact exists_mem_fill.mpr ((hapart set hset).2 hacyclic target)
  · rw [expand_eq_of_cyclic hacyclic hvalid]
    constructor
    · rintro ⟨_, -, hcard, -⟩ set hset
      exact ⟨hfilled.mp hcard set hset, fun hnot => (hacyclic hnot).elim⟩
    · intro hapart
      have hcard := hfilled.mpr fun set hset => (hapart set hset).1
      exact ⟨_, rfl, hcard, hcard⟩

end TwoItems

/-! ## Declared conflicts -/

/-- `[{ group = "test" }, { extra = "gpu" }]`. -/
def testSchema : SchemaConflicts :=
  [⟨[⟨none, .group testGroup⟩, ⟨none, .extra gpuExtra⟩], by decide⟩]

/-- `[{ extra = "gpu" }, { package = "foo", extra = "gpu" }]`. -/
def gpuWires : List (List ConflictItemWire) :=
  [[⟨none, some gpuExtra, none⟩, ⟨some foo, some gpuExtra, none⟩]]

def gpuSchema : SchemaConflicts :=
  [⟨[⟨none, .extra gpuExtra⟩, ⟨some foo, .extra gpuExtra⟩], by decide⟩]

/-- `[{ group = "test" }, { group = "dev" }]`. -/
def groupsWires : List (List ConflictItemWire) :=
  [[⟨none, none, some testGroup⟩, ⟨none, none, some devGroup⟩]]

def groupsSchema : SchemaConflicts :=
  [⟨[⟨none, .group testGroup⟩, ⟨none, .group devGroup⟩], by decide⟩]

/-- No group includes an extra. -/
theorem not_replaces_extra {sets : Conflicts} {package : PackageName}
    {groups : DependencyGroups} {item : ConflictItem} {extra : ExtraName}
    (hkind : item.kind = .extra extra) (sub : ConflictItem) :
    ¬ Replaces sets package groups item sub := by
  rintro ⟨first, group, hfirst, -, -⟩
  rw [kind_firstItem hfirst] at hkind
  cases hkind

theorem replaces_kind {sets : Conflicts} {package : PackageName}
    {groups : DependencyGroups} {item sub : ConflictItem}
    (hreplaces : Replaces sets package groups item sub) :
    ∃ group, sub.kind = .group group := by
  obtain ⟨first, group, -, -, rfl⟩ := hreplaces
  exact ⟨group, kind_itemOf sets package group⟩

/-- A group and an extra stay apart. -/
theorem twoItems_testSchema : ∃ runtime : Runtime,
    TwoItems runtime testSchema foo foo devTable := by
  obtain ⟨runtime, hvalid⟩ := exists_valid (testSchema.filled foo) (by decide +kernel)
  refine ⟨runtime, (twoItems_iff hvalid).mpr ?_⟩
  intro set hset
  cases List.mem_singleton.mp hset
  refine ⟨⟨_, List.mem_cons_self, _, List.mem_cons_of_mem _ List.mem_cons_self,
    by decide +kernel⟩, fun _ target => ?_⟩
  -- The extra only stays where it is, and no group becomes an extra.
  by_cases htarget : target = ⟨foo, .extra gpuExtra⟩
  · subst htarget
    refine ⟨_, List.mem_cons_self, by decide +kernel, fun hreplaces => ?_⟩
    obtain ⟨group, hkind⟩ := replaces_kind hreplaces
    cases hkind
  · exact ⟨_, List.mem_cons_of_mem _ List.mem_cons_self, fun heq => htarget heq.symm,
      not_replaces_extra rfl target⟩

/-- Both schemas are accepted, whatever the hash orders are.  The first one's set
has one item once the package is filled in, and the lock is rejected.  The second
one's items both become `dev`. -/
theorem twoItems_collapses :
    (SchemaConflicts.deserialize gpuWires = .ok gpuSchema ∧
      gpuSchema.toConflictsWithPackageName foo = some [{⟨foo, .extra gpuExtra⟩}] ∧
      Conflicts.deserialize (Conflicts.serialize [{⟨foo, .extra gpuExtra⟩}]) =
        .error .oneItem) ∧
    SchemaConflicts.deserialize groupsWires = .ok groupsSchema ∧
    ∃ runtime : Runtime, runtime.Valid (groupsSchema.filled foo) foo devTable ∧
      ∃ expanded, Conflicts.expandTransitiveGroupIncludes runtime
          (groupsSchema.filled foo) foo devTable = some expanded ∧
        {⟨foo, .group devGroup⟩} ∈ expanded ∧
        ¬ TwoItems runtime groupsSchema foo foo devTable := by
  refine ⟨⟨rfl, by decide +kernel, rfl⟩, rfl, ?_⟩
  obtain ⟨runtime, hvalid⟩ := exists_valid (groupsSchema.filled foo) (by decide +kernel)
  obtain ⟨new, hresult, -, hmem⟩ := expand_eq acyclic_devTable hvalid
  have htest : Replaces (groupsSchema.filled foo) foo devTable ⟨foo, .group testGroup⟩
      ⟨foo, .group devGroup⟩ :=
    ⟨testGroup, devGroup, by decide +kernel, transGen_devTable.mpr ⟨rfl, rfl⟩,
      by decide +kernel⟩
  have hnew : ({⟨foo, .group devGroup⟩} : ConflictSet) ∈ new := by
    rw [hmem]
    refine ⟨by decide +kernel, _, List.mem_singleton_self _,
      fun _ => ⟨foo, .group devGroup⟩, fun item hitem => ?_, by decide +kernel⟩
    have hitem' : item = ⟨foo, .group testGroup⟩ ∨ item = ⟨foo, .group devGroup⟩ := by
      simpa [groupsSchema, SchemaConflictItem.fill] using hitem
    rcases hitem' with rfl | rfl
    · exact .inr htest
    · exact .inl rfl
  refine ⟨runtime, hvalid, _, hresult, List.mem_append_right _ hnew, ?_⟩
  rintro ⟨sets, expanded, hsets, hexpanded, -, hcard, -⟩
  rw [groupsSchema.toConflictsWithPackageName_eq, Option.some.injEq] at hsets
  subst hsets
  rw [hresult] at hexpanded
  cases hexpanded
  have hone := hcard _ (List.mem_append_right _ hnew)
  rw [Finset.card_singleton] at hone
  omega

end Uv.PypiTypes
