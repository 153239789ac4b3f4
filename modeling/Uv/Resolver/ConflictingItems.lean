import Uv.PypiTypes.Conflicts
import Uv.Resolver.ActivatedExtras

/-!
# Conflicting items

A set of conflicts has extras, groups and projects.  After the first traversal only pairs of
extras are checked, so a project or a group that is selected can be activated together with
an extra of the same set.
-/

set_option linter.unusedSectionVars false

namespace Uv.Resolver

open Uv.Core Uv.PypiTypes

/-! ## Items -/

/-- The extras of a set of conflicting items. -/
def extrasOf (set : ConflictSet) : Finset (Name × Name) :=
  set.biUnion fun item =>
    match item.kind with
    | .extra extra => {(item.package, extra)}
    | _ => ∅

theorem mem_extrasOf {set : ConflictSet} {package extra : Name} :
    (package, extra) ∈ extrasOf set ↔ ConflictItem.ofExtra package extra ∈ set := by
  rw [extrasOf, Finset.mem_biUnion]
  constructor
  · rintro ⟨⟨itemPackage, kind⟩, hitem, hmem⟩
    cases kind with
    | extra name =>
        cases Finset.mem_singleton.mp hmem
        exact hitem
    | group name => cases Finset.notMem_empty _ hmem
    | project => cases Finset.notMem_empty _ hmem
  · intro hmem
    exact ⟨_, hmem, Finset.mem_singleton_self _⟩

namespace Activated

/-- The activated projects and groups, which only the roots activate. -/
def selectedItems (activated : Activated Name) : List ConflictItem :=
  activated.projects.map (⟨·, .project⟩) ++
    activated.groups.map fun (package, group) => .ofGroup package group

/-- All activated items. -/
def items (activated : Activated Name) : List ConflictItem :=
  activated.selectedItems ++ activated.extras.map fun (package, extra) => .ofExtra package extra

variable {activated : Activated Name}

theorem ofExtra_mem_items {pair : Name × Name} (hpair : pair ∈ activated.extras) :
    ConflictItem.ofExtra pair.1 pair.2 ∈ activated.items :=
  List.mem_append_right _ (List.mem_map_of_mem hpair)

theorem ne_ofExtra_of_selected {item : ConflictItem} (hitem : item ∈ activated.selectedItems)
    (package extra : Name) : ConflictItem.ofExtra package extra ≠ item := by
  rintro rfl
  rcases List.mem_append.mp hitem with hproject | hgroup
  · obtain ⟨_, _, heq⟩ := List.mem_map.mp hproject
    cases heq
  · obtain ⟨_, _, heq⟩ := List.mem_map.mp hgroup
    cases heq

end Activated

/-- No set has two of the items. -/
def ConflictFree (sets : List ConflictSet) (items : List ConflictItem) : Prop :=
  ∀ set ∈ sets, ∀ item ∈ items, ∀ other ∈ items, item ∈ set → other ∈ set → item = other

instance (sets : List ConflictSet) (items : List ConflictItem) :
    Decidable (ConflictFree sets items) :=
  inferInstanceAs (Decidable (∀ set ∈ sets, ∀ item ∈ items, ∀ other ∈ items,
    item ∈ set → other ∈ set → item = other))

namespace Installable

variable {Id Marker Dist Error : Type} [LinearOrder Id] [LinearOrder Marker] [LockId Id Name]
  {self : Installable Name Id Marker Dist Error} {activated rootActivated : Activated Name}
  {sets : List ConflictSet}

/-! ## All activated items -/

/-- The activated items of a lock have no two of one set iff those of the roots do not and no
dependency that the first traversal follows requests an extra of a set with an activated
project or group. -/
theorem toResolution_conflictFree_iff {graph : GraphState Name Id Marker Dist}
    (hconflicts : self.conflicts = sets.map extrasOf) (hresolve : self.toResolution = .ok graph) :
    ∃ rootActivated activated, self.activateRoots = .ok rootActivated ∧
      self.activations = .ok activated ∧
      (ConflictFree sets activated.items ↔
        ConflictFree sets rootActivated.items ∧
          ∀ set ∈ sets, ∀ dep, self.FollowedFirst dep → ∀ pair ∈ requestedExtras dep,
            ConflictItem.ofExtra pair.1 pair.2 ∈ set →
              ∀ item ∈ rootActivated.selectedItems, item ∉ set) := by
  obtain ⟨rootActivated, activated, hroot, hactivated⟩ := exists_activations hresolve
  refine ⟨rootActivated, activated, hroot, hactivated, ?_⟩
  have hextras : ∀ {pair}, pair ∈ activated.extras ↔ pair ∈ rootActivated.extras ∨
      ∃ dep, self.FollowedFirst dep ∧ pair ∈ requestedExtras dep :=
    mem_extras_iff hroot hactivated
  have hselected : activated.selectedItems = rootActivated.selectedItems := by
    obtain ⟨hprojects, hgroups⟩ := activations_projects hroot hactivated
    rw [Activated.selectedItems, hprojects, hgroups]
    rfl
  have hsubset : ∀ item ∈ rootActivated.items, item ∈ activated.items := by
    intro item hitem
    rcases List.mem_append.mp hitem with hitem | hitem
    · exact List.mem_append_left _ (hselected ▸ hitem)
    · obtain ⟨pair, hpair, rfl⟩ := List.mem_map.mp hitem
      exact Activated.ofExtra_mem_items (hextras.mpr (Or.inl hpair))
  constructor
  · intro hfree
    constructor
    · intro set hset item hitem other hother
      exact hfree set hset item (hsubset item hitem) other (hsubset other hother)
    · intro set hset dep hfollowed pair hpair hmem item hitem hmemItem
      have hextra : pair ∈ activated.extras := hextras.mpr (Or.inr ⟨dep, hfollowed, hpair⟩)
      have heq := hfree set hset _ (Activated.ofExtra_mem_items hextra) item
        (List.mem_append_left _ (hselected ▸ hitem)) hmem hmemItem
      exact Activated.ne_ofExtra_of_selected hitem _ _ heq
  · rintro ⟨hfree, hrequested⟩ set hset item hitem other hother hmem hmemOther
    -- An activated project or group excludes the extras of the set.
    have hmixed : ∀ item ∈ activated.selectedItems, ∀ pair ∈ activated.extras,
        item ∈ set → ConflictItem.ofExtra pair.1 pair.2 ∈ set → False := by
      intro item hitem pair hpair hmem hmemPair
      rw [hselected] at hitem
      rcases hextras.mp hpair with hpair | ⟨dep, hfollowed, hpair⟩
      · have heq := hfree set hset _ (Activated.ofExtra_mem_items hpair) item
          (List.mem_append_left _ hitem) hmemPair hmem
        exact Activated.ne_ofExtra_of_selected hitem _ _ heq
      · exact hrequested set hset dep hfollowed pair hpair hmemPair item hitem hmem
    rcases List.mem_append.mp hitem with hitem | hitem
    · rcases List.mem_append.mp hother with hother | hother
      · rw [hselected] at hitem hother
        exact hfree set hset item (List.mem_append_left _ hitem) other
          (List.mem_append_left _ hother) hmem hmemOther
      · obtain ⟨pair, hpair, rfl⟩ := List.mem_map.mp hother
        exact (hmixed item hitem pair hpair hmem hmemOther).elim
    · obtain ⟨pair, hpair, rfl⟩ := List.mem_map.mp hitem
      rcases List.mem_append.mp hother with hother | hother
      · exact (hmixed other hother pair hpair hmemOther hmem).elim
      · obtain ⟨otherPair, hotherPair, rfl⟩ := List.mem_map.mp hother
        have hmemSets : extrasOf set ∈ self.conflicts := by
          rw [hconflicts]
          exact List.mem_map_of_mem hset
        have hnonempty : self.conflicts.isEmpty = false :=
          List.isEmpty_eq_false_iff.mpr (List.ne_nil_of_mem hmemSets)
        obtain ⟨_, _, _, _, _, hcheck, rfl⟩ := activations_ok hroot hactivated hnonempty
        rw [checkConflicts_ok hcheck hmemSets hpair hotherPair (mem_extrasOf.mpr hmem)
          (mem_extrasOf.mpr hmemOther)]

section Example

private def app : Name := ⟨['a', 'p', 'p'], by decide⟩

private def plugin : Name := ⟨['p', 'l', 'u', 'g', 'i', 'n'], by decide⟩

private def x : Name := ⟨['x'], by decide⟩

private def dev : Name := ⟨['d', 'e', 'v'], by decide⟩

local instance appLockId : LockId ℕ Name := ⟨fun id => if id = 0 then app else plugin, fun _ => none⟩

/-- The project `app` depends on `plugin`, which depends on `app[x]`; so does the group `dev`. -/
def appLock : IndexedLock Name ℕ Unit where
  packages := [⟨0, [], [], [⟨1, ∅, (), ()⟩], [(x, [])], [(dev, [⟨1, ∅, (), ()⟩])]⟩,
    ⟨1, [], [], [⟨0, {x}, (), ()⟩], [], []⟩]
  byId := [(0, 0), (1, 1)]
  index id i := by
    by_cases hzero : id = 0
    · rcases i with _ | _ | i <;> simp [hzero]
    · by_cases hone : id = 1
      · rcases i with _ | _ | i <;> simp [List.lookup_cons, hone]
      · rcases i with _ | _ | i <;>
          simp [List.lookup_cons, beq_false_of_ne hzero, beq_false_of_ne hone, Ne.symm hzero,
            Ne.symm hone]

/-- The extra `x` and the group `dev` of `app` conflict. -/
def extraOrGroup : List ConflictSet :=
  [{.ofExtra app x, .ofGroup app dev}]

/-- Install `app`, with its group or without it. -/
def withDev (group : Bool) : Installable Name ℕ Unit Unit Unit where
  lock := appLock
  conflicts := extraOrGroup.map extrasOf
  requirements := []
  dependencyGroups := []
  roots := [app]
  prod := true
  containsGroup _ := group
  containsExtra _ := false
  evaluate _ _ := true
  includePackage _ := true
  toDist _ _ := .ok ()

theorem toResolution_withDev (group : Bool) :
    ∃ graph, (withDev group).toResolution = .ok graph := by
  have hok : (withDev group).toResolution.isOk = true := by
    cases group <;> decide +kernel
  cases hresolve : (withDev group).toResolution with
  | error e => simp [hresolve, Except.isOk, Except.toBool] at hok
  | ok graph => exact ⟨graph, rfl⟩

/-- The group is selected and `plugin` activates the extra that it conflicts with. -/
theorem toResolution_extraAndGroup : ∃ graph rootActivated activated,
    (withDev true).conflicts = extraOrGroup.map extrasOf ∧
      (withDev true).toResolution = .ok graph ∧
        (withDev true).activateRoots = .ok rootActivated ∧
          (withDev true).activations = .ok activated ∧
            ConflictFree extraOrGroup rootActivated.items ∧
              ¬ ConflictFree extraOrGroup activated.items := by
  obtain ⟨graph, hresolve⟩ := toResolution_withDev true
  obtain ⟨rootActivated, activated, hroot, hactivated⟩ := exists_activations hresolve
  have hrootFree : (withDev true).activateRoots.toOption.map
      (fun activated => decide (ConflictFree extraOrGroup activated.items)) = some true := by
    decide +kernel
  have hfree : (withDev true).activations.toOption.map
      (fun activated => decide (ConflictFree extraOrGroup activated.items)) = some false := by
    decide +kernel
  rw [hroot] at hrootFree
  rw [hactivated] at hfree
  exact ⟨graph, rootActivated, activated, rfl, hresolve, hroot, hactivated,
    of_decide_eq_true (Option.some.inj hrootFree), of_decide_eq_false (Option.some.inj hfree)⟩

/-- Without the group, the extra alone is activated. -/
theorem toResolution_conflictFree_iff_withoutDev : ∃ rootActivated activated,
    (withDev false).activateRoots = .ok rootActivated ∧
      (withDev false).activations = .ok activated ∧
      (ConflictFree extraOrGroup activated.items ↔
        ConflictFree extraOrGroup rootActivated.items ∧
          ∀ set ∈ extraOrGroup, ∀ dep, (withDev false).FollowedFirst dep →
            ∀ pair ∈ requestedExtras dep, ConflictItem.ofExtra pair.1 pair.2 ∈ set →
              ∀ item ∈ rootActivated.selectedItems, item ∉ set) := by
  obtain ⟨graph, hresolve⟩ := toResolution_withDev false
  exact toResolution_conflictFree_iff rfl hresolve

end Example

end Installable

end Uv.Resolver
