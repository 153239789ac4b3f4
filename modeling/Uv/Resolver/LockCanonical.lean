import Uv.Resolver.Lock
import Uv.Core.Failing

/-!
# Canonical locks

`Lock.new` promises a canonical order of the dependencies.  The lists are sorted and
checked before missing extras are removed, so the order is kept only where removing them
keeps it.
-/

set_option linter.unusedSectionVars false

namespace Uv.Resolver

open Uv.Core

variable {Name Id Marker : Type} [LinearOrder Name] [LinearOrder Id] [LinearOrder Marker]

namespace Lock

/-! ## Sorting -/

section Sorting

variable {α : Type} [LinearOrder α]

theorem perm_sort (xs : List α) : (sort xs).Perm xs :=
  List.perm_insertionSort _ xs

theorem mem_sort {xs : List α} {x : α} : x ∈ sort xs ↔ x ∈ xs :=
  (perm_sort xs).mem_iff

theorem pairwise_sort (xs : List α) : (sort xs).Pairwise (· ≤ ·) :=
  List.pairwise_insertionSort _ xs

theorem sort_eq_self {xs : List α} (hxs : xs.Pairwise (· ≤ ·)) : sort xs = xs :=
  hxs.insertionSort_eq

/-- A sorted list has no element that is equal to the next one iff it has no duplicates. -/
theorem firstDuplicate_eq_none_iff {xs : List α} (hxs : xs.Pairwise (· ≤ ·)) :
    firstDuplicate xs = none ↔ xs.Nodup := by
  induction xs with
  | nil => simp [firstDuplicate]
  | cons x rest ih =>
      cases rest with
      | nil => simp [firstDuplicate]
      | cons y rest =>
          have hrest := ih hxs.of_cons
          by_cases heq : x = y
          · simp [firstDuplicate, heq]
          · have hlt : ∀ z ∈ y :: rest, x < z := by
              intro z hz
              have hxy := lt_of_le_of_ne (List.rel_of_pairwise_cons hxs (by simp)) heq
              apply hxy.trans_le
              rcases List.mem_cons.mp hz with rfl | hz
              · exact le_rfl
              · exact List.rel_of_pairwise_cons hxs.of_cons hz
            rw [List.nodup_cons, ← hrest]
            simp only [firstDuplicate, heq, if_false, iff_and_self]
            exact fun _ hx => lt_irrefl x (hlt x hx)

theorem sort_nodup_iff {xs : List α} : (sort xs).Nodup ↔ xs.Nodup :=
  (perm_sort xs).nodup_iff

theorem sort_strict_iff {xs : List α} : (sort xs).Pairwise (· < ·) ↔ xs.Nodup := by
  rw [← sort_nodup_iff]
  constructor
  · exact fun hlt => hlt.imp fun h => h.ne
  · intro hnodup
    exact (pairwise_sort xs).imp₂ (fun _ _ hle hne => lt_of_le_of_ne hle hne) hnodup

/-- What holds between earlier and later elements of a strictly sorted list holds between
smaller and larger ones. -/
theorem pairwise_rel {R : α → α → Prop} {xs : List α} (hxs : xs.Pairwise (· < ·))
    (hR : xs.Pairwise R) {x y : α} (hx : x ∈ xs) (hy : y ∈ xs) (hlt : x < y) : R x y := by
  induction xs with
  | nil => simp at hx
  | cons z rest ih =>
      rcases List.mem_cons.mp hx with rfl | hx'
      · rcases List.mem_cons.mp hy with rfl | hy'
        · exact absurd hlt (lt_irrefl _)
        · exact List.rel_of_pairwise_cons hR hy'
      · rcases List.mem_cons.mp hy with rfl | hy'
        · exact absurd hlt (List.rel_of_pairwise_cons hxs hx').asymm
        · exact ih hxs.of_cons hR.of_cons hx' hy'

end Sorting

/-! ## The steps of `Lock::new` -/

theorem checkDuplicates_eq_ok_iff {deps : List (Dependency Name Id Marker)}
    {error : Dependency Name Id Marker → LockError Name Id Marker} :
    checkDuplicates deps error = .ok () ↔ deps.Nodup := by
  rw [← sort_nodup_iff, ← firstDuplicate_eq_none_iff (pairwise_sort deps), checkDuplicates]
  cases firstDuplicate (sort deps) <;> simp

theorem sortPackage_eq_ok_iff {package result : Package Name Id Marker} :
    sortPackage package = .ok result ↔
      (∀ deps ∈ package.lists, deps.Nodup) ∧ result = package.mapLists sort := by
  have hlists : (∀ deps ∈ package.lists, deps.Nodup) ↔
      checkDuplicates package.dependencies (.duplicateDependency package.id) = .ok () ∧
      (package.optionalDependencies.forM fun entry =>
        checkDuplicates entry.2 (.duplicateOptionalDependency package.id entry.1)) = .ok () ∧
      (package.dependencyGroups.forM fun entry =>
        checkDuplicates entry.2 (.duplicateDevDependency package.id entry.1)) = .ok () := by
    simp only [forM_eq_ok_iff, checkDuplicates_eq_ok_iff, Package.lists, List.mem_cons,
      List.mem_append, List.mem_map, or_imp, forall_and, forall_eq,
      forall_exists_index, and_imp, forall_apply_eq_imp_iff₂]
  rw [hlists, sortPackage]
  cases checkDuplicates package.dependencies (.duplicateDependency package.id) with
  | error e => simp [bind, Except.bind]
  | ok u =>
      cases package.optionalDependencies.forM fun entry =>
        checkDuplicates entry.2 (.duplicateOptionalDependency package.id entry.1) with
      | error e => simp [bind, Except.bind]
      | ok u =>
          cases package.dependencyGroups.forM fun entry =>
            checkDuplicates entry.2 (.duplicateDevDependency package.id entry.1) with
          | error e => simp [bind, Except.bind]
          | ok u => simp [bind, Except.bind, pure, Except.pure, eq_comm]

theorem mapM_sortPackage_eq_ok_iff {packages result : List (Package Name Id Marker)} :
    packages.mapM sortPackage = .ok result ↔
      (∀ package ∈ packages, ∀ deps ∈ package.lists, deps.Nodup) ∧
        result = packages.map (·.mapLists sort) :=
  mapM_eq_ok_iff fun _ _ _ => sortPackage_eq_ok_iff

/-- The ids with their positions, the last one first. -/
def positions (packages : List (Package Name Id Marker)) : List (Id × ℕ) :=
  (packages.zipIdx.map fun entry => (entry.1.id, entry.2)).reverse

theorem indexPackages_go {packages : List (Package Name Id Marker)} {n : ℕ}
    {byId result : List (Id × ℕ)} :
    (packages.zipIdx n).foldlM (fun byId (dist, i) =>
        if (byId.lookup dist.id).isSome then
          Except.error (.duplicatePackage dist.id : LockError Name Id Marker)
        else .ok ((dist.id, i) :: byId)) byId = .ok result ↔
      (packages.map (·.id)).Nodup ∧ (∀ package ∈ packages, byId.lookup package.id = none) ∧
        result = ((packages.zipIdx n).map fun entry => (entry.1.id, entry.2)).reverse ++ byId := by
  induction packages generalizing n byId with
  | nil =>
      simp only [List.zipIdx_nil, List.foldlM_nil, pure, Except.pure, Except.ok.injEq]
      simpa using eq_comm
  | cons package rest ih =>
      rw [List.zipIdx_cons, List.foldlM_cons]
      cases hlookup : byId.lookup package.id with
      | some i =>
          simp only [hlookup, Option.isSome_some, if_true, bind, Except.bind, List.forall_mem_cons]
          simp
      | none =>
          simp only [hlookup, Option.isSome_none, Bool.false_eq_true, if_false, bind, Except.bind]
          rw [ih]
          have hfresh : (∀ other ∈ rest, ((package.id, n) :: byId).lookup other.id = none) ↔
              package.id ∉ rest.map (·.id) ∧ ∀ other ∈ rest, byId.lookup other.id = none := by
            simp only [List.lookup_cons, List.mem_map, not_exists, not_and, ← forall₂_and]
            apply forall₂_congr
            intro other _
            by_cases heq : other.id = package.id
            · simp [heq]
            · simp [heq, beq_false_of_ne heq]
          rw [hfresh]
          simp only [List.map_cons, List.nodup_cons, List.forall_mem_cons, hlookup, true_and,
            List.reverse_cons, List.append_assoc, List.singleton_append]
          tauto

theorem indexPackages_eq_ok_iff {packages : List (Package Name Id Marker)}
    {byId : List (Id × ℕ)} :
    indexPackages packages = .ok byId ↔
      (packages.map (·.id)).Nodup ∧ byId = positions packages := by
  rw [indexPackages, indexPackages_go]
  simp [positions]

theorem lookup_eq_some_iff_mem {entries : List (Id × ℕ)} (hnodup : (entries.map (·.1)).Nodup)
    {id : Id} {i : ℕ} : entries.lookup id = some i ↔ (id, i) ∈ entries := by
  induction entries with
  | nil => simp
  | cons entry rest ih =>
      obtain ⟨hnotMem, hrest⟩ := List.nodup_cons.mp hnodup
      rw [List.lookup_cons, List.mem_cons]
      by_cases heq : id = entry.1
      · subst heq
        have hno : (entry.1, i) ∉ rest := fun hmem =>
          hnotMem (List.mem_map_of_mem (f := (·.1)) hmem)
        simp [Prod.ext_iff, hno, eq_comm]
      · rw [beq_false_of_ne heq, ih hrest]
        simp [Prod.ext_iff, heq]

theorem positions_keys (packages : List (Package Name Id Marker)) :
    (positions packages).map (·.1) = (packages.map (·.id)).reverse := by
  rw [positions, List.map_reverse, List.map_map]
  congr 1
  calc packages.zipIdx.map ((fun entry => entry.1) ∘ fun entry => (entry.1.id, entry.2))
      = (packages.zipIdx.map Prod.fst).map (·.id) := by rw [List.map_map]; rfl
    _ = packages.map (·.id) := by rw [List.zipIdx_map_fst]

theorem lookup_positions {packages : List (Package Name Id Marker)}
    (hnodup : (packages.map (·.id)).Nodup) {id : Id} {i : ℕ} :
    (positions packages).lookup id = some i ↔
      ∃ package, packages[i]? = some package ∧ package.id = id := by
  rw [lookup_eq_some_iff_mem (by rwa [positions_keys, List.nodup_reverse]), positions]
  simp only [List.mem_reverse, List.mem_map, Prod.mk.injEq, Prod.exists,
    List.mem_zipIdx_iff_getElem?]
  constructor
  · rintro ⟨package, j, hget, hid, hj⟩
    exact ⟨package, hj ▸ hget, hid⟩
  · rintro ⟨package, hget, hid⟩
    exact ⟨package, i, hget, hid, rfl⟩

theorem providesExtra_eq_true_iff {packages : List (Package Name Id Marker)} {id : Id}
    {extra : Name} :
    providesExtra packages id extra = true ↔
      ∃ package ∈ packages, package.id = id ∧ extra ∈ package.optionalDependencies.map (·.1) := by
  simp [providesExtra]

/-- Sorting changes neither the packages nor their extras. -/
theorem providesExtra_sort (packages : List (Package Name Id Marker)) (id : Id) (extra : Name) :
    providesExtra (sortPackages (packages.map (·.mapLists sort))) id extra =
      providesExtra packages id extra := by
  rw [Bool.eq_iff_iff, providesExtra_eq_true_iff, providesExtra_eq_true_iff]
  simp [sortPackages, Package.mapLists]

theorem pruneDependency_sort (packages : List (Package Name Id Marker)) :
    pruneDependency (sortPackages (packages.map (·.mapLists sort))) = pruneDependency packages := by
  funext dep
  simp only [pruneDependency, providesExtra_sort]

end Lock

namespace Package

@[simp] theorem lists_mapLists (f : List (Dependency Name Id Marker) → _)
    (package : Package Name Id Marker) : (package.mapLists f).lists = package.lists.map f := by
  simp [lists, mapLists, Function.comp_def]

theorem mapLists_eq_self {f : List (Dependency Name Id Marker) → _}
    {package : Package Name Id Marker} (hf : ∀ deps ∈ package.lists, f deps = deps) :
    package.mapLists f = package := by
  have hmap : ∀ entries : List (Name × List (Dependency Name Id Marker)),
      (∀ entry ∈ entries, f entry.2 = entry.2) →
        (entries.map fun entry => (entry.1, f entry.2)) = entries := by
    intro entries hentries
    calc (entries.map fun entry => (entry.1, f entry.2))
        = entries.map fun entry => entry := by
          apply List.map_congr_left
          intro entry hentry
          rw [hentries entry hentry]
      _ = entries := List.map_id' entries
  rw [mapLists, hf _ (by simp [lists]),
    hmap _ fun entry hentry => hf _ (by simp only [lists]; simp; grind),
    hmap _ fun entry hentry => hf _ (by simp only [lists]; simp; grind)]

end Package

namespace Lock

theorem sortPackages_ids (packages : List (Package Name Id Marker)) :
    ((sortPackages packages).map (·.id)).Pairwise (· ≤ ·) := by
  rw [List.pairwise_map]
  have htotal : Std.Total fun dist₁ dist₂ : Package Name Id Marker => dist₁.id ≤ dist₂.id :=
    ⟨fun dist₁ dist₂ => le_total dist₁.id dist₂.id⟩
  have htrans : IsTrans (Package Name Id Marker) fun dist₁ dist₂ => dist₁.id ≤ dist₂.id :=
    ⟨fun _ _ _ => le_trans⟩
  exact List.pairwise_insertionSort _ packages

/-- The packages in the order of the lock, before extras are removed. -/
def sortedPackages (packages : List (Package Name Id Marker)) : List (Package Name Id Marker) :=
  sortPackages (packages.map (·.mapLists sort))

theorem perm_sortPackages (packages : List (Package Name Id Marker)) :
    (sortPackages packages).Perm packages :=
  List.perm_insertionSort _ packages

theorem sortedPackages_ids_nodup {packages : List (Package Name Id Marker)} :
    ((sortedPackages packages).map (·.id)).Nodup ↔ (packages.map (·.id)).Nodup := by
  rw [sortedPackages, ((perm_sortPackages _).map _).nodup_iff, List.map_map]
  rfl

theorem prunePackages_ids (packages : List (Package Name Id Marker)) :
    (prunePackages packages).map (·.id) = packages.map (·.id) := by
  rw [prunePackages, List.map_map]
  rfl

theorem positions_eq {packages packages' : List (Package Name Id Marker)}
    (hids : packages.map (·.id) = packages'.map (·.id)) :
    positions packages = positions packages' := by
  have hmap : ∀ packages : List (Package Name Id Marker),
      positions packages = (packages.map (·.id)).zipIdx.reverse := by
    intro packages
    rw [positions, List.zipIdx_map]
    rfl
  rw [hmap, hmap, hids]

section New

variable [LockId Id Name]

/-- When `Lock.new` succeeds and what it returns. -/
theorem new_eq_ok_iff {packages : List (Package Name Id Marker)} {lock : Lock Name Id Marker} :
    new packages = .ok lock ↔
      (∀ package ∈ packages, ∀ deps ∈ package.lists, deps.Nodup) ∧
      (packages.map (·.id)).Nodup ∧
      (∀ package ∈ prunePackages (sortedPackages packages),
        checkPackage (positions (sortedPackages packages)) package = .ok ()) ∧
      lock = ⟨prunePackages (sortedPackages packages), positions (sortedPackages packages)⟩ := by
  rw [new]
  cases hsort : packages.mapM sortPackage with
  | error e =>
      have hnone : ¬ ∀ package ∈ packages, ∀ deps ∈ package.lists, deps.Nodup :=
        fun hnodup => by simpa [hsort] using mapM_sortPackage_eq_ok_iff.mpr ⟨hnodup, rfl⟩
      simp [bind, Except.bind, hnone]
  | ok result =>
      obtain ⟨hnodup, rfl⟩ := mapM_sortPackage_eq_ok_iff.mp hsort
      rw [← sortedPackages_ids_nodup]
      change (indexPackages (sortedPackages packages) >>= _) = _ ↔ _
      cases hindex : indexPackages (sortedPackages packages) with
      | error e =>
          have hnone : ¬ ((sortedPackages packages).map (·.id)).Nodup :=
            fun hids => by simpa [hindex] using indexPackages_eq_ok_iff.mpr ⟨hids, rfl⟩
          simp [bind, Except.bind, hnone]
      | ok byId =>
          obtain ⟨hids, rfl⟩ := indexPackages_eq_ok_iff.mp hindex
          rw [← forM_eq_ok_iff]
          change ((prunePackages (sortedPackages packages)).forM
            (checkPackage (positions (sortedPackages packages))) >>= fun _ => Except.ok _) = _ ↔ _
          cases (prunePackages (sortedPackages packages)).forM
              (checkPackage (positions (sortedPackages packages))) with
          | error e => simp [bind, Except.bind]
          | ok u =>
              simp only [bind, Except.bind, Except.ok.injEq, true_and]
              exact ⟨fun heq => ⟨hnodup, hids, heq.symm⟩, fun h => h.2.2.symm⟩

theorem checkPackage_eq_ok_iff {byId : List (Id × ℕ)} {dist : Package Name Id Marker} :
    checkPackage byId dist = .ok () ↔
      (∀ deps ∈ dist.lists, ∀ dep ∈ deps, (byId.lookup dep.packageId).isSome) ∧
        ∀ requiresHash ∈ LockId.requiresHash dist.id, ∀ hash ∈ dist.wheelHashes,
          requiresHash = hash := by
  have hdeps : (∀ deps ∈ dist.lists, ∀ dep ∈ deps, (byId.lookup dep.packageId).isSome) ↔
      (dist.lists.forM fun deps => deps.forM fun dep =>
        if (byId.lookup dep.packageId).isSome then .ok ()
        else .error (.unrecognizedDependency dist.id dep)) =
        (.ok () : Except (LockError Name Id Marker) Unit) := by
    simp only [forM_eq_ok_iff, ite_eq_left_iff, reduceCtorEq, imp_false, not_not]
  have hhash : ∀ requiresHash, (∀ hash ∈ dist.wheelHashes, requiresHash = hash) ↔
      (dist.wheelHashes.forM fun hash =>
        if requiresHash ≠ hash then .error (.hash dist.id requiresHash) else .ok ()) =
        (.ok () : Except (LockError Name Id Marker) Unit) := by
    simp only [forM_eq_ok_iff, ite_eq_right_iff, reduceCtorEq, imp_false, not_not, implies_true]
  rw [hdeps, checkPackage]
  cases (dist.lists.forM fun deps => deps.forM fun dep =>
      if (byId.lookup dep.packageId).isSome then .ok ()
      else .error (.unrecognizedDependency dist.id dep) :
        Except (LockError Name Id Marker) Unit) with
  | error e => simp [bind, Except.bind]
  | ok u =>
      simp only [bind, Except.bind, true_and, Option.mem_def]
      cases LockId.requiresHash dist.id with
      | none => simp [pure, Except.pure]
      | some requiresHash =>
          simp only [Option.some.injEq, forall_eq']
          exact (hhash requiresHash).symm

/-- A canonical lock: its lists are strictly sorted, and what they refer to exists. -/
structure Canonical (lock : Lock Name Id Marker) : Prop where
  lists : ∀ package ∈ lock.packages, ∀ deps ∈ package.lists, deps.Pairwise (· < ·)
  packages : (lock.packages.map (·.id)).Pairwise (· < ·)
  byId : ∀ id i, lock.byId.lookup id = some i ↔
    ∃ package, lock.packages[i]? = some package ∧ package.id = id
  dependencies : ∀ package ∈ lock.packages, ∀ deps ∈ package.lists, ∀ dep ∈ deps,
    dep.packageId ∈ lock.packages.map (·.id)
  extras : ∀ package ∈ lock.packages, ∀ deps ∈ package.lists, ∀ dep ∈ deps,
    ∀ extra ∈ dep.extra, ∃ target ∈ lock.packages,
      target.id = dep.packageId ∧ extra ∈ target.optionalDependencies.map (·.1)

theorem providesExtra_prune (packages : List (Package Name Id Marker)) (id : Id) (extra : Name) :
    providesExtra (prunePackages packages) id extra = providesExtra packages id extra := by
  rw [Bool.eq_iff_iff, providesExtra_eq_true_iff, providesExtra_eq_true_iff]
  simp [prunePackages, Package.mapLists]

theorem mem_lists_prune {packages : List (Package Name Id Marker)}
    {package : Package Name Id Marker} (hpackage : package ∈ prunePackages packages)
    {deps : List (Dependency Name Id Marker)} (hdeps : deps ∈ package.lists) :
    ∃ original ∈ packages, ∃ before ∈ original.lists,
      deps = before.map (pruneDependency packages) := by
  obtain ⟨original, horiginal, rfl⟩ := List.mem_map.mp hpackage
  rw [Package.lists_mapLists, List.mem_map] at hdeps
  obtain ⟨before, hbefore, rfl⟩ := hdeps
  exact ⟨original, horiginal, before, hbefore, rfl⟩

/-- The map of a new lock finds the packages by their ids. -/
theorem index_of_new {packages : List (Package Name Id Marker)} {lock : Lock Name Id Marker}
    (hnew : new packages = .ok lock) (id : Id) (i : ℕ) : lock.byId.lookup id = some i ↔
      ∃ package, lock.packages[i]? = some package ∧ package.id = id := by
  obtain ⟨_, hids, _, rfl⟩ := new_eq_ok_iff.mp hnew
  rw [← sortedPackages_ids_nodup] at hids
  rw [positions_eq (prunePackages_ids _).symm]
  exact lookup_positions (by rwa [prunePackages_ids])

/-- A new lock with its map. -/
def indexed {packages : List (Package Name Id Marker)} {lock : Lock Name Id Marker}
    (hnew : new packages = .ok lock) : IndexedLock Name Id Marker :=
  { lock with index := index_of_new hnew }

/-- Whatever the lists look like, the rest of a new lock is canonical. -/
theorem canonical_of_new {packages : List (Package Name Id Marker)} {lock : Lock Name Id Marker}
    (hnew : new packages = .ok lock)
    (hlists : ∀ package ∈ lock.packages, ∀ deps ∈ package.lists, deps.Pairwise (· < ·)) :
    lock.Canonical := by
  obtain ⟨hnodup, hids, hcheck, rfl⟩ := new_eq_ok_iff.mp hnew
  rw [← sortedPackages_ids_nodup] at hids
  constructor
  case lists => exact hlists
  case packages =>
    rw [prunePackages_ids]
    exact (sortPackages_ids _).imp₂ (fun _ _ hle hne => lt_of_le_of_ne hle hne) hids
  case byId => exact index_of_new hnew
  case dependencies =>
    intro package hpackage deps hdeps dep hdep
    have hsome := (checkPackage_eq_ok_iff.mp (hcheck package hpackage)).1 deps hdeps dep hdep
    obtain ⟨i, hi⟩ := Option.isSome_iff_exists.mp hsome
    obtain ⟨target, htarget, hid⟩ := (lookup_positions hids).mp hi
    rw [prunePackages_ids, ← hid]
    exact List.mem_map_of_mem (List.mem_of_getElem? htarget)
  case extras =>
    intro package hpackage deps hdeps dep hdep extra hextra
    obtain ⟨original, _, before, _, rfl⟩ := mem_lists_prune hpackage hdeps
    obtain ⟨dep, _, rfl⟩ := List.mem_map.mp hdep
    rw [← providesExtra_eq_true_iff, providesExtra_prune]
    exact (Finset.mem_filter.mp hextra).2

theorem prunePackages_eq_self {packages : List (Package Name Id Marker)}
    (hextras : ∀ package ∈ packages, ∀ deps ∈ package.lists, ∀ dep ∈ deps, ∀ extra ∈ dep.extra,
      providesExtra packages dep.packageId extra = true) :
    prunePackages packages = packages := by
  have hdep : ∀ package ∈ packages, ∀ deps ∈ package.lists,
      deps.map (pruneDependency packages) = deps := by
    intro package hpackage deps hdeps
    conv_rhs => rw [← List.map_id' deps]
    apply List.map_congr_left
    intro dep hdep
    rw [pruneDependency, Finset.filter_true_of_mem (hextras package hpackage deps hdeps dep hdep)]
  rw [prunePackages]
  conv_rhs => rw [← List.map_id' packages]
  apply List.map_congr_left
  intro package hpackage
  exact Package.mapLists_eq_self (hdep package hpackage)

theorem sortedPackages_eq_self {packages : List (Package Name Id Marker)}
    (hlists : ∀ package ∈ packages, ∀ deps ∈ package.lists, deps.Pairwise (· < ·))
    (hids : (packages.map (·.id)).Pairwise (· < ·)) :
    sortedPackages packages = packages := by
  have hmap : packages.map (·.mapLists sort) = packages := by
    conv_rhs => rw [← List.map_id' packages]
    apply List.map_congr_left
    intro package hpackage
    apply Package.mapLists_eq_self
    intro deps hdeps
    exact sort_eq_self ((hlists package hpackage deps hdeps).imp le_of_lt)
  rw [sortedPackages, hmap]
  apply List.Pairwise.insertionSort_eq
  exact (List.pairwise_map.mp hids).imp le_of_lt

/-- A canonical lock is read back, whatever becomes of the data that is only stored. -/
theorem new_map_of_canonical {packages : List (Package Name Id Marker)}
    {lock : Lock Name Id Marker} (hnew : new packages = .ok lock) (hcanonical : lock.Canonical)
    {f : Package Name Id Marker → Package Name Id Marker}
    (hf : ∀ package, ∃ forkMarkers, f package = { package with forkMarkers := forkMarkers }) :
    new (lock.packages.map f) = .ok ⟨lock.packages.map f, lock.byId⟩ := by
  have hid : ∀ package, (f package).id = package.id := by
    intro package
    obtain ⟨_, heq⟩ := hf package
    rw [heq]
  have hlists : ∀ package, (f package).lists = package.lists := by
    intro package
    obtain ⟨_, heq⟩ := hf package
    rw [heq]
    rfl
  have hoptional : ∀ package,
      (f package).optionalDependencies = package.optionalDependencies := by
    intro package
    obtain ⟨_, heq⟩ := hf package
    rw [heq]
  have hhashes : ∀ package, (f package).wheelHashes = package.wheelHashes := by
    intro package
    obtain ⟨_, heq⟩ := hf package
    rw [heq]
  have hids : (lock.packages.map f).map (·.id) = lock.packages.map (·.id) := by
    simp [hid]
  obtain ⟨_, _, hcheck, hlock⟩ := new_eq_ok_iff.mp hnew
  have hpackages : lock.packages = prunePackages (sortedPackages packages) :=
    congrArg Lock.packages hlock
  have hbyId : lock.byId = positions (sortedPackages packages) := congrArg Lock.byId hlock
  have hsorted : sortedPackages (lock.packages.map f) = lock.packages.map f := by
    apply sortedPackages_eq_self
    · intro package hpackage
      obtain ⟨original, horiginal, rfl⟩ := List.mem_map.mp hpackage
      rw [hlists]
      exact hcanonical.lists original horiginal
    · rw [hids]
      exact hcanonical.packages
  have hprovides : ∀ id extra,
      providesExtra (lock.packages.map f) id extra = providesExtra lock.packages id extra := by
    intro id extra
    simp [providesExtra, Function.comp_def, hid, hoptional]
  have hprune : prunePackages (lock.packages.map f) = lock.packages.map f := by
    apply prunePackages_eq_self
    intro package hpackage deps hdeps dep hdep extra hextra
    obtain ⟨original, horiginal, rfl⟩ := List.mem_map.mp hpackage
    rw [hlists] at hdeps
    rw [hprovides]
    exact providesExtra_eq_true_iff.mpr
      (hcanonical.extras original horiginal deps hdeps dep hdep extra hextra)
  have hpositions : positions (lock.packages.map f) = lock.byId := by
    rw [hbyId]
    apply positions_eq
    rw [hids, hpackages, prunePackages_ids]
  rw [new_eq_ok_iff, hsorted, hprune, hpositions]
  refine ⟨?_, ?_, ?_, rfl⟩
  · intro package hpackage deps hdeps
    obtain ⟨original, horiginal, rfl⟩ := List.mem_map.mp hpackage
    rw [hlists] at hdeps
    exact (hcanonical.lists original horiginal deps hdeps).imp fun h => h.ne
  · rw [hids]
    exact hcanonical.packages.imp fun h => h.ne
  · intro package hpackage
    obtain ⟨original, horiginal, rfl⟩ := List.mem_map.mp hpackage
    rw [hpackages] at horiginal
    rw [checkPackage_eq_ok_iff, hlists, hid, hhashes, hbyId, ← checkPackage_eq_ok_iff]
    exact hcheck original horiginal

/-- A canonical lock is read back as it is. -/
theorem new_of_canonical {packages : List (Package Name Id Marker)} {lock : Lock Name Id Marker}
    (hnew : new packages = .ok lock) (hcanonical : lock.Canonical) :
    new lock.packages = .ok lock := by
  have hsame := new_map_of_canonical hnew hcanonical (f := id) fun package => ⟨_, rfl⟩
  rwa [List.map_id] at hsame

/-- The extras of a dependency that the package depended on has. -/
def existingExtras (packages : List (Package Name Id Marker)) (dep : Dependency Name Id Marker) :
    Finset Name :=
  dep.extra.filter fun extra => providesExtra packages dep.packageId extra

theorem pruneDependency_lt_iff {packages : List (Package Name Id Marker)}
    {dep dep' : Dependency Name Id Marker} (hlt : dep < dep') :
    pruneDependency packages dep < pruneDependency packages dep' ↔
      (dep.packageId = dep'.packageId →
        toLex ((existingExtras packages dep).sort (· ≤ ·),
          toLex (dep.simplifiedMarker, dep.complexifiedMarker)) <
        toLex ((existingExtras packages dep').sort (· ≤ ·),
          toLex (dep'.simplifiedMarker, dep'.complexifiedMarker))) := by
  have hkey : dep.key < dep'.key := hlt
  rw [Dependency.key, Dependency.key, Prod.Lex.toLex_lt_toLex] at hkey
  change (pruneDependency packages dep).key < (pruneDependency packages dep').key ↔ _
  rw [Dependency.key, Dependency.key, Prod.Lex.toLex_lt_toLex]
  rcases hkey with hid | ⟨hid, _⟩
  · constructor
    · exact fun _ heq => absurd heq hid.ne
    · exact fun _ => Or.inl hid
  · constructor
    · intro h _
      rcases h with hid' | ⟨_, h⟩
      · exact absurd hid hid'.ne
      · exact h
    · exact fun h => Or.inr ⟨hid, h hid⟩

/-- Removing the missing extras leaves the sorted list strictly sorted iff it keeps the
order of every two of its dependencies. -/
theorem pairwise_prune_iff {packages : List (Package Name Id Marker)}
    {deps : List (Dependency Name Id Marker)} (hdeps : deps.Nodup) :
    ((sort deps).map (pruneDependency packages)).Pairwise (· < ·) ↔
      ∀ dep ∈ deps, ∀ dep' ∈ deps, dep < dep' →
        pruneDependency packages dep < pruneDependency packages dep' := by
  have hstrict := sort_strict_iff.mpr hdeps
  rw [List.pairwise_map]
  constructor
  · intro hprune dep hdep dep' hdep' hlt
    exact pairwise_rel hstrict hprune (mem_sort.mpr hdep) (mem_sort.mpr hdep') hlt
  · intro hprune
    apply hstrict.imp_of_mem
    intro dep dep' hdep hdep' hlt
    exact hprune dep (mem_sort.mp hdep) dep' (mem_sort.mp hdep') hlt

/-- The lists of a new lock are the sorted lists without the missing extras. -/
theorem lists_of_new_iff {packages : List (Package Name Id Marker)} {lock : Lock Name Id Marker}
    (hnew : new packages = .ok lock)
    (P : List (Dependency Name Id Marker) → Prop) :
    (∀ package ∈ lock.packages, ∀ deps ∈ package.lists, P deps) ↔
      ∀ package ∈ packages, ∀ deps ∈ package.lists,
        P ((sort deps).map (pruneDependency packages)) := by
  obtain ⟨_, _, _, rfl⟩ := new_eq_ok_iff.mp hnew
  have hmem : ∀ {package}, package ∈ sortedPackages packages ↔
      package ∈ packages.map (·.mapLists sort) := (perm_sortPackages _).mem_iff
  simp only [prunePackages, List.forall_mem_map, hmem, Package.lists_mapLists]
  rw [sortedPackages, pruneDependency_sort]

/-- A new lock is canonical, and equal to the lock made of its own packages, iff in every
list the dependencies on one package stay in the same order, and stay different, when the
extras that this package lacks are removed. -/
theorem canonical_iff_existingExtras {packages : List (Package Name Id Marker)}
    {lock : Lock Name Id Marker} (hnew : new packages = .ok lock) :
    lock.Canonical ∧ new lock.packages = .ok lock ↔
      ∀ package ∈ packages, ∀ deps ∈ package.lists, ∀ dep ∈ deps, ∀ dep' ∈ deps,
        dep < dep' → dep.packageId = dep'.packageId →
          toLex ((existingExtras packages dep).sort (· ≤ ·),
            toLex (dep.simplifiedMarker, dep.complexifiedMarker)) <
          toLex ((existingExtras packages dep').sort (· ≤ ·),
            toLex (dep'.simplifiedMarker, dep'.complexifiedMarker)) := by
  have hnodup := (new_eq_ok_iff.mp hnew).1
  have hlists := lists_of_new_iff hnew (List.Pairwise (· < ·))
  have hcanonical : lock.Canonical ∧ new lock.packages = .ok lock ↔
      ∀ package ∈ lock.packages, ∀ deps ∈ package.lists, deps.Pairwise (· < ·) := by
    constructor
    · exact fun h => h.1.lists
    · intro h
      have hlock := canonical_of_new hnew h
      exact ⟨hlock, new_of_canonical hnew hlock⟩
  rw [hcanonical, hlists]
  apply forall₂_congr
  intro package hpackage
  apply forall₂_congr
  intro deps hdeps
  rw [pairwise_prune_iff (hnodup package hpackage deps hdeps)]
  apply forall₂_congr
  intro dep _
  apply forall₂_congr
  intro dep' _
  exact forall_congr' pruneDependency_lt_iff

/-! ## The order in which packages are given -/

/-- A new lock does not depend on the order of the packages, nor on that of the dependencies in
their lists. -/
theorem new_of_sorted {packages packages' : List (Package Name Id Marker)}
    {lock : Lock Name Id Marker}
    (hsame : (packages.map (·.mapLists sort)).Perm (packages'.map (·.mapLists sort)))
    (hnew : new packages = .ok lock) : new packages' = .ok lock := by
  obtain ⟨hnodup, hids, hcheck, rfl⟩ := new_eq_ok_iff.mp hnew
  have hsorted : sortedPackages packages = sortedPackages packages' := by
    have hperm := (perm_sortPackages _).trans (hsame.trans (perm_sortPackages _).symm)
    refine hperm.eq_of_pairwise ?_ (List.pairwise_map.mp (sortPackages_ids _))
      (List.pairwise_map.mp (sortPackages_ids _))
    intro dist dist' hdist hdist' hle hle'
    exact List.inj_on_of_nodup_map (sortedPackages_ids_nodup.mpr hids) hdist
      (hperm.mem_iff.mpr hdist') (le_antisymm hle hle')
  rw [hsorted] at hcheck ⊢
  refine new_eq_ok_iff.mpr ⟨?_, ?_, hcheck, rfl⟩
  · intro package hpackage deps hdeps
    obtain ⟨original, horiginal, heq⟩ :=
      List.mem_map.mp (hsame.mem_iff.mpr (List.mem_map_of_mem hpackage))
    have hsort := List.mem_map_of_mem (f := sort) hdeps
    rw [← Package.lists_mapLists, ← heq, Package.lists_mapLists] at hsort
    obtain ⟨before, hbefore, hsort⟩ := List.mem_map.mp hsort
    rw [← sort_nodup_iff, ← hsort, sort_nodup_iff]
    exact hnodup original horiginal before hbefore
  · rwa [← sortedPackages_ids_nodup, ← hsorted, sortedPackages_ids_nodup]

end New

/-! ## A dependency with and without an extra -/

section Example

/-- Ids without requirements on hashes, as those of registry packages. -/
local instance : LockId ℕ String := ⟨fun id => if id = 0 then "bar" else "foo", fun _ => none⟩

/-- The dependency of `foo` on `bar`, with extras. -/
def onBar (extra : Finset String) : Dependency String ℕ ℕ :=
  ⟨0, extra, 0, 0⟩

/-- `foo` depends on `bar` and on `bar[plot]`; the extras of `bar` are given. -/
def fooAndBar (extras : List String) : List (Package String ℕ ℕ) :=
  [⟨0, [], [], [], extras.map fun extra => (extra, []), []⟩,
    ⟨1, [], [], [onBar ∅, onBar {"plot"}], [], []⟩]

theorem onBar_lt : onBar ∅ < onBar {"plot"} := by
  change (onBar ∅).key < (onBar {"plot"}).key
  simp [Dependency.key, onBar, Prod.Lex.toLex_lt_toLex]

theorem fooAndBar_lists {extras : List String} {package : Package String ℕ ℕ}
    (hpackage : package ∈ fooAndBar extras) {deps : List (Dependency String ℕ ℕ)}
    (hdeps : deps ∈ package.lists) : deps = [] ∨ deps = [onBar ∅, onBar {"plot"}] := by
  simp only [fooAndBar, List.mem_cons, List.not_mem_nil, or_false] at hpackage
  rcases hpackage with rfl | rfl
  · simp only [Package.lists, List.mem_cons, List.mem_append, List.mem_map, List.map_nil] at hdeps
    grind
  · exact Or.inr (by simpa [Package.lists] using hdeps)

theorem sortedPackages_fooAndBar (extras : List String) :
    sortedPackages (fooAndBar extras) = fooAndBar extras := by
  apply sortedPackages_eq_self
  · intro package hpackage deps hdeps
    rcases fooAndBar_lists hpackage hdeps with rfl | rfl <;> simp [onBar_lt]
  · simp [fooAndBar]

theorem new_fooAndBar (extras : List String) :
    new (fooAndBar extras) =
      .ok ⟨prunePackages (fooAndBar extras), positions (fooAndBar extras)⟩ := by
  rw [new_eq_ok_iff, sortedPackages_fooAndBar]
  refine ⟨?_, ?_, ?_, rfl⟩
  · intro package hpackage deps hdeps
    rcases fooAndBar_lists hpackage hdeps with rfl | rfl <;> simp [onBar_lt.ne]
  · simp [fooAndBar]
  · intro package hpackage
    rw [checkPackage_eq_ok_iff]
    constructor
    · intro deps hdeps dep hdep
      obtain ⟨original, horiginal, before, hbefore, rfl⟩ := mem_lists_prune hpackage hdeps
      obtain ⟨other, hother, rfl⟩ := List.mem_map.mp hdep
      rcases fooAndBar_lists horiginal hbefore with rfl | rfl
      · simp at hother
      · have hid : other.packageId = 0 := by
          rcases List.mem_pair.mp hother with rfl | rfl <;> rfl
        simp [pruneDependency, hid, positions, fooAndBar]
    · simp [LockId.requiresHash]

/-- Without the extra, the lock has the same dependency twice, and is refused when read. -/
theorem new_missingExtra : ∃ lock, new (fooAndBar []) = .ok lock ∧ ¬ lock.Canonical ∧
    ∀ lock', new lock.packages ≠ .ok lock' := by
  have hprune : prunePackages (fooAndBar []) =
      [⟨0, [], [], [], [], []⟩, ⟨1, [], [], [onBar ∅, onBar ∅], [], []⟩] := by
    simp [prunePackages, fooAndBar, Package.mapLists, pruneDependency, onBar, providesExtra]
  have hfoo : [onBar ∅, onBar ∅] ∈
      (⟨1, [], [], [onBar ∅, onBar ∅], [], []⟩ : Package String ℕ ℕ).lists := by
    simp [Package.lists]
  refine ⟨_, new_fooAndBar [], ?_, ?_⟩
  · intro hcanonical
    have hlists := hcanonical.lists
    rw [hprune] at hlists
    exact absurd (hlists _ (by simp) _ hfoo) (by simp)
  · intro lock' hlock'
    have hnodup := (new_eq_ok_iff.mp hlock').1
    rw [hprune] at hnodup
    exact absurd (hnodup _ (by simp) _ hfoo) (by simp)

/-- With the extra, the lock is canonical. -/
theorem canonical_iff_existingExtras_plot : ∃ lock, new (fooAndBar ["plot"]) = .ok lock ∧
    lock.Canonical ∧ new lock.packages = .ok lock := by
  have hnew := new_fooAndBar ["plot"]
  refine ⟨_, hnew, (canonical_iff_existingExtras hnew).mpr ?_⟩
  intro package hpackage deps hdeps dep hdep dep' hdep' hlt _
  rcases fooAndBar_lists hpackage hdeps with rfl | rfl
  · simp at hdep
  · rcases List.mem_pair.mp hdep with rfl | rfl <;> rcases List.mem_pair.mp hdep' with rfl | rfl
    · exact absurd hlt (lt_irrefl _)
    · simp [existingExtras, onBar, providesExtra, fooAndBar, Prod.Lex.toLex_lt_toLex,
        Finset.filter_singleton]
    · exact absurd hlt onBar_lt.asymm
    · exact absurd hlt (lt_irrefl _)

/-- The lock is the same when `foo` and its dependency on `bar[plot]` come first. -/
theorem new_of_sorted_plot : new [⟨1, [], [], [onBar {"plot"}, onBar ∅], [], []⟩,
      ⟨0, [], [], [], [("plot", [])], []⟩] =
    .ok ⟨prunePackages (fooAndBar ["plot"]), positions (fooAndBar ["plot"])⟩ := by
  have hsort : sort [onBar {"plot"}, onBar ∅] = sort [onBar ∅, onBar {"plot"}] := by
    simp [sort, List.orderedInsert, onBar_lt.le, onBar_lt.not_ge]
  refine new_of_sorted ?_ (new_fooAndBar ["plot"])
  simp only [fooAndBar, List.map_cons, Package.mapLists, hsort]
  exact List.Perm.swap _ _ _

end Example

end Lock

end Uv.Resolver
