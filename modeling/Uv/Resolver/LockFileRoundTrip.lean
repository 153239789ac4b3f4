import Uv.Resolver.LockFile
import Uv.Resolver.LockCanonical

/-!
# The round trip of a lock file

The writer leaves out what the number of packages with a name makes redundant, and the reader
fills it in from the only package of the name.  Both look at the same packages, so an id that
is in the lock is restored unless its version is missing and the source does not say why.
-/

set_option linter.unusedSectionVars false

namespace Uv.Resolver

open Uv.Core

variable {Name Version Location Marker Text : Type} [LinearOrder Name] [LinearOrder Version]
  [LinearOrder Location] [LinearOrder Marker]

/-! ## Unambiguous names -/

namespace NameIndex

theorem lookup_filter_ne (entries : List (Name × PackageId Name Version Location))
    (removed name : Name) :
    (entries.filter fun entry => entry.1 ≠ removed).lookup name =
      if name = removed then none else entries.lookup name := by
  induction entries with
  | nil => simp
  | cons entry rest ih =>
      by_cases hentry : entry.1 = removed
      · rw [List.filter_cons_of_neg (by simp [hentry]), ih]
        by_cases hname : name = removed
        · rw [if_pos hname, if_pos hname]
        · rw [if_neg hname, if_neg hname, List.lookup_cons,
            beq_false_of_ne (by rw [hentry]; exact hname)]
      · rw [List.filter_cons_of_pos (by simp [hentry]), List.lookup_cons, List.lookup_cons, ih]
        by_cases hname : name = removed
        · have hne : name ≠ entry.1 := by
            rw [hname]
            exact Ne.symm hentry
          rw [if_pos hname, if_pos hname, beq_false_of_ne hne]
        · rw [if_neg hname, if_neg hname]

/-- What is known of the ids so far. -/
structure Tracks (index : NameIndex Name (PackageId Name Version Location))
    (ids : List (PackageId Name Version Location)) : Prop where
  lookup : ∀ name id, index.unambiguousPackageIds.lookup name = some id ↔
    ids.filter (fun id => id.name = name) = [id]
  ambiguous : ∀ name, name ∈ index.ambiguous ↔ 1 < ids.countP fun id => id.name = name

/-- With one more id only what is known of its name changes. -/
theorem Tracks.append {index index' : NameIndex Name (PackageId Name Version Location)}
    {ids : List (PackageId Name Version Location)} {id : PackageId Name Version Location}
    (hindex : index.Tracks ids)
    (hother : ∀ name, name ≠ id.name →
      index'.unambiguousPackageIds.lookup name = index.unambiguousPackageIds.lookup name ∧
        (name ∈ index'.ambiguous ↔ name ∈ index.ambiguous))
    (hlookup : ∀ result, index'.unambiguousPackageIds.lookup id.name = some result ↔
      ids.filter (fun other => other.name = id.name) = [] ∧ result = id)
    (hambiguous : id.name ∈ index'.ambiguous ↔
      ids.filter (fun other => other.name = id.name) ≠ []) : index'.Tracks (ids ++ [id]) := by
  constructor
  · intro name result
    by_cases hname : name = id.name
    · rw [hname, hlookup, List.filter_append, List.filter_cons_of_pos (by simp), List.filter_nil]
      constructor
      · rintro ⟨hfilter, rfl⟩
        rw [hfilter]
        rfl
      · intro hfilter
        have hlength := congrArg List.length hfilter
        rw [List.length_append, List.length_singleton, List.length_singleton] at hlength
        have hnil := List.eq_nil_of_length_eq_zero (Nat.succ.inj hlength)
        rw [hnil] at hfilter ⊢
        exact ⟨rfl, (List.singleton_inj.mp hfilter).symm⟩
    · rw [(hother name hname).1, hindex.lookup, List.filter_append,
        List.filter_cons_of_neg (by simpa using Ne.symm hname), List.filter_nil, List.append_nil]
  · intro name
    rw [List.countP_append, List.countP_singleton]
    by_cases hname : name = id.name
    · rw [hname, hambiguous, List.countP_eq_length_filter]
      simp [List.length_pos_iff]
    · simp [(hother name hname).2, hindex.ambiguous, Ne.symm hname]

theorem note_tracks {index : NameIndex Name (PackageId Name Version Location)}
    {ids : List (PackageId Name Version Location)} (hindex : index.Tracks ids)
    (id : PackageId Name Version Location) : (index.note id).Tracks (ids ++ [id]) := by
  rw [note]
  by_cases hambiguous : id.name ∈ index.ambiguous
  · rw [if_pos hambiguous]
    have hlarge := (hindex.ambiguous id.name).mp hambiguous
    rw [List.countP_eq_length_filter] at hlarge
    have hne : ids.filter (fun other => other.name = id.name) ≠ [] := by
      intro hfilter
      simp [hfilter] at hlarge
    apply hindex.append (fun _ _ => ⟨rfl, Iff.rfl⟩)
    · intro result
      apply iff_of_false
      · intro hlookup
        simp [(hindex.lookup _ _).mp hlookup] at hlarge
      · exact fun hfilter => hne hfilter.1
    · exact iff_of_true hambiguous hne
  · rw [if_neg hambiguous]
    cases hlookup : index.unambiguousPackageIds.lookup id.name with
    | some other =>
        have hfilter := (hindex.lookup _ _).mp hlookup
        have hotherName : other.name = id.name := by
          have hmem : other ∈ ids.filter fun other => other.name = id.name := by simp [hfilter]
          simpa using (List.mem_filter.mp hmem).2
        apply hindex.append
        · intro name hname
          rw [lookup_filter_ne, if_neg hname, List.mem_cons, hotherName]
          exact ⟨rfl, or_iff_right hname⟩
        · intro result
          rw [lookup_filter_ne, if_pos rfl, hfilter]
          simp
        · rw [hfilter]
          simp [hotherName]
    | none =>
        have hsmall : (ids.filter fun other => other.name = id.name).length ≤ 1 := by
          rw [← List.countP_eq_length_filter]
          exact not_lt.mp fun hlt => hambiguous ((hindex.ambiguous id.name).mpr hlt)
        have hfilter : ids.filter (fun other => other.name = id.name) = [] := by
          rcases Nat.le_one_iff_eq_zero_or_eq_one.mp hsmall with hzero | hone
          · exact List.eq_nil_of_length_eq_zero hzero
          · obtain ⟨other, hother⟩ := List.length_eq_one_iff.mp hone
            simp [(hindex.lookup _ _).mpr hother] at hlookup
        apply hindex.append
        · intro name hname
          rw [List.lookup_cons, beq_false_of_ne hname]
          exact ⟨rfl, Iff.rfl⟩
        · intro result
          rw [List.lookup_cons_self, hfilter]
          simp [eq_comm]
        · exact iff_of_false hambiguous fun hne => hne hfilter

theorem ofIds_tracks (ids : List (PackageId Name Version Location)) : (ofIds ids).Tracks ids := by
  induction ids using List.reverseRecOn with
  | nil => constructor <;> simp [ofIds]
  | append_singleton ids id ih =>
      rw [ofIds, List.foldl_append]
      exact note_tracks ih id

/-- The only package of a name is found under it. -/
theorem lookup_ofIds_iff {ids : List (PackageId Name Version Location)}
    {id : PackageId Name Version Location} (hid : id ∈ ids)
    {result : PackageId Name Version Location} :
    (ofIds ids).unambiguousPackageIds.lookup id.name = some result ↔
      (ids.countP fun other => other.name = id.name) = 1 ∧ result = id := by
  have hmem : id ∈ ids.filter fun other => other.name = id.name := by simp [hid]
  rw [(ofIds_tracks ids).lookup, List.countP_eq_length_filter, List.length_eq_one_iff]
  constructor
  · intro hfilter
    rw [hfilter, List.mem_singleton] at hmem
    exact ⟨⟨result, hfilter⟩, hmem.symm⟩
  · rintro ⟨⟨only, hfilter⟩, rfl⟩
    rw [hfilter, List.mem_singleton] at hmem
    rw [hfilter, hmem]

end NameIndex

/-! ## Reading what was written -/

namespace LockFormat

variable (format : LockFormat Name Version Location Marker Text)

/-- Whether the version and the source of the id are left out. -/
def IsOnly (packages : List (WheelPackage Name Version Location Marker))
    (id : PackageId Name Version Location) : Prop :=
  (packages.countP fun dist => dist.id.name = id.name) = 1

instance (packages : List (WheelPackage Name Version Location Marker))
    (id : PackageId Name Version Location) : Decidable (IsOnly packages id) :=
  inferInstanceAs (Decidable (_ = 1))

/-- What is left of an id in a dependency. -/
def shortId (packages : List (WheelPackage Name Version Location Marker))
    (id : PackageId Name Version Location) : PackageIdForDependency Name Version Location :=
  if IsOnly packages id then ⟨id.name, none, none⟩ else ⟨id.name, id.version, some id.source⟩

/-- What is left of a dependency. -/
def shortDependency (packages : List (WheelPackage Name Version Location Marker))
    (dep : Dependency Name (PackageId Name Version Location) Marker) :
    DependencyWire Name Version Location Marker :=
  ⟨shortId packages dep.packageId, dep.extra, dep.simplifiedMarker⟩

def shortEntry (packages : List (WheelPackage Name Version Location Marker))
    (entry : Name × List (Dependency Name (PackageId Name Version Location) Marker)) :
    Name × List (DependencyWire Name Version Location Marker) :=
  (entry.1, entry.2.map (shortDependency packages))

/-- What is left of a package. -/
def shortPackage (packages : List (WheelPackage Name Version Location Marker))
    (package : WheelPackage Name Version Location Marker) :
    PackageWire Name Version Location Marker where
  id := package.id
  wheels := package.wheels
  forkMarkers := (format.simplifiedUniversalMarkers package.forkMarkers).filter fun marker =>
    (format.marker.tryToString marker).isSome
  dependencies := package.dependencies.map (shortDependency packages)
  optionalDependencies := package.optionalDependencies.map (shortEntry packages)
  dependencyGroups := package.dependencyGroups.map (shortEntry packages)

theorem readOption_some {α : Type} (form : TextForm α Text) (value : α) :
    form.readOption (some (form.write value)) = some (some value) := by
  simp [TextForm.readOption, form.read_write]

theorem readOption_map {α : Type} (form : TextForm α Text) (value : Option α) :
    form.readOption (value.map form.write) = some value := by
  cases value with
  | none => rfl
  | some value => exact readOption_some form value

theorem readOption_none {α : Type} (form : TextForm α Text) :
    form.readOption none = some none := rfl

theorem readId_writeId (id : PackageId Name Version Location) :
    format.readId (format.writeId none id) = some id := by
  simp [readId, writeId, TextForm.read_write, readOption_map]

/-- A dependency is on a package of the lock. -/
theorem countP_pos {packages : List (WheelPackage Name Version Location Marker)}
    {id : PackageId Name Version Location} (hid : id ∈ packages.map (·.id)) :
    0 < packages.countP fun dist => dist.id.name = id.name := by
  obtain ⟨package, hpackage, rfl⟩ := List.mem_map.mp hid
  exact List.countP_pos_iff.mpr ⟨package, hpackage, by simp⟩

theorem readId_shortId {packages : List (WheelPackage Name Version Location Marker)}
    {id : PackageId Name Version Location} (hid : id ∈ packages.map (·.id)) :
    format.readIdForDependency (format.writeId (some (distCountByName packages)) id) =
      some (shortId packages id) := by
  have hpos := countP_pos hid
  have hcount : distCountByName packages id.name =
      some (packages.countP fun dist => dist.id.name = id.name) := by
    rw [distCountByName]
    split
    · omega
    · rfl
  rw [readIdForDependency, writeId, shortId, Option.bind_some, hcount]
  by_cases hone : IsOnly packages id
  · have hcount' : (packages.countP fun dist => dist.id.name = id.name) = 1 := hone
    simp [hone, hcount', TextForm.read_write, readOption_none]
  · have hne : ¬ (packages.countP fun dist => dist.id.name = id.name) = 1 := hone
    have hlarge : 1 < packages.countP fun dist => dist.id.name = id.name := by omega
    simp [hone, hlarge, TextForm.read_write, readOption_map, readOption_some]

theorem readDependency_writeDependency
    {packages : List (WheelPackage Name Version Location Marker)}
    {dep : Dependency Name (PackageId Name Version Location) Marker}
    (hid : dep.packageId ∈ packages.map (·.id)) :
    format.readDependency (format.writeDependency (distCountByName packages) dep) =
      some (shortDependency packages dep) := by
  have hextra : ((format.writeDependency (distCountByName packages) dep).extra.getD []).mapM
      format.name.read = some (dep.extra.sort (· ≤ ·)) := by
    by_cases hempty : dep.extra = ∅
    · simp [writeDependency, hempty]
    · simp only [writeDependency, hempty, if_false, Option.getD_some]
      rw [mapM_map_eq_some (g := id) fun name _ => format.name.read_write name, List.map_id]
  have hmarker : format.marker.readDefault
      (format.writeDependency (distCountByName packages) dep).marker =
        some dep.simplifiedMarker := by
    simp only [writeDependency]
    cases htext : format.marker.tryToString dep.simplifiedMarker with
    | none =>
        rw [format.marker.eq_always _ htext]
        rfl
    | some text => exact format.marker.read_tryToString _ _ htext
  have hpackageId : format.readIdForDependency
      (format.writeDependency (distCountByName packages) dep).packageId =
        some (shortId packages dep.packageId) := format.readId_shortId hid
  rw [readDependency, hpackageId, hextra, hmarker]
  simp only [bind, Option.bind_some, Finset.sort_toFinset]
  rfl

/-- The dependencies of a package are in the lock. -/
def Known (packages : List (WheelPackage Name Version Location Marker))
    (deps : List (Dependency Name (PackageId Name Version Location) Marker)) : Prop :=
  ∀ dep ∈ deps, dep.packageId ∈ packages.map (·.id)

theorem readEntries_writeEntries {packages : List (WheelPackage Name Version Location Marker)}
    {entries : List (Name × List (Dependency Name (PackageId Name Version Location) Marker))}
    (hknown : ∀ entry ∈ entries, Known packages entry.2)
    (hnonempty : ∀ entry ∈ entries, entry.2 ≠ []) :
    (format.writeEntries (distCountByName packages) entries).mapM format.readEntry =
      some (entries.map (shortEntry packages)) := by
  have hall : entries.filter (fun entry => !entry.2.isEmpty) = entries := by
    rw [List.filter_eq_self]
    intro entry hentry
    simp [hnonempty entry hentry]
  rw [writeEntries, hall]
  apply mapM_map_eq_some
  intro entry hentry
  rw [readEntry, format.name.read_write, mapM_map_eq_some fun dep hdep =>
    format.readDependency_writeDependency (hknown entry hentry dep hdep)]
  rfl

theorem readMarkers_write (markers : List Marker) :
    (markers.filterMap format.marker.tryToString).mapM format.marker.read =
      some (markers.filter fun marker => (format.marker.tryToString marker).isSome) := by
  induction markers with
  | nil => rfl
  | cons marker rest ih =>
      cases htext : format.marker.tryToString marker with
      | none => simp [htext, ih]
      | some text =>
          simp [htext, ih, format.marker.read_tryToString _ _ htext]

/-- A package in whose lists nothing is missing or empty. -/
structure Complete (packages : List (WheelPackage Name Version Location Marker))
    (package : WheelPackage Name Version Location Marker) : Prop where
  known : ∀ deps ∈ package.lists, Known packages deps
  optional : ∀ entry ∈ package.optionalDependencies, entry.2 ≠ []
  groups : ∀ entry ∈ package.dependencyGroups, entry.2 ≠ []

theorem readPackage_writePackage {packages : List (WheelPackage Name Version Location Marker)}
    {package : WheelPackage Name Version Location Marker} (hcomplete : Complete packages package) :
    format.readPackage (format.writePackage (distCountByName packages) package) =
      some (format.shortPackage packages package) := by
  have hdependencies : Known packages package.dependencies :=
    hcomplete.known _ (by simp [Package.lists])
  have hoptional : ∀ entry ∈ package.optionalDependencies, Known packages entry.2 := by
    intro entry hentry
    exact hcomplete.known _ (by simp [Package.lists]; grind)
  have hgroups : ∀ entry ∈ package.dependencyGroups, Known packages entry.2 := by
    intro entry hentry
    exact hcomplete.known _ (by simp [Package.lists]; grind)
  simp only [readPackage, writePackage, readId_writeId, readMarkers_write,
    format.readEntries_writeEntries hoptional hcomplete.optional,
    format.readEntries_writeEntries hgroups hcomplete.groups,
    mapM_map_eq_some fun dep hdep =>
      format.readDependency_writeDependency (hdependencies dep hdep)]
  rfl

/-! ## Ids restored -/

/-- A missing version is known to be missing: the package is the only one of its name, or a
source tree. -/
def Restorable (packages : List (WheelPackage Name Version Location Marker))
    (id : PackageId Name Version Location) : Prop :=
  id.version = none → ¬ IsOnly packages id → id.source.isSourceTree = true

/-- The index of the packages that are read. -/
def unambiguous (packages : List (WheelPackage Name Version Location Marker)) :
    List (Name × PackageId Name Version Location) :=
  (NameIndex.ofIds (packages.map (·.id))).unambiguousPackageIds

theorem unwire_shortId {packages : List (WheelPackage Name Version Location Marker)}
    {id result : PackageId Name Version Location} (hid : id ∈ packages.map (·.id)) :
    (shortId packages id).unwire (unambiguous packages) =
      (.ok result : Except (LockFileError Name Version Location Marker) _) ↔
        Restorable packages id ∧ result = id := by
  have hlookup : ∀ other, (unambiguous packages).lookup id.name = some other ↔
      IsOnly packages id ∧ other = id := by
    intro other
    rw [unambiguous, NameIndex.lookup_ofIds_iff hid, List.countP_map]
    rfl
  rw [PackageIdForDependency.unwire, shortId, Restorable]
  by_cases hone : IsOnly packages id
  · have hsome := (hlookup id).mpr ⟨hone, rfl⟩
    simp [hone, hsome, bind, Except.bind, pure, Except.pure]
    exact eq_comm
  · have hnone : (unambiguous packages).lookup id.name = none := by
      rw [Option.eq_none_iff_forall_ne_some]
      exact fun other hother => hone ((hlookup other).mp hother).1
    obtain ⟨name, version, source⟩ := id
    cases version with
    | some version =>
        simp [hone, bind, Except.bind, pure, Except.pure]
        exact eq_comm
    | none =>
        cases htree : source.isSourceTree <;>
          simp [hone, hnone, htree, bind, Except.bind, pure, Except.pure, eq_comm]

variable {format}

/-- The second marker is made from the first one. -/
def Derived (format : LockFormat Name Version Location Marker Text)
    (dep : Dependency Name (PackageId Name Version Location) Marker) : Prop :=
  dep.complexifiedMarker = format.complexify dep.simplifiedMarker

theorem unwire_shortDependency {packages : List (WheelPackage Name Version Location Marker)}
    {dep result : Dependency Name (PackageId Name Version Location) Marker}
    (hid : dep.packageId ∈ packages.map (·.id)) (hderived : format.Derived dep) :
    format.unwireDependency (unambiguous packages) (shortDependency packages dep) = .ok result ↔
      Restorable packages dep.packageId ∧ result = dep := by
  simp only [unwireDependency, shortDependency, bind_eq_ok_iff, unwire_shortId hid, pure,
    Except.pure, Except.ok.injEq]
  rw [← hderived]
  constructor
  · rintro ⟨_, ⟨hrestorable, rfl⟩, rfl⟩
    exact ⟨hrestorable, rfl⟩
  · rintro ⟨hrestorable, rfl⟩
    exact ⟨_, ⟨hrestorable, rfl⟩, rfl⟩

theorem unwire_shortEntry {packages : List (WheelPackage Name Version Location Marker)}
    {entry result : Name × List (Dependency Name (PackageId Name Version Location) Marker)}
    (hknown : Known packages entry.2) (hderived : ∀ dep ∈ entry.2, format.Derived dep) :
    format.unwireEntry (unambiguous packages) (shortEntry packages entry) = .ok result ↔
      (∀ dep ∈ entry.2, Restorable packages dep.packageId) ∧ result = entry := by
  have hdeps : ∀ deps, (entry.2.map (shortDependency packages)).mapM
      (format.unwireDependency (unambiguous packages)) = .ok deps ↔
        (∀ dep ∈ entry.2, Restorable packages dep.packageId) ∧ deps = entry.2 :=
    fun _ => mapM_map_eq_ok_self_iff fun dep hdep _ =>
      unwire_shortDependency (hknown dep hdep) (hderived dep hdep)
  simp only [unwireEntry, shortEntry, bind_eq_ok_iff, hdeps, pure, Except.pure, Except.ok.injEq]
  constructor
  · rintro ⟨_, ⟨hrestorable, rfl⟩, rfl⟩
    exact ⟨hrestorable, rfl⟩
  · rintro ⟨hrestorable, rfl⟩
    exact ⟨_, ⟨hrestorable, rfl⟩, rfl⟩

theorem unwire_shortEntries {packages : List (WheelPackage Name Version Location Marker)}
    {entries result :
      List (Name × List (Dependency Name (PackageId Name Version Location) Marker))}
    (hknown : ∀ entry ∈ entries, Known packages entry.2)
    (hderived : ∀ entry ∈ entries, ∀ dep ∈ entry.2, format.Derived dep) :
    (entries.map (shortEntry packages)).mapM (format.unwireEntry (unambiguous packages)) =
        .ok result ↔
      (∀ entry ∈ entries, ∀ dep ∈ entry.2, Restorable packages dep.packageId) ∧
        result = entries :=
  mapM_map_eq_ok_self_iff fun entry hentry _ =>
    unwire_shortEntry (hknown entry hentry) (hderived entry hentry)

/-- The versions of the wheels are that of the package, if they are looked at. -/
def ConsistentVersions (format : LockFormat Name Version Location Marker Text)
    (package : WheelPackage Name Version Location Marker) : Prop :=
  format.skipWheelFilenameCheck = true ∨
    ∀ version ∈ package.id.version, ∀ wheel ∈ package.wheels,
      format.agrees version wheel = true

theorem checkWheels_shortPackage {packages : List (WheelPackage Name Version Location Marker)}
    {package : WheelPackage Name Version Location Marker} :
    format.checkWheels (format.shortPackage packages package) = .ok () ↔
      format.ConsistentVersions package := by
  rw [checkWheels, shortPackage, ConsistentVersions]
  by_cases hskip : format.skipWheelFilenameCheck = true
  · simp [hskip]
  · cases package.id.version with
    | none => simp [hskip]
    | some version =>
        simp only [hskip, Bool.false_eq_true, if_false, false_or, Option.mem_def,
          Option.some.injEq, forall_eq']
        rw [forM_eq_ok_iff]
        simp only [ite_eq_left_iff, reduceCtorEq, imp_false, not_not]

/-- The markers of forks as they are read. -/
def rereadMarkers (format : LockFormat Name Version Location Marker Text)
    (markers : List Marker) : List Marker :=
  ((format.simplifiedUniversalMarkers markers).filter fun marker =>
    (format.marker.tryToString marker).isSome).map format.complexify

/-- A package as it is read back. -/
def reread (format : LockFormat Name Version Location Marker Text)
    (package : Package Name (PackageId Name Version Location) Marker) :
    Package Name (PackageId Name Version Location) Marker :=
  { package with forkMarkers := format.rereadMarkers package.forkMarkers }

theorem unwire_shortPackage {packages : List (WheelPackage Name Version Location Marker)}
    {package result : WheelPackage Name Version Location Marker}
    (hcomplete : Complete packages package)
    (hderived : ∀ deps ∈ package.lists, ∀ dep ∈ deps, format.Derived dep) :
    format.unwirePackage (unambiguous packages) (format.shortPackage packages package) =
        .ok result ↔
      (format.ConsistentVersions package ∧
        ∀ deps ∈ package.lists, ∀ dep ∈ deps, Restorable packages dep.packageId) ∧
      result = ⟨format.reread package.toPackage, package.wheels, package.wheelHashes_eq⟩ := by
  have hlists : ∀ P : List (Dependency Name (PackageId Name Version Location) Marker) → Prop,
      (∀ deps ∈ package.lists, P deps) ↔ P package.dependencies ∧
        (∀ entry ∈ package.optionalDependencies, P entry.2) ∧
          ∀ entry ∈ package.dependencyGroups, P entry.2 := by
    intro P
    simp only [Package.lists, List.mem_cons, List.mem_append, List.mem_map, or_imp, forall_and,
      forall_eq, forall_exists_index, and_imp, forall_apply_eq_imp_iff₂]
  obtain ⟨hknown, hknownOptional, hknownGroups⟩ := (hlists _).mp hcomplete.known
  obtain ⟨hderived, hderivedOptional, hderivedGroups⟩ := (hlists _).mp hderived
  have hdeps : ∀ deps, (package.dependencies.map (shortDependency packages)).mapM
      (format.unwireDependency (unambiguous packages)) = .ok deps ↔
        (∀ dep ∈ package.dependencies, Restorable packages dep.packageId) ∧
          deps = package.dependencies :=
    fun _ => mapM_map_eq_ok_self_iff fun dep hdep _ =>
      unwire_shortDependency (hknown dep hdep) (hderived dep hdep)
  have hoptional : ∀ entries, (package.optionalDependencies.map (shortEntry packages)).mapM
      (format.unwireEntry (unambiguous packages)) = .ok entries ↔
        (∀ entry ∈ package.optionalDependencies, ∀ dep ∈ entry.2,
          Restorable packages dep.packageId) ∧ entries = package.optionalDependencies :=
    fun _ => unwire_shortEntries hknownOptional hderivedOptional
  have hgroups : ∀ entries, (package.dependencyGroups.map (shortEntry packages)).mapM
      (format.unwireEntry (unambiguous packages)) = .ok entries ↔
        (∀ entry ∈ package.dependencyGroups, ∀ dep ∈ entry.2,
          Restorable packages dep.packageId) ∧ entries = package.dependencyGroups :=
    fun _ => unwire_shortEntries hknownGroups hderivedGroups
  have hmarkers : (format.shortPackage packages package).forkMarkers.map format.complexify =
      format.rereadMarkers package.forkMarkers := rfl
  rw [hlists, unwirePackage]
  simp only [bind_eq_ok_iff, pure, Except.pure, Except.ok.injEq]
  rw [hmarkers]
  simp only [shortPackage, hdeps, hoptional, hgroups]
  constructor
  · rintro ⟨_, hversions, _, ⟨hone, rfl⟩, _, ⟨htwo, rfl⟩, _, ⟨hthree, rfl⟩, rfl⟩
    refine ⟨⟨checkWheels_shortPackage.mp hversions, hone, htwo, hthree⟩, ?_⟩
    simp only [reread, ← package.wheelHashes_eq]
  · rintro ⟨⟨hversions, hone, htwo, hthree⟩, rfl⟩
    refine ⟨(), checkWheels_shortPackage.mpr hversions, _, ⟨hone, rfl⟩, _, ⟨htwo, rfl⟩, _, ⟨hthree, rfl⟩, ?_⟩
    simp only [reread, ← package.wheelHashes_eq]

/-- The packages as they were read, up to the data that is only stored. -/
structure SameDependencies
    (package package' : Package Name (PackageId Name Version Location) Marker) : Prop where
  id : package.id = package'.id
  dependencies : package.dependencies = package'.dependencies
  optionalDependencies : package.optionalDependencies = package'.optionalDependencies
  dependencyGroups : package.dependencyGroups = package'.dependencyGroups

/-- What becomes of written packages: they are checked, and a lock is made of them. -/
theorem readLock_writePackages {packages : List (WheelPackage Name Version Location Marker)}
    (hcomplete : ∀ package ∈ packages, Complete packages package)
    (hderived : ∀ package ∈ packages, ∀ deps ∈ package.lists, ∀ dep ∈ deps, format.Derived dep)
    {lock : Lock Name (PackageId Name Version Location) Marker} :
    format.readLock (format.writePackages packages) = .ok lock ↔
      (∀ package ∈ packages, format.ConsistentVersions package ∧
        ∀ deps ∈ package.lists, ∀ dep ∈ deps, Restorable packages dep.packageId) ∧
      Lock.new (packages.map fun package => format.reread package.toPackage) = .ok lock := by
  have hread : (format.writePackages packages).mapM format.readPackage =
      some (packages.map (format.shortPackage packages)) :=
    mapM_map_eq_some fun package hpackage =>
      format.readPackage_writePackage (hcomplete package hpackage)
  have hids : (packages.map (format.shortPackage packages)).map (·.id) =
      packages.map (·.id) := by
    rw [List.map_map]
    rfl
  have hunwire : ∀ result, (packages.map (format.shortPackage packages)).mapM
      (format.unwirePackage (unambiguous packages)) = .ok result ↔
        (∀ package ∈ packages, format.ConsistentVersions package ∧
          ∀ deps ∈ package.lists, ∀ dep ∈ deps, Restorable packages dep.packageId) ∧
        result = packages.map fun package =>
          ⟨format.reread package.toPackage, package.wheels, package.wheelHashes_eq⟩ :=
    fun _ => mapM_map_eq_ok_iff fun package hpackage _ =>
      unwire_shortPackage (hcomplete package hpackage) (hderived package hpackage)
  have hnew : ∀ packages, (Lock.new packages).mapError LockFileError.lock =
      (.ok lock : Except (LockFileError Name Version Location Marker) _) ↔
        Lock.new packages = .ok lock := by
    intro packages
    cases Lock.new packages with
    | error e => simp [Except.mapError]
    | ok lock' => simp [Except.mapError]
  rw [readLock, hread]
  simp only [hids, bind_eq_ok_iff, Except.ok.injEq, exists_eq_left', hnew]
  change (∃ result, (packages.map (format.shortPackage packages)).mapM
    (format.unwirePackage (unambiguous packages)) = .ok result ∧ _) ↔ _
  simp only [hunwire]
  constructor
  · rintro ⟨_, ⟨hgood, rfl⟩, hlock⟩
    rw [List.map_map] at hlock
    exact ⟨hgood, hlock⟩
  · rintro ⟨hgood, hlock⟩
    refine ⟨_, ⟨hgood, rfl⟩, ?_⟩
    rwa [List.map_map]

/-- Nothing is missing in the packages of a lock. -/
theorem complete_of_canonical {lock : Lock Name (PackageId Name Version Location) Marker}
    {packages : List (WheelPackage Name Version Location Marker)} (hcanonical : lock.Canonical)
    (hpackages : packages.map (·.toPackage) = lock.packages)
    (hnonempty : ∀ package ∈ packages,
      ∀ entry ∈ package.optionalDependencies ++ package.dependencyGroups, entry.2 ≠ [])
    {package : WheelPackage Name Version Location Marker} (hpackage : package ∈ packages) :
    Complete packages package := by
  have hmem : package.toPackage ∈ lock.packages := by
    rw [← hpackages]
    exact List.mem_map_of_mem hpackage
  constructor
  case known =>
    intro deps hdeps dep hdep
    have hid := hcanonical.dependencies _ hmem deps hdeps dep hdep
    rwa [← hpackages, List.map_map] at hid
  case optional =>
    exact fun entry hentry => hnonempty package hpackage entry (List.mem_append_left _ hentry)
  case groups =>
    exact fun entry hentry => hnonempty package hpackage entry (List.mem_append_right _ hentry)

/-- A written lock is read back with the same dependencies iff its wheels pass the check of
their versions and the reader can tell that a version is missing. -/
theorem readLock_writePackages_iff
    {inputs : List (Package Name (PackageId Name Version Location) Marker)}
    {lock : Lock Name (PackageId Name Version Location) Marker}
    {packages : List (WheelPackage Name Version Location Marker)}
    (hnew : Lock.new inputs = .ok lock) (hcanonical : lock.Canonical)
    (hpackages : packages.map (·.toPackage) = lock.packages)
    (hnonempty : ∀ package ∈ packages,
      ∀ entry ∈ package.optionalDependencies ++ package.dependencyGroups, entry.2 ≠ [])
    (hderived : ∀ package ∈ packages, ∀ deps ∈ package.lists, ∀ dep ∈ deps,
      format.Derived dep) :
    (∃ lock', format.readLock (format.writePackages packages) = .ok lock' ∧
        List.Forall₂ SameDependencies lock'.packages lock.packages) ↔
      ∀ package ∈ packages, format.ConsistentVersions package ∧
        ∀ deps ∈ package.lists, ∀ dep ∈ deps, Restorable packages dep.packageId := by
  have hcomplete : ∀ package ∈ packages, Complete packages package :=
    fun _ hpackage => complete_of_canonical hcanonical hpackages hnonempty hpackage
  have hreread : Lock.new (packages.map fun package => format.reread package.toPackage) =
      .ok ⟨lock.packages.map format.reread, lock.byId⟩ := by
    have hsame : packages.map (fun package => format.reread package.toPackage) =
        lock.packages.map format.reread := by
      rw [← hpackages, List.map_map]
      rfl
    rw [hsame]
    exact Lock.new_map_of_canonical hnew hcanonical fun package => ⟨_, rfl⟩
  have hrestored : List.Forall₂ SameDependencies (lock.packages.map format.reread)
      lock.packages := by
    rw [List.forall₂_map_left_iff, List.forall₂_same]
    exact fun package _ => ⟨rfl, rfl, rfl, rfl⟩
  simp only [readLock_writePackages hcomplete hderived]
  constructor
  · rintro ⟨_, ⟨hgood, _⟩, _⟩
    exact hgood
  · intro hgood
    exact ⟨_, ⟨hgood, hreread⟩, hrestored⟩

/-! ## Two versions of a package -/

section Example

/-- A text, or an inline table with one entry. -/
abbrev TomlValue := String ⊕ SourceKind × String

def textForm : TextForm String TomlValue where
  write := .inl
  read value := value.getLeft?
  read_write _ := rfl

def versionForm : TextForm ℕ TomlValue where
  write version := .inl (Nat.repr version)
  read value := value.getLeft?.bind String.toNat?
  read_write := Nat.toNat?_repr

def sourceForm : TextForm (Source String) TomlValue where
  write source := .inr (source.kind, source.location)
  read value := value.getRight?.map fun entry => ⟨entry.1, entry.2⟩
  read_write _ := rfl

/-- The marker that is always true is the empty text. -/
def markerForm : MarkerForm String TomlValue where
  always := ""
  tryToString marker := if marker = "" then none else some (.inl marker)
  read value := value.getLeft?
  eq_always marker htext := by
    by_contra hne
    rw [if_neg hne] at htext
    cases htext
  read_tryToString marker text htext := by
    by_cases hempty : marker = ""
    · simp [hempty] at htext
    · rw [if_neg hempty, Option.some.injEq] at htext
      rw [← htext]
      rfl

def tomlFormat : LockFormat String ℕ String String TomlValue where
  name := textForm
  version := versionForm
  source := sourceForm
  marker := markerForm
  complexify := id
  simplifiedUniversalMarkers := id
  withoutLocal := id
  skipWheelFilenameCheck := false

/-- An editable project with a dynamic version. -/
def appId : PackageId String ℕ String :=
  ⟨"app", none, ⟨.editable, "."⟩⟩

def torchId (version : ℕ) : PackageId String ℕ String :=
  ⟨"torch", some version, ⟨.registry, "https://pypi.org/simple"⟩⟩

/-- A package of `torch` with a wheel. -/
def torch (version wheelVersion : ℕ) : WheelPackage String ℕ String String :=
  ⟨⟨torchId version, [true], [], [], [], []⟩, [⟨wheelVersion, true⟩], rfl⟩

/-- A project that depends on one of two versions of `torch`; the version of the wheel of the
other one is given. -/
def twoVersions (wheelVersion : ℕ) : List (WheelPackage String ℕ String String) :=
  [⟨⟨appId, [], [], [⟨torchId 2, ∅, "", ""⟩], [], []⟩, [], rfl⟩, torch 2 2,
    torch 3 wheelVersion]

theorem twoVersions_lists {wheelVersion : ℕ} {package : WheelPackage String ℕ String String}
    (hpackage : package ∈ twoVersions wheelVersion)
    {deps : List (Dependency String (PackageId String ℕ String) String)}
    (hdeps : deps ∈ package.lists) : deps = [] ∨ deps = [⟨torchId 2, ∅, "", ""⟩] := by
  simp only [twoVersions, torch, List.mem_cons, List.not_mem_nil, or_false] at hpackage
  rcases hpackage with rfl | rfl | rfl
  · exact Or.inr (by simpa [Package.lists] using hdeps)
  · exact Or.inl (by simpa [Package.lists] using hdeps)
  · exact Or.inl (by simpa [Package.lists] using hdeps)

theorem twoVersions_ids (wheelVersion : ℕ) :
    (((twoVersions wheelVersion).map (·.toPackage)).map (·.id)).Pairwise (· < ·) := by
  have happ : ∀ version, appId < torchId version := by
    intro version
    have hname : "app" < "torch" := by decide
    change appId.key < (torchId version).key
    simp [PackageId.key, appId, torchId, Prod.Lex.toLex_lt_toLex, hname]
  have htorch : torchId 2 < torchId 3 := by
    have hversion : (WithBot.some 2 : WithBot ℕ) < WithBot.some 3 := by decide
    change (torchId 2).key < (torchId 3).key
    rw [PackageId.key, PackageId.key, Prod.Lex.toLex_lt_toLex, Prod.Lex.toLex_lt_toLex]
    exact Or.inr ⟨rfl, Or.inl hversion⟩
  simp [twoVersions, torch, happ, htorch]

/-- The lock of the packages. -/
theorem new_twoVersions (wheelVersion : ℕ) : ∃ lock,
    Lock.new ((twoVersions wheelVersion).map (·.toPackage)) = .ok lock ∧ lock.Canonical ∧
      (twoVersions wheelVersion).map (·.toPackage) = lock.packages := by
  have hlists : ∀ package ∈ (twoVersions wheelVersion).map (·.toPackage),
      ∀ deps ∈ package.lists, deps = [] ∨ deps = [⟨torchId 2, ∅, "", ""⟩] := by
    intro package hpackage deps hdeps
    obtain ⟨original, horiginal, rfl⟩ := List.mem_map.mp hpackage
    exact twoVersions_lists horiginal hdeps
  have hids := twoVersions_ids wheelVersion
  generalize hpackages : (twoVersions wheelVersion).map (·.toPackage) = packages at hlists hids ⊢
  have hsorted : Lock.sortedPackages packages = packages := by
    apply Lock.sortedPackages_eq_self _ hids
    intro package hpackage deps hdeps
    rcases hlists package hpackage deps hdeps with rfl | rfl <;> simp
  have hprune : Lock.prunePackages packages = packages := by
    apply Lock.prunePackages_eq_self
    intro package hpackage deps hdeps dep hdep extra hextra
    rcases hlists package hpackage deps hdeps with rfl | rfl
    · simp at hdep
    · rw [List.mem_singleton.mp hdep] at hextra
      simp at hextra
  have hnew : Lock.new packages = .ok ⟨packages, Lock.positions packages⟩ := by
    rw [Lock.new_eq_ok_iff, hsorted, hprune]
    refine ⟨?_, hids.imp fun h => h.ne, ?_, rfl⟩
    · intro package hpackage deps hdeps
      rcases hlists package hpackage deps hdeps with rfl | rfl <;> simp
    · intro package hpackage
      rw [Lock.checkPackage_eq_ok_iff]
      constructor
      · intro deps hdeps dep hdep
        rcases hlists package hpackage deps hdeps with rfl | rfl
        · simp at hdep
        · have hlookup : (Lock.positions packages).lookup (torchId 2) = some 1 := by
            rw [Lock.lookup_positions (hids.imp fun h => h.ne), ← hpackages]
            exact ⟨_, rfl, rfl⟩
          rw [List.mem_singleton.mp hdep, hlookup]
          rfl
      · rw [← hpackages] at hpackage
        simp only [twoVersions, torch, List.map_cons, List.map_nil, List.mem_cons,
          List.not_mem_nil, or_false] at hpackage
        rcases hpackage with rfl | rfl | rfl <;>
          simp [LockId.requiresHash, Source.requiresHash, appId, torchId]
  refine ⟨_, hnew, ?_, rfl⟩
  apply Lock.canonical_of_new hnew
  intro package hpackage deps hdeps
  rcases hlists package hpackage deps hdeps with rfl | rfl <;> simp

theorem twoVersions_nonempty {wheelVersion : ℕ} {package : WheelPackage String ℕ String String}
    (hpackage : package ∈ twoVersions wheelVersion) :
    ∀ entry ∈ package.optionalDependencies ++ package.dependencyGroups, entry.2 ≠ [] := by
  simp only [twoVersions, torch, List.mem_cons, List.not_mem_nil, or_false] at hpackage
  rcases hpackage with rfl | rfl | rfl <;> simp

theorem twoVersions_derived {wheelVersion : ℕ} {package : WheelPackage String ℕ String String}
    (hpackage : package ∈ twoVersions wheelVersion)
    {deps : List (Dependency String (PackageId String ℕ String) String)}
    (hdeps : deps ∈ package.lists) {dep : Dependency String (PackageId String ℕ String) String}
    (hdep : dep ∈ deps) : tomlFormat.Derived dep := by
  rcases twoVersions_lists hpackage hdeps with rfl | rfl
  · simp at hdep
  · rw [List.mem_singleton.mp hdep]
    rfl

/-- A lock with a wheel of another version is written and not read back. -/
theorem readLock_otherVersion : ∃ lock,
    Lock.new ((twoVersions 4).map (·.toPackage)) = .ok lock ∧ lock.Canonical ∧
      (twoVersions 4).map (·.toPackage) = lock.packages ∧
      (∀ package ∈ twoVersions 4,
        ∀ entry ∈ package.optionalDependencies ++ package.dependencyGroups, entry.2 ≠ []) ∧
      (∀ package ∈ twoVersions 4, ∀ deps ∈ package.lists, ∀ dep ∈ deps,
        tomlFormat.Derived dep) ∧
      ∀ lock', tomlFormat.readLock (tomlFormat.writePackages (twoVersions 4)) ≠ .ok lock' := by
  obtain ⟨lock, hnew, hcanonical, hpackages⟩ := new_twoVersions 4
  refine ⟨lock, hnew, hcanonical, hpackages, fun _ => twoVersions_nonempty,
    fun _ hpackage _ hdeps _ => twoVersions_derived hpackage hdeps, ?_⟩
  intro lock' hread
  have hcomplete : ∀ package ∈ twoVersions 4, Complete (twoVersions 4) package :=
    fun _ => complete_of_canonical hcanonical hpackages fun _ => twoVersions_nonempty
  have hgood := ((readLock_writePackages hcomplete fun _ hpackage _ hdeps _ =>
    twoVersions_derived hpackage hdeps).mp hread).1
  have hversions := (hgood (torch 3 4) (by simp [twoVersions])).1
  simp [ConsistentVersions, torch, torchId, tomlFormat, agrees] at hversions

/-- With a wheel of the right version it is. -/
theorem readLock_writePackages_iff_sameVersion : ∃ lock lock',
    Lock.new ((twoVersions 3).map (·.toPackage)) = .ok lock ∧
      tomlFormat.readLock (tomlFormat.writePackages (twoVersions 3)) = .ok lock' ∧
        List.Forall₂ SameDependencies lock'.packages lock.packages := by
  obtain ⟨lock, hnew, hcanonical, hpackages⟩ := new_twoVersions 3
  have hread := (readLock_writePackages_iff hnew hcanonical hpackages
    (fun _ => twoVersions_nonempty)
    fun _ hpackage _ hdeps _ => twoVersions_derived hpackage hdeps).mpr ?_
  · obtain ⟨lock', hlock', hsame⟩ := hread
    exact ⟨lock, lock', hnew, hlock', hsame⟩
  · intro package hpackage
    constructor
    · simp only [twoVersions, torch, List.mem_cons, List.not_mem_nil, or_false] at hpackage
      rcases hpackage with rfl | rfl | rfl <;>
        simp [ConsistentVersions, appId, torchId, tomlFormat, agrees]
    · intro deps hdeps dep hdep hnone
      rcases twoVersions_lists hpackage hdeps with rfl | rfl
      · simp at hdep
      · rw [List.mem_singleton.mp hdep] at hnone
        cases hnone

end Example

end LockFormat

end Uv.Resolver
