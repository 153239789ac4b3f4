import Uv.Resolver.Lock

/-!
# The lock file

How the packages of a lock are written as tables and read back.  Where only one package has
a name, its version and source are left out of the dependencies on it.

Texts are of any type and what is written as a text is read back.  A field that is not
written has no text, or no elements.  The metadata and the source distribution of a package
are stored as they are and are left out.
-/

namespace Uv.Resolver

/-! ## Text forms -/

/-- A text form from which the value is read back. -/
structure TextForm (α Text : Type) where
  write : α → Text
  read : Text → Option α
  read_write : ∀ value, read (write value) = some value

/-- The text form of markers.  The marker that is always true has none. -/
structure MarkerForm (Marker Text : Type) where
  always : Marker
  tryToString : Marker → Option Text
  read : Text → Option Marker
  eq_always : ∀ marker, tryToString marker = none → marker = always
  read_tryToString : ∀ marker text, tryToString marker = some text → read text = some marker

/-! ## Package ids -/

inductive SourceKind where
  | registry | git | direct | path | directory | editable | virtual
  deriving DecidableEq

/-- The source of a package, with what its registry, URL or path is. -/
structure Source (Location : Type) where
  kind : SourceKind
  location : Location

/-- The version is missing for dynamic source trees. -/
structure PackageId (Name Version Location : Type) where
  name : Name
  version : Option Version
  source : Source Location

namespace Source

variable {Location : Type}

def isSourceTree (source : Source Location) : Bool :=
  match source.kind with
  | .directory | .editable | .virtual => true
  | .path | .git | .registry | .direct => false

def requiresHash (source : Source Location) : Option Bool :=
  match source.kind with
  | .registry => none
  | .direct | .path => some true
  | .git | .directory | .editable | .virtual => some false

end Source

variable {Name Version Location Marker Text : Type} [LinearOrder Name] [LinearOrder Version]
  [LinearOrder Location] [LinearOrder Marker]

namespace PackageId

/-- The fields in the order in which they are compared. -/
def key (id : PackageId Name Version Location) :
    Name ×ₗ WithBot Version ×ₗ ℕ ×ₗ Location :=
  toLex (id.name, toLex (id.version, toLex (id.source.kind.ctorIdx, id.source.location)))

omit [LinearOrder Name] [LinearOrder Version] [LinearOrder Location] in
theorem key_injective : Function.Injective (key : PackageId Name Version Location → _) := by
  rintro ⟨name, version, kind, location⟩ ⟨name', version', kind', location'⟩ heq
  simp only [key, EmbeddingLike.apply_eq_iff_eq] at heq
  have hname : name = name' := congrArg Prod.fst heq
  have hrest := congrArg Prod.snd heq
  have hversion : version = version' := congrArg Prod.fst hrest
  have hsource := congrArg Prod.snd hrest
  have hkind : kind.ctorIdx = kind'.ctorIdx := congrArg Prod.fst hsource
  have hlocation : location = location' := congrArg Prod.snd hsource
  have hsame : kind = kind' := by
    revert hkind
    cases kind <;> cases kind' <;> decide
  rw [hname, hversion, hsame, hlocation]

instance : LinearOrder (PackageId Name Version Location) :=
  LinearOrder.lift' key key_injective

instance : LockId (PackageId Name Version Location) Name :=
  ⟨(·.name), fun id => id.source.requiresHash⟩

end PackageId

/-! ## Packages with their wheels -/

/-- The version in the filename of a wheel and whether the wheel has a hash. -/
structure Wheel (Version : Type) where
  version : Version
  hash : Bool

/-- A package in the lock with its wheels. -/
structure WheelPackage (Name Version Location Marker : Type) extends
    Package Name (PackageId Name Version Location) Marker where
  wheels : List (Wheel Version)
  wheelHashes_eq : wheelHashes = wheels.map (·.hash)

/-! ## Tables -/

/-- The fields of a package id. -/
structure IdTable (Text : Type) where
  name : Text
  version : Option Text
  source : Option Text

structure DependencyTable (Text : Type) where
  packageId : IdTable Text
  extra : Option (List Text)
  marker : Option Text

structure PackageTable (Version Text : Type) where
  id : IdTable Text
  wheels : List (Wheel Version)
  resolutionMarkers : List Text
  dependencies : List (DependencyTable Text)
  optionalDependencies : List (Text × List (DependencyTable Text))
  devDependencies : List (Text × List (DependencyTable Text))

/-- What writing and reading depend on: the text forms, the Python requirement and the
environment flags.  `complexify` is `into_marker` for the Python requirement. -/
structure LockFormat (Name Version Location Marker Text : Type) where
  name : TextForm Name Text
  version : TextForm Version Text
  source : TextForm (Source Location) Text
  marker : MarkerForm Marker Text
  complexify : Marker → Marker
  simplifiedUniversalMarkers : List Marker → List Marker
  withoutLocal : Version → Version
  skipWheelFilenameCheck : Bool

/-! ## Writing -/

/-- The number of packages with a name. -/
def distCountByName (packages : List (WheelPackage Name Version Location Marker))
    (name : Name) : Option ℕ :=
  match packages.countP fun dist => dist.id.name = name with
  | 0 => none
  | count => some count

namespace LockFormat

variable (format : LockFormat Name Version Location Marker Text)

/-- `PackageId::to_toml`: with counts, the version and the source are only written for names
that several packages have. -/
def writeId (distCountByName : Option (Name → Option ℕ)) (id : PackageId Name Version Location) :
    IdTable Text :=
  let count := distCountByName.bind fun map => map id.name
  if (count.map fun count => decide (1 < count)).getD true then
    ⟨format.name.write id.name, id.version.map format.version.write,
      some (format.source.write id.source)⟩
  else ⟨format.name.write id.name, none, none⟩

local instance isTrans_name : IsTrans Name (· ≤ ·) := inferInstance

local instance antisymm_name : Std.Antisymm fun name other : Name => name ≤ other := inferInstance

/-- `Dependency::to_toml`. -/
def writeDependency (distCountByName : Name → Option ℕ)
    (dep : Dependency Name (PackageId Name Version Location) Marker) : DependencyTable Text where
  packageId := format.writeId (some distCountByName) dep.packageId
  extra := if dep.extra = ∅ then none
    else some ((dep.extra.sort (· ≤ ·)).map format.name.write)
  marker := format.marker.tryToString dep.simplifiedMarker

/-- The entries of an optional or group table; empty lists are not written. -/
def writeEntries (distCountByName : Name → Option ℕ)
    (entries : List (Name × List (Dependency Name (PackageId Name Version Location) Marker))) :
    List (Text × List (DependencyTable Text)) :=
  (entries.filter fun entry => !entry.2.isEmpty).map fun entry =>
    (format.name.write entry.1, entry.2.map (format.writeDependency distCountByName))

/-- `Package::to_toml`. -/
def writePackage (distCountByName : Name → Option ℕ)
    (package : WheelPackage Name Version Location Marker) : PackageTable Version Text where
  id := format.writeId none package.id
  wheels := package.wheels
  resolutionMarkers :=
    (format.simplifiedUniversalMarkers package.forkMarkers).filterMap format.marker.tryToString
  dependencies := package.dependencies.map (format.writeDependency distCountByName)
  optionalDependencies := format.writeEntries distCountByName package.optionalDependencies
  devDependencies := format.writeEntries distCountByName package.dependencyGroups

/-- The packages in `Lock::to_toml`. -/
def writePackages (packages : List (WheelPackage Name Version Location Marker)) :
    List (PackageTable Version Text) :=
  packages.map (format.writePackage (distCountByName packages))

end LockFormat

/-! ## Reading -/

structure PackageIdForDependency (Name Version Location : Type) where
  name : Name
  version : Option Version
  source : Option (Source Location)

structure DependencyWire (Name Version Location Marker : Type) where
  packageId : PackageIdForDependency Name Version Location
  extra : Finset Name
  marker : Marker

structure PackageWire (Name Version Location Marker : Type) where
  id : PackageId Name Version Location
  wheels : List (Wheel Version)
  forkMarkers : List Marker
  dependencies : List (DependencyWire Name Version Location Marker)
  optionalDependencies : List (Name × List (DependencyWire Name Version Location Marker))
  dependencyGroups : List (Name × List (DependencyWire Name Version Location Marker))

inductive LockFileError (Name Version Location Marker : Type) where
  | toml
  | inconsistentVersions (name : Name) (version : Version) (wheel : Wheel Version)
  | missingDependencySource (name : Name)
  | missingDependencyVersion (name : Name)
  | lock (error : LockError Name (PackageId Name Version Location) Marker)

/-- A marker that is not written is always true. -/
def MarkerForm.readDefault (form : MarkerForm Marker Text) : Option Text → Option Marker
  | none => some form.always
  | some text => form.read text

/-- An optional text, read if it is there. -/
def TextForm.readOption {α : Type} (form : TextForm α Text) :
    Option Text → Option (Option α)
  | none => some none
  | some text => (form.read text).map some

namespace LockFormat

variable (format : LockFormat Name Version Location Marker Text)

/-- The id in a package table; the source must be there. -/
def readId (table : IdTable Text) : Option (PackageId Name Version Location) := do
  let name ← format.name.read table.name
  let version ← format.version.readOption table.version
  let source ← table.source
  let source ← format.source.read source
  pure ⟨name, version, source⟩

def readIdForDependency (table : IdTable Text) :
    Option (PackageIdForDependency Name Version Location) := do
  let name ← format.name.read table.name
  let version ← format.version.readOption table.version
  let source ← format.source.readOption table.source
  pure ⟨name, version, source⟩

def readDependency (table : DependencyTable Text) :
    Option (DependencyWire Name Version Location Marker) := do
  let packageId ← format.readIdForDependency table.packageId
  let extra ← (table.extra.getD []).mapM format.name.read
  let marker ← format.marker.readDefault table.marker
  pure ⟨packageId, extra.toFinset, marker⟩

def readEntry (entry : Text × List (DependencyTable Text)) :
    Option (Name × List (DependencyWire Name Version Location Marker)) := do
  let name ← format.name.read entry.1
  let deps ← entry.2.mapM format.readDependency
  pure (name, deps)

def readPackage (table : PackageTable Version Text) :
    Option (PackageWire Name Version Location Marker) := do
  let id ← format.readId table.id
  let forkMarkers ← table.resolutionMarkers.mapM format.marker.read
  let dependencies ← table.dependencies.mapM format.readDependency
  let optionalDependencies ← table.optionalDependencies.mapM format.readEntry
  let dependencyGroups ← table.devDependencies.mapM format.readEntry
  pure ⟨id, table.wheels, forkMarkers, dependencies, optionalDependencies, dependencyGroups⟩

end LockFormat

/-! ## `TryFrom<LockWire> for Lock` -/

/-- The packages that are the only ones of their name, and the other names. -/
structure NameIndex (Name Id : Type) where
  unambiguousPackageIds : List (Name × Id)
  ambiguous : List Name

namespace NameIndex

local instance lawfulBEq_name : LawfulBEq Name := inferInstance

/-- One round of the loop over the packages. -/
def note (index : NameIndex Name (PackageId Name Version Location))
    (id : PackageId Name Version Location) : NameIndex Name (PackageId Name Version Location) :=
  if id.name ∈ index.ambiguous then index
  else
    match index.unambiguousPackageIds.lookup id.name with
    | some other =>
        ⟨index.unambiguousPackageIds.filter fun entry => entry.1 ≠ id.name,
          other.name :: index.ambiguous⟩
    | none => ⟨(id.name, id) :: index.unambiguousPackageIds, index.ambiguous⟩

def ofIds (ids : List (PackageId Name Version Location)) :
    NameIndex Name (PackageId Name Version Location) :=
  ids.foldl note ⟨[], []⟩

end NameIndex

/-- `PackageIdForDependency::unwire`. -/
def PackageIdForDependency.unwire (id : PackageIdForDependency Name Version Location)
    (unambiguousPackageIds : List (Name × PackageId Name Version Location)) :
    Except (LockFileError Name Version Location Marker) (PackageId Name Version Location) := do
  let unambiguousPackageId := unambiguousPackageIds.lookup id.name
  let source ← match id.source with
    | some source => .ok source
    | none =>
        match unambiguousPackageId with
        | some packageId => .ok packageId.source
        | none => .error (.missingDependencySource id.name)
  let version ← match id.version with
    | some version => .ok (some version)
    | none =>
        match unambiguousPackageId with
        | some packageId => .ok packageId.version
        | none =>
            -- A source tree without a version has a dynamic version.
            if source.isSourceTree then .ok none
            else .error (.missingDependencyVersion id.name)
  pure ⟨id.name, version, source⟩

namespace LockFormat

variable (format : LockFormat Name Version Location Marker Text)

/-- `DependencyWire::unwire`. -/
def unwireDependency (unambiguousPackageIds : List (Name × PackageId Name Version Location))
    (dep : DependencyWire Name Version Location Marker) :
    Except (LockFileError Name Version Location Marker)
      (Dependency Name (PackageId Name Version Location) Marker) := do
  let packageId ← dep.packageId.unwire unambiguousPackageIds
  pure ⟨packageId, dep.extra, dep.marker, format.complexify dep.marker⟩

def unwireEntry (unambiguousPackageIds : List (Name × PackageId Name Version Location))
    (entry : Name × List (DependencyWire Name Version Location Marker)) :
    Except (LockFileError Name Version Location Marker)
      (Name × List (Dependency Name (PackageId Name Version Location) Marker)) := do
  let deps ← entry.2.mapM (format.unwireDependency unambiguousPackageIds)
  pure (entry.1, deps)

/-- Whether the version of a wheel is that of its package. -/
def agrees (version : Version) (wheel : Wheel Version) : Bool :=
  version = wheel.version || version = format.withoutLocal wheel.version

/-- The consistency check in `PackageWire::unwire`. -/
def checkWheels (package : PackageWire Name Version Location Marker) :
    Except (LockFileError Name Version Location Marker) Unit :=
  if format.skipWheelFilenameCheck then .ok ()
  else
    match package.id.version with
    | some version => package.wheels.forM fun wheel =>
        if format.agrees version wheel then .ok ()
        else .error (.inconsistentVersions package.id.name version wheel)
    | none => .ok ()

/-- `PackageWire::unwire`. -/
def unwirePackage (unambiguousPackageIds : List (Name × PackageId Name Version Location))
    (package : PackageWire Name Version Location Marker) :
    Except (LockFileError Name Version Location Marker)
      (WheelPackage Name Version Location Marker) := do
  format.checkWheels package
  let dependencies ← package.dependencies.mapM (format.unwireDependency unambiguousPackageIds)
  let optionalDependencies ←
    package.optionalDependencies.mapM (format.unwireEntry unambiguousPackageIds)
  let dependencyGroups ←
    package.dependencyGroups.mapM (format.unwireEntry unambiguousPackageIds)
  pure ⟨⟨package.id, package.wheels.map (·.hash), package.forkMarkers.map format.complexify,
    dependencies, optionalDependencies, dependencyGroups⟩, package.wheels, rfl⟩

/-- The packages of a lock file as a lock. -/
def readLock (tables : List (PackageTable Version Text)) :
    Except (LockFileError Name Version Location Marker)
      (Lock Name (PackageId Name Version Location) Marker) := do
  let wires ← match tables.mapM format.readPackage with
    | some wires => .ok wires
    | none => .error .toml
  let unambiguousPackageIds := (NameIndex.ofIds (wires.map (·.id))).unambiguousPackageIds
  let packages ← wires.mapM (format.unwirePackage unambiguousPackageIds)
  (Lock.new (packages.map (·.toPackage))).mapError .lock

end LockFormat

end Uv.Resolver
