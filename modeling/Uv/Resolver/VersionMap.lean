import Uv.Core.SortedMap
import Uv.DistributionTypes.PrioritizedDist

/-!
# Version maps

The distributions of a package by version, with two summaries: whether a version is stable, and
whether one is local.  A map is built from the metadata of an index, from a flat index, or from
both.

What a lazy map makes of the files of a version is a function here.
-/

namespace Uv.Resolver

open Uv.Core Uv.DistributionTypes Uv.Pep440

section Maps

variable (Dist : Type)

/-- A distribution of a lazy map; the index refers to the simple metadata. -/
inductive LazyPrioritizedDist where
  | onlyFlat (dist : Dist)
  | onlySimple (datumIndex : ℕ)
  | both (flat : Dist) (datumIndex : ℕ)

structure VersionMapEager where
  map : SortedMap ValidVersion Dist
  stable : Bool
  hasLocal : Bool

structure VersionMapLazy where
  map : SortedMap ValidVersion (LazyPrioritizedDist Dist)
  stable : Bool
  hasLocal : Bool
  /-- The files of a datum, added to a distribution; `none` when it stays empty. -/
  getSimple : Option Dist → ℕ → Option Dist

inductive VersionMap where
  | eager (map : VersionMapEager Dist)
  | lazy (map : VersionMapLazy Dist)

end Maps

namespace VersionMap

variable {Dist : Type}

def versions : VersionMap Dist → List ValidVersion
  | .eager map => map.map.keys
  | .lazy map => map.map.keys

/-- The map contains at least one stable version. -/
def stable : VersionMap Dist → Bool
  | .eager map => map.stable
  | .lazy map => map.stable

/-- The map contains at least one local version. -/
def hasLocal : VersionMap Dist → Bool
  | .eager map => map.hasLocal
  | .lazy map => map.hasLocal

end VersionMap

/-! ## Flat indexes -/

section Flat

variable {File HashDigest Marker : Type} [MarkerAlgebra Marker] [DecidableEq Marker]

/-- A file with its compatibility. -/
inductive FlatFile (File : Type) where
  | wheel (dist : RegistryBuiltWheel File) (compatibility : WheelCompatibility)
  | sourceDist (dist : RegistrySourceDist File) (compatibility : SourceDistCompatibility)

structure FlatIndexEntry (File : Type) where
  version : ValidVersion
  file : FlatFile File

abbrev FlatDistributions (Dist : Type) := SortedMap ValidVersion Dist

namespace FlatDistributions

def insertFile (file : FlatFile File) :
    Option (PrioritizedDist File HashDigest Marker) → PrioritizedDist File HashDigest Marker
  | none =>
      match file with
      | .wheel dist compatibility => .fromBuilt dist [] compatibility
      | .sourceDist dist compatibility => .fromSource dist [] compatibility
  | some existing =>
      match file with
      | .wheel dist compatibility => existing.insertBuilt dist [] compatibility
      | .sourceDist dist compatibility => existing.insertSource dist [] compatibility

def addFile (distributions : FlatDistributions (PrioritizedDist File HashDigest Marker))
    (entry : FlatIndexEntry File) : FlatDistributions (PrioritizedDist File HashDigest Marker) :=
  distributions.upsert entry.version (insertFile entry.file)

def fromEntries (entries : List (FlatIndexEntry File)) :
    FlatDistributions (PrioritizedDist File HashDigest Marker) :=
  entries.foldl addFile .empty

end FlatDistributions

end Flat

/-! ## Building a map -/

namespace VersionMap

variable {Dist : Type}

/-- The versions of the metadata of an index, which come out of a map. -/
structure SimpleDetailMetadata where
  versions : List ValidVersion
  distinct : versions.Pairwise fun version other => ¬ SameKey version other

/-- The loop over the simple metadata: the summaries and the map. -/
def simpleStep (state : Bool × Bool × SortedMap ValidVersion (LazyPrioritizedDist Dist))
    (datum : ValidVersion × ℕ) :
    Bool × Bool × SortedMap ValidVersion (LazyPrioritizedDist Dist) :=
  (state.1 || datum.1.val.isStable, state.2.1 || datum.1.val.isLocal,
    state.2.2.insert datum.1 (.onlySimple datum.2))

/-- A flat distribution next to what is there. -/
def addFlat (flat : Dist) : Option (LazyPrioritizedDist Dist) → LazyPrioritizedDist Dist
  | some (.onlySimple datumIndex) => .both flat datumIndex
  | _ => .onlyFlat flat

/-- The loop over the flat distributions; `none` stands for `unreachable!()`. -/
def flatStep (state : Bool × SortedMap ValidVersion (LazyPrioritizedDist Dist))
    (flat : ValidVersion × Dist) :
    Option (Bool × SortedMap ValidVersion (LazyPrioritizedDist Dist)) :=
  match (state.2.getKeyValue flat.1).map Prod.snd with
  | none | some (.onlySimple _) =>
      some (state.1 || flat.1.val.isStable, state.2.upsert flat.1 (addFlat flat.2))
  | some _ => none

def fromSimpleMetadata (simpleMetadata : SimpleDetailMetadata)
    (flatIndex : Option (FlatDistributions Dist)) (getSimple : Option Dist → ℕ → Option Dist) :
    Option (VersionMap Dist) :=
  let simple := simpleMetadata.versions.zipIdx.foldl simpleStep (false, false, .empty)
  let flat := (flatIndex.map SortedMap.entries).getD []
  (flat.foldlM flatStep (simple.1, simple.2.2)).map fun state =>
    .lazy ⟨state.2, state.1, simple.2.1, getSimple⟩

def eagerStep (state : VersionMapEager Dist) (entry : ValidVersion × Dist) :
    VersionMapEager Dist :=
  ⟨state.map.insert entry.1 entry.2, state.stable || entry.1.val.isStable,
    state.hasLocal || entry.1.val.isLocal⟩

def fromFlatMetadata {File HashDigest Marker : Type} [MarkerAlgebra Marker] [DecidableEq Marker]
    (flatMetadata : List (FlatIndexEntry File)) :
    VersionMap (PrioritizedDist File HashDigest Marker) :=
  .eager ((FlatDistributions.fromEntries flatMetadata).entries.foldl eagerStep
    ⟨.empty, false, false⟩)

/-- `From<FlatDistributions>`. -/
def ofFlatDistributions (flatIndex : FlatDistributions Dist) : VersionMap Dist :=
  .eager ⟨flatIndex, flatIndex.keys.any (·.val.isStable), flatIndex.keys.any (·.val.isLocal)⟩

/-! ## The summaries -/

/-- The summaries say what is in the map. -/
structure SummariesExact (map : VersionMap Dist) : Prop where
  stable : map.stable = true ↔ ∃ version ∈ map.versions, version.val.isStable = true
  hasLocal : map.hasLocal = true ↔ ∃ version ∈ map.versions, version.val.isLocal = true

theorem summariesExact_ofFlatDistributions (flatIndex : FlatDistributions Dist) :
    (ofFlatDistributions flatIndex).SummariesExact :=
  ⟨List.any_eq_true, List.any_eq_true⟩

theorem sortableTuple_localVersion (parts : VersionFull) :
    parts.sortableTuple.localVersion = parts.localVersion := by
  simp only [VersionFull.sortableTuple]
  split <;> rfl

/-- Versions of one position have the same local version. -/
theorem isLocal_eq_of_sameKey {version other : ValidVersion} (hsame : SameKey version other) :
    version.val.isLocal = other.val.isLocal := by
  have hkey : version.val.key = other.val.key := hsame
  simp only [Version.key, VersionFull.key, toLex_inj, Prod.mk.injEq] at hkey
  have htuple := congrArg SortableTuple.localVersion (Version.SortableTuple.key_inj.mp hkey.2.2)
  rw [sortableTuple_localVersion, sortableTuple_localVersion] at htuple
  rw [Version.isLocal, Version.isLocal, Version.localVersion_eq, Version.localVersion_eq, htuple]

/-! ### The simple metadata -/

theorem foldl_simpleStep (data : List (ValidVersion × ℕ)) (stable hasLocal : Bool)
    (map : SortedMap ValidVersion (LazyPrioritizedDist Dist)) :
    data.foldl simpleStep (stable, hasLocal, map) =
      (stable || data.any (·.1.val.isStable), hasLocal || data.any (·.1.val.isLocal),
        data.foldl (fun map datum => map.upsert datum.1 fun _ => .onlySimple datum.2) map) := by
  induction data generalizing stable hasLocal map with
  | nil => simp
  | cons datum data ih =>
      rw [List.foldl_cons, simpleStep, ih, List.any_cons, List.any_cons, Bool.or_assoc,
        Bool.or_assoc]
      rfl

/-- No flat distribution is in the map yet. -/
def AllSimple (map : SortedMap ValidVersion (LazyPrioritizedDist Dist)) : Prop :=
  ∀ entry ∈ map.entries, ∃ datumIndex, entry.2 = .onlySimple datumIndex

theorem allSimple_foldl (data : List (ValidVersion × ℕ))
    {map : SortedMap ValidVersion (LazyPrioritizedDist Dist)} (hmap : AllSimple map) :
    AllSimple
      (data.foldl (fun map datum => map.upsert datum.1 fun _ => .onlySimple datum.2) map) := by
  induction data generalizing map with
  | nil => exact hmap
  | cons datum data ih =>
      refine ih fun entry hentry => ?_
      rcases mem_upsertEntries hentry with hentry | ⟨_, hvalue⟩
      · exact hmap entry hentry
      · exact ⟨datum.2, hvalue⟩

/-! ### The flat distributions -/

/-- There is nothing for the version, or simple metadata. -/
def Free (map : SortedMap ValidVersion (LazyPrioritizedDist Dist)) (version : ValidVersion) :
    Prop :=
  ∀ entry, map.getKeyValue version = some entry → ∃ datumIndex, entry.2 = .onlySimple datumIndex

theorem AllSimple.free {map : SortedMap ValidVersion (LazyPrioritizedDist Dist)}
    (hmap : AllSimple map) (version : ValidVersion) : Free map version :=
  fun entry hentry => hmap entry (List.mem_of_find?_eq_some hentry)

theorem flatStep_eq {state : Bool × SortedMap ValidVersion (LazyPrioritizedDist Dist)}
    {flat : ValidVersion × Dist} (hfree : Free state.2 flat.1) : flatStep state flat =
      some (state.1 || flat.1.val.isStable, state.2.upsert flat.1 (addFlat flat.2)) := by
  rw [flatStep]
  cases hfound : state.2.getKeyValue flat.1 with
  | none => rfl
  | some entry =>
      obtain ⟨datumIndex, hvalue⟩ := hfree entry hfound
      simp only [Option.map_some, hvalue]

/-- Flat distributions of different versions never meet. -/
theorem foldlM_flatStep {flats : List (ValidVersion × Dist)}
    (hdistinct : flats.Pairwise fun flat other => ¬ SameKey flat.1 other.1)
    {state : Bool × SortedMap ValidVersion (LazyPrioritizedDist Dist)}
    (hfree : ∀ flat ∈ flats, Free state.2 flat.1) : flats.foldlM flatStep state =
      some (state.1 || flats.any (·.1.val.isStable),
        flats.foldl (fun map flat => map.upsert flat.1 (addFlat flat.2)) state.2) := by
  induction flats generalizing state with
  | nil => simp
  | cons flat flats ih =>
      obtain ⟨hflat, hflats⟩ := List.pairwise_cons.mp hdistinct
      rw [List.foldlM_cons, flatStep_eq (hfree flat List.mem_cons_self)]
      refine (ih hflats fun other hother => ?_).trans ?_
      · intro entry hentry
        refine hfree other (List.mem_cons_of_mem _ hother) entry ?_
        rwa [SortedMap.getKeyValue_upsert fun hsame => hflat other hother hsame.symm] at hentry
      · rw [List.any_cons, Bool.or_assoc]
        rfl

theorem distinct_entries {V : Type} (map : SortedMap ValidVersion V) :
    map.entries.Pairwise fun entry other => ¬ SameKey entry.1 other.1 :=
  map.sorted.imp fun hlt => hlt.ne

/-- The versions of the flat distributions that are given. -/
def flatVersions (flatIndex : Option (FlatDistributions Dist)) : List ValidVersion :=
  (flatIndex.map SortedMap.keys).getD []

theorem flatVersions_eq (flatIndex : Option (FlatDistributions Dist)) :
    flatVersions flatIndex = ((flatIndex.map SortedMap.entries).getD []).map Prod.fst := by
  cases flatIndex <;> rfl

/-- The map is built, and a version of both kinds is kept as the simple metadata has it. -/
theorem fromSimpleMetadata_eq (simpleMetadata : SimpleDetailMetadata)
    (flatIndex : Option (FlatDistributions Dist)) (getSimple : Option Dist → ℕ → Option Dist) :
    ∃ map, fromSimpleMetadata simpleMetadata flatIndex getSimple = some map ∧
      (map.stable = true ↔
        (∃ version ∈ simpleMetadata.versions, version.val.isStable = true) ∨
          ∃ version ∈ flatVersions flatIndex, version.val.isStable = true) ∧
      (map.hasLocal = true ↔ ∃ version ∈ simpleMetadata.versions, version.val.isLocal = true) ∧
      ∀ version, version ∈ map.versions ↔ version ∈ simpleMetadata.versions ∨
        version ∈ flatVersions flatIndex ∧
          ∀ other ∈ simpleMetadata.versions, ¬ SameKey other version := by
  have hzip : simpleMetadata.versions.zipIdx.map Prod.fst = simpleMetadata.versions :=
    List.zipIdx_map_fst 0 _
  have hanyZip (p : ValidVersion → Bool) :
      simpleMetadata.versions.zipIdx.any (p ·.1) = simpleMetadata.versions.any p := by
    rw [← hzip, List.any_map, hzip]
    rfl
  have hdistinct : simpleMetadata.versions.zipIdx.Pairwise
      fun datum other => ¬ SameKey datum.1 other.1 := by
    rw [← List.pairwise_map (f := Prod.fst) (R := fun version other => ¬ SameKey version other),
      hzip]
    exact simpleMetadata.distinct
  have hflat : ((flatIndex.map SortedMap.entries).getD []).Pairwise
      fun entry other => ¬ SameKey entry.1 other.1 := by
    cases flatIndex with
    | none => exact List.Pairwise.nil
    | some flatIndex => exact distinct_entries flatIndex
  have hempty :
      AllSimple (SortedMap.empty : SortedMap ValidVersion (LazyPrioritizedDist Dist)) := by
    simp [AllSimple, SortedMap.empty]
  have hsimple := allSimple_foldl simpleMetadata.versions.zipIdx hempty
  rw [fromSimpleMetadata, foldl_simpleStep, foldlM_flatStep hflat fun flat _ => hsimple.free flat.1]
  refine ⟨_, rfl, ?_, ?_, fun version => ?_⟩
  · change (false || simpleMetadata.versions.zipIdx.any (·.1.val.isStable) || _) = true ↔ _
    rw [hanyZip (·.val.isStable), Bool.false_or, Bool.or_eq_true, List.any_eq_true,
      flatVersions_eq]
    simp
  · change (false || simpleMetadata.versions.zipIdx.any (·.1.val.isLocal)) = true ↔ _
    rw [hanyZip (·.val.isLocal), Bool.false_or, List.any_eq_true]
  · have hkeys (k : ValidVersion) : k ∈ (simpleMetadata.versions.zipIdx.foldl
        (fun map datum => map.upsert datum.1 fun _ => .onlySimple datum.2)
        (SortedMap.empty (V := LazyPrioritizedDist Dist))).keys ↔
          k ∈ simpleMetadata.versions := by
      rw [SortedMap.mem_keys_foldl_upsert hdistinct]
      constructor
      · rintro (hk | ⟨datum, hdatum, rfl, -⟩)
        · exact absurd hk (by simp [SortedMap.keys, SortedMap.empty])
        · rw [← hzip]
          exact List.mem_map_of_mem hdatum
      · intro hk
        rw [← hzip] at hk
        obtain ⟨datum, hdatum, rfl⟩ := List.mem_map.mp hk
        exact .inr ⟨datum, hdatum, rfl, by simp [SortedMap.keys, SortedMap.empty]⟩
    refine (SortedMap.mem_keys_foldl_upsert hflat).trans ?_
    rw [hkeys, flatVersions_eq]
    refine or_congr_right ?_
    simp only [hkeys, List.mem_map]
    constructor
    · rintro ⟨flat, hmem, rfl, hfresh⟩
      exact ⟨⟨flat, hmem, rfl⟩, hfresh⟩
    · rintro ⟨⟨flat, hmem, rfl⟩, hfresh⟩
      exact ⟨flat, hmem, rfl, hfresh⟩

/-- A map that only the loop of `from_flat_metadata` has touched. -/
theorem foldl_eagerStep (entries : List (ValidVersion × Dist)) (state : VersionMapEager Dist) :
    entries.foldl eagerStep state =
      ⟨entries.foldl (fun map entry => map.upsert entry.1 fun _ => entry.2) state.map,
        state.stable || entries.any (·.1.val.isStable),
        state.hasLocal || entries.any (·.1.val.isLocal)⟩ := by
  induction entries generalizing state with
  | nil => simp
  | cons entry entries ih =>
      rw [List.foldl_cons, ih, eagerStep, List.any_cons, List.any_cons, Bool.or_assoc,
        Bool.or_assoc]
      rfl

theorem summariesExact_foldl_eagerStep (distributions : FlatDistributions Dist) :
    (VersionMap.eager
      (distributions.entries.foldl eagerStep ⟨.empty, false, false⟩)).SummariesExact := by
  rw [foldl_eagerStep]
  have hkeys (k : ValidVersion) : k ∈ (distributions.entries.foldl
      (fun map entry => map.upsert entry.1 fun _ => entry.2) SortedMap.empty).keys ↔
        ∃ entry ∈ distributions.entries, k = entry.1 := by
    rw [SortedMap.mem_keys_foldl_upsert (distinct_entries distributions)]
    simp [SortedMap.keys, SortedMap.empty]
  constructor
  · change (false || distributions.entries.any (·.1.val.isStable)) = true ↔ _
    rw [Bool.false_or, List.any_eq_true]
    simp only [versions, hkeys]
    constructor
    · rintro ⟨entry, hentry, hstable⟩
      exact ⟨entry.1, ⟨entry, hentry, rfl⟩, hstable⟩
    · rintro ⟨_, ⟨entry, hentry, rfl⟩, hstable⟩
      exact ⟨entry, hentry, hstable⟩
  · change (false || distributions.entries.any (·.1.val.isLocal)) = true ↔ _
    rw [Bool.false_or, List.any_eq_true]
    simp only [versions, hkeys]
    constructor
    · rintro ⟨entry, hentry, hlocal⟩
      exact ⟨entry.1, ⟨entry, hentry, rfl⟩, hlocal⟩
    · rintro ⟨_, ⟨entry, hentry, rfl⟩, hlocal⟩
      exact ⟨entry, hentry, hlocal⟩

/-- The summary of local versions ignores the flat distributions, and the one of stable versions
also looks at a flat version for which the simple metadata has another spelling. -/
theorem summariesExact_iff {File HashDigest Marker : Type} [MarkerAlgebra Marker]
    [DecidableEq Marker] (simpleMetadata : SimpleDetailMetadata)
    (flatIndex : Option (FlatDistributions (PrioritizedDist File HashDigest Marker)))
    (getSimple : Option (PrioritizedDist File HashDigest Marker) → ℕ →
      Option (PrioritizedDist File HashDigest Marker))
    (flatMetadata : List (FlatIndexEntry File))
    (distributions : FlatDistributions (PrioritizedDist File HashDigest Marker)) :
    ((∃ map, fromSimpleMetadata simpleMetadata flatIndex getSimple = some map ∧
        map.SummariesExact) ↔
      ((∃ version ∈ flatVersions flatIndex, version.val.isLocal = true) →
        ∃ version ∈ simpleMetadata.versions, version.val.isLocal = true) ∧
      ((∃ version ∈ flatVersions flatIndex, version.val.isStable = true) →
        (∃ version ∈ simpleMetadata.versions, version.val.isStable = true) ∨
        ∃ version ∈ flatVersions flatIndex, version.val.isStable = true ∧
          ∀ other ∈ simpleMetadata.versions, ¬ SameKey other version)) ∧
    (fromFlatMetadata flatMetadata :
      VersionMap (PrioritizedDist File HashDigest Marker)).SummariesExact ∧
    (ofFlatDistributions distributions).SummariesExact := by
  refine ⟨?_, summariesExact_foldl_eagerStep _, summariesExact_ofFlatDistributions _⟩
  obtain ⟨map, hmap, hstable, hlocal, hversions⟩ :=
    fromSimpleMetadata_eq simpleMetadata flatIndex getSimple
  rw [hmap]
  constructor
  · rintro ⟨_, heq, hexact⟩
    obtain rfl := Option.some.inj heq
    constructor
    · rintro ⟨version, hflat, hversion⟩
      by_cases hfresh : ∀ other ∈ simpleMetadata.versions, ¬ SameKey other version
      · exact hlocal.mp (hexact.hasLocal.mpr
          ⟨version, (hversions version).mpr (.inr ⟨hflat, hfresh⟩), hversion⟩)
      · push Not at hfresh
        obtain ⟨other, hother, hsame⟩ := hfresh
        exact ⟨other, hother, (isLocal_eq_of_sameKey hsame).trans hversion⟩
    · intro hflat
      obtain ⟨version, hmem, hversion⟩ := hexact.stable.mp (hstable.mpr (.inr hflat))
      rcases (hversions version).mp hmem with hmem | ⟨hmem, hfresh⟩
      · exact .inl ⟨version, hmem, hversion⟩
      · exact .inr ⟨version, hmem, hversion, hfresh⟩
  · rintro ⟨hlocals, hstables⟩
    refine ⟨map, rfl, ⟨hstable.trans ⟨?_, ?_⟩, hlocal.trans ⟨?_, ?_⟩⟩⟩
    · rintro (⟨version, hmem, hversion⟩ | hflat)
      · exact ⟨version, (hversions version).mpr (.inl hmem), hversion⟩
      · rcases hstables hflat with ⟨version, hmem, hversion⟩ | ⟨version, hmem, hversion, hfresh⟩
        · exact ⟨version, (hversions version).mpr (.inl hmem), hversion⟩
        · exact ⟨version, (hversions version).mpr (.inr ⟨hmem, hfresh⟩), hversion⟩
    · rintro ⟨version, hmem, hversion⟩
      rcases (hversions version).mp hmem with hmem | ⟨hmem, -⟩
      · exact .inl ⟨version, hmem, hversion⟩
      · exact .inr ⟨version, hmem, hversion⟩
    · rintro ⟨version, hmem, hversion⟩
      exact ⟨version, (hversions version).mpr (.inl hmem), hversion⟩
    · rintro ⟨version, hmem, hversion⟩
      rcases (hversions version).mp hmem with hmem | ⟨hmem, -⟩
      · exact ⟨version, hmem, hversion⟩
      · exact hlocals ⟨version, hmem, hversion⟩

/-- `1.0` in the metadata of the index, `1.0+cpu` in the flat index. -/
theorem not_summariesExact :
    let version : ValidVersion := .new [1, 0]
    let cpu : ValidVersion := version.withLocal (.segments [.string [99, 112, 117]])
    ∃ (simpleMetadata : SimpleDetailMetadata) (flatIndex : FlatDistributions Unit),
      simpleMetadata.versions = [version] ∧ flatIndex.keys = [cpu] ∧
      ∀ map, fromSimpleMetadata simpleMetadata (some flatIndex) (fun flat _ => flat) = some map →
        ¬ map.SummariesExact := by
  intro version cpu
  refine ⟨⟨[version], List.pairwise_singleton ..⟩, ⟨[(cpu, ())], List.pairwise_singleton ..⟩,
    rfl, rfl, fun map hmap hexact => ?_⟩
  obtain ⟨_, heq, -, hlocal, hversions⟩ := fromSimpleMetadata_eq
    ⟨[version], List.pairwise_singleton ..⟩ (some ⟨[(cpu, ())], List.pairwise_singleton ..⟩)
    (fun flat _ => flat)
  obtain rfl := Option.some.inj (hmap.symm.trans heq)
  have hcpu : cpu.val.isLocal = true := by decide
  have hversion : version.val.isLocal = false := by decide
  have hfresh : ∀ other ∈ [version], ¬ SameKey other cpu := by
    intro other hother hsame
    have hother := List.mem_singleton.mp hother
    rw [hother] at hsame
    exact absurd (isLocal_eq_of_sameKey hsame) (by rw [hcpu, hversion]; decide)
  have hmem := (hversions cpu).mpr (.inr ⟨List.mem_singleton.mpr rfl, hfresh⟩)
  obtain ⟨other, hother, hotherLocal⟩ := hlocal.mp (hexact.hasLocal.mpr ⟨cpu, hmem, hcpu⟩)
  rw [List.mem_singleton.mp hother, hversion] at hotherLocal
  exact Bool.false_ne_true hotherLocal

end VersionMap

end Uv.Resolver