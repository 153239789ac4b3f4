import Uv.Core.Gaps
import Uv.Pep440.ReleaseOnlyBounds
import Uv.Pep440.SpecifierRoundTrip
import Uv.Resolver.RequiresPython

/-!
# Ranges written back as specifiers

A list of intervals is written as the specifiers for its bounding interval and one
exclusion for every gap whose shape is known: a single version, or all releases of
a minor version.  Other gaps are dropped, so the range that is read back can only
be wider.
-/

namespace Uv.Pep440

open Uv.Core Uv.Core.Order Uv.Core.OrdKey

namespace VersionSpecifiers

/-- The exclusion of the versions between an interval that ends at `next` and one
that starts at `lower`. -/
def gapSpecifier (next lower : Bound ValidVersion) : Option VersionSpecifier :=
  match next, lower with
  | .excluded prev, .excluded lower =>
      if compare prev lower == .eq then some (.notEqualsVersion prev) else none
  | .excluded prev, .included lower =>
      (VersionSpecifier.starRelease prev.val.onlyReleaseTrimmed.release
        lower.val.onlyReleaseTrimmed.release).map .notEqualsStarVersion
  | _, _ => none

/-- The loop of `from_release_only_bounds`, from the end of an interval on: the
exclusions, and the end of the last interval. -/
def gapLoop (next : Bound ValidVersion) :
    List (Bound ValidVersion × Bound ValidVersion) →
      List VersionSpecifier × Bound ValidVersion
  | [] => ([], next)
  | (lower, upper) :: rest =>
      ((gapSpecifier next lower).toList ++ (gapLoop upper rest).1, (gapLoop upper rest).2)

/-- The specifiers that stand for a list of intervals.  An end with local segments
has none; the source panics there. -/
def fromReleaseOnlyBounds :
    List (Bound ValidVersion × Bound ValidVersion) → Option (List VersionSpecifier)
  | [] => some []
  | (start, next) :: rest =>
      (VersionSpecifier.fromReleaseOnlyBounds (start, (gapLoop next rest).2)).map
        fun specifiers => fromUnsorted ((gapLoop next rest).1 ++ specifiers)

end VersionSpecifiers

/-! ## Releases -/

/-- A version that is its release alone, with no segment at the limit. -/
structure ReleaseOnly (version : ValidVersion) : Prop where
  full : version.val.makeFull = Version.releaseOnly version.val.release
  nonempty : version.val.release ≠ []
  small : ∀ n ∈ version.val.release, n < u64Max

/-- An end at a release, or none. -/
def ReleaseOnlyBound : Bound ValidVersion → Prop
  | .included version => ReleaseOnly version
  | .excluded version => ReleaseOnly version
  | .unbounded => True

theorem ReleaseOnly.new {numbers : List ℕ} (hne : numbers ≠ [])
    (hsmall : ∀ n ∈ numbers, n < u64Max) : ReleaseOnly (.new numbers) := by
  refine ⟨?_, ?_, ?_⟩
  · rw [release_new]
    exact Version.makeFull_new numbers
  · rwa [release_new]
  · rwa [release_new]

theorem ReleaseOnly.key_eq {version : ValidVersion} (hversion : ReleaseOnly version) :
    key version = key (ValidVersion.new version.val.release) := by
  change version.val.makeFull.key = (Version.new version.val.release).makeFull.key
  rw [hversion.full, Version.makeFull_new]

theorem ReleaseOnly.key_onlyRelease {version : ValidVersion} (hversion : ReleaseOnly version) :
    key version.onlyRelease = key version := by
  rw [hversion.key_eq]
  rfl

theorem ReleaseOnly.key_eq_new_iff {version : ValidVersion} (hversion : ReleaseOnly version)
    {numbers : List ℕ} : key version = key (ValidVersion.new numbers) ↔
      trimZeros version.val.release = trimZeros numbers := by
  rw [hversion.key_eq, key_new, key_new]
  simp

/-- The numbers of a release that is trimmed. -/
def trimmed (release : List ℕ) : List ℕ :=
  if trimZeros release = [] then [0] else trimZeros release

theorem release_trimmed (version : ValidVersion) :
    version.val.onlyReleaseTrimmed.release = trimmed version.val.release := by
  have hrelease := congrArg (·.val.release) (onlyReleaseTrimmed_eq version)
  exact hrelease.trans (release_new _)

theorem trimZeros_trimmed (release : List ℕ) :
    trimZeros (trimmed release) = trimZeros release := by
  unfold trimmed
  split
  · rename_i hnil
    rw [hnil]
    rfl
  · exact List.rdropWhile_idempotent _ _

theorem trimmed_congr {release other : List ℕ} (hsame : trimZeros release = trimZeros other) :
    trimmed release = trimmed other := by
  rw [trimmed, hsame, trimmed]

theorem small_trimmed {version : ValidVersion} (hversion : ReleaseOnly version) :
    ∀ n ∈ trimmed version.val.release, n < u64Max := by
  intro n hn
  unfold trimmed at hn
  split at hn
  · rw [List.mem_singleton.mp hn]
    decide
  · exact hversion.small n ((List.rdropWhile_prefix _ _).subset hn)

/-- A minor series starts at its minor release, which may be the major one. -/
theorem trimmed_pair (major minor : ℕ) :
    trimmed [major, minor] = if minor = 0 then [major] else [major, minor] := by
  have hnil : trimZeros [] = [] := rfl
  unfold trimmed
  rw [trimZeros_cons, trimZeros_cons, hnil]
  by_cases hminor : minor = 0 <;> by_cases hmajor : major = 0 <;> simp [hminor, hmajor]

/-- The version after a minor series. -/
theorem key_withRelease_new (numbers release : List ℕ) :
    key ((ValidVersion.new numbers).onlyRelease.withRelease release) =
      key (ValidVersion.new release) := by
  rw [onlyRelease_new]
  change ((Version.new numbers).withRelease release).makeFull.key =
    (Version.new release).makeFull.key
  rw [Version.makeFull_withRelease, Version.makeFull_new, Version.makeFull_new]
  rfl

/-! ## Positions -/

section Positions

variable {p : Cut ValidVersion}

theorem mem_fromRangeBounds {start stop : Bound ValidVersion} :
    (Ranges.fromRangeBounds start stop).Mem p ↔ Between (cutsOf (start, stop)) p := by
  by_cases hvalid : Bound.validSegment start stop = true
  · exact (Ranges.isInterval_fromRangeBounds hvalid).mem_iff p
  · have hle : stop.upperCut ≤ start.lowerCut :=
      not_lt.mp fun hlt => hvalid (Bound.validSegment_iff.mpr hlt)
    rw [Ranges.fromRangeBounds, if_neg hvalid]
    refine iff_of_false (by simp [Ranges.Mem, Ranges.empty]) ?_
    rintro ⟨hstart, hstop⟩
    exact (hle.trans (WithTop.coe_le_coe.mpr hstart)).not_gt hstop

theorem mem_single {start stop : Bound ValidVersion} :
    (⟨[(start, stop)]⟩ : Ranges ValidVersion).Mem p ↔ Between (cutsOf (start, stop)) p := by
  simp [Ranges.Mem]

/-- The versions of a minor series. -/
def seriesCuts (major minor : ℕ) : Cut ValidVersion × WithTop (Cut ValidVersion) :=
  (Cut.before (.new [major, minor]), (Cut.before (.new [major, minor + 1]) : Cut ValidVersion))

theorem cutsOf_series {major minor : ℕ} (hminor : minor < u64Max) :
    cutsOf (.included (.new [major, minor]),
      .excluded ((ValidVersion.new [major, minor]).onlyRelease.withRelease
        [major, u64Succ minor])) = seriesCuts major minor := by
  have hkey := key_withRelease_new [major, minor] [major, u64Succ minor]
  rw [u64Succ_of_lt hminor] at hkey ⊢
  exact Prod.ext rfl (WithTop.coe_inj.mpr (Cut.before_eq_before.mpr hkey))

end Positions

/-! ## What a specifier admits -/

section Admits

variable [RangeOps ValidVersion] {p : Cut ValidVersion}

namespace VersionSpecifier

/-- The position is in the range of the specifier. -/
def Admits (specifier : VersionSpecifier) (p : Cut ValidVersion) : Prop :=
  ∃ range, specifier.releaseSpecifierToRange false = some range ∧ range.Mem p

theorem admits_iff {specifier : VersionSpecifier} {range : Ranges ValidVersion}
    (hrange : specifier.releaseSpecifierToRange false = some range) :
    specifier.Admits p ↔ range.Mem p := by
  simp [Admits, hrange]

/-- A comparison with a release admits an interval. -/
theorem admits_of_single {specifier : VersionSpecifier} (start stop : Bound ValidVersion)
    (hrange : specifier.releaseSpecifierToRange false = some ⟨[(start, stop)]⟩) :
    specifier.Admits p ↔ Between (cutsOf (start, stop)) p := by
  rw [admits_iff hrange, mem_single]

theorem admits_notEquals {version : ValidVersion} (hversion : ReleaseOnly version) :
    (notEqualsVersion version).Admits p ↔
      ¬ Between (cutsOf (.included version, .included version)) p := by
  have hkey := hversion.key_onlyRelease
  have hrange : (notEqualsVersion version).releaseSpecifierToRange false = some
      (RangeOps.complement (.singleton version.onlyRelease)) := rfl
  rw [admits_iff hrange,
    RangeOps.mem_complement (Ranges.valid_singleton _)]
  change ¬ (⟨[(.included version.onlyRelease, .included version.onlyRelease)]⟩ :
    Ranges ValidVersion).Mem p ↔ _
  rw [mem_single]
  simp only [cutsOf, Bound.lowerCut, Bound.upperCut, Cut.before_eq_before.mpr hkey,
    Cut.after_eq_after.mpr hkey]

omit [RangeOps ValidVersion] in
theorem bumpLast_series (major minor : ℕ) :
    bumpLast (ValidVersion.new [major, minor]).onlyRelease.val.release =
      some [major, u64Succ minor] := by
  rw [onlyRelease_new, release_new]
  rfl

theorem admits_equalsStar {major minor : ℕ} (hminor : minor < u64Max) :
    (equalsStarVersion (.new [major, minor])).Admits p ↔ Between (seriesCuts major minor) p := by
  refine (admits_iff (by
    simp only [releaseSpecifierToRange, equalsStarVersion, bumpLast_series]
    rfl)).trans ?_
  rw [mem_fromRangeBounds, cutsOf_series hminor]

theorem admits_notEqualsStar {major minor : ℕ} (hminor : minor < u64Max) :
    (notEqualsStarVersion (.new [major, minor])).Admits p ↔
      ¬ Between (seriesCuts major minor) p := by
  refine (admits_iff (by
    simp only [releaseSpecifierToRange, notEqualsStarVersion, bumpLast_series]
    rfl)).trans ?_
  rw [RangeOps.mem_complement (Ranges.valid_fromRangeBounds _ _), mem_fromRangeBounds,
    cutsOf_series hminor]

/-- The specifiers can be read back, and admit these positions together. -/
def Stands (specifiers : List VersionSpecifier) (admitted : Cut ValidVersion → Prop) : Prop :=
  (∀ specifier ∈ specifiers, specifier.version.val.release ≠ []) ∧
    ∀ p, (∀ specifier ∈ specifiers, specifier.Admits p) ↔ admitted p

theorem stands_nil {admitted : Cut ValidVersion → Prop} (hall : ∀ p, admitted p) :
    Stands [] admitted :=
  ⟨by simp, fun p => by simp [hall p]⟩

theorem stands_singleton {specifier : VersionSpecifier} {admitted : Cut ValidVersion → Prop}
    (hrelease : specifier.version.val.release ≠ [])
    (hadmits : ∀ p, specifier.Admits p ↔ admitted p) : Stands [specifier] admitted :=
  ⟨by simpa using hrelease, fun p => by simp [hadmits p]⟩

theorem Stands.append {specifiers others : List VersionSpecifier}
    {admitted admitted' : Cut ValidVersion → Prop} (hleft : Stands specifiers admitted)
    (hright : Stands others admitted') :
    Stands (specifiers ++ others) fun p => admitted p ∧ admitted' p := by
  refine ⟨List.forall_mem_append.mpr ⟨hleft.1, hright.1⟩, fun p => ?_⟩
  rw [List.forall_mem_append, hleft.2, hright.2]

omit [RangeOps ValidVersion] in
/-- Every comparison with a release can be built. -/
theorem fromVersion_releaseOnly {operator : Operator} {version : ValidVersion}
    (hversion : ReleaseOnly version) (htilde : operator ≠ .tildeEqual) :
    fromVersion operator version =
      .ok ⟨operator, version, fun heq => (htilde heq).elim⟩ := by
  have hlocal : version.val.isLocal = false := by
    rw [Version.isLocal, Version.localVersion_eq, hversion.full]
    rfl
  rw [fromVersion, hlocal, Bool.false_and, if_neg Bool.false_ne_true,
    dif_neg fun hboth => htilde hboth.1]

omit [RangeOps ValidVersion] in
/-- Dropping the other parts of a release does not move it. -/
theorem cuts_onlyRelease {version : ValidVersion} (hversion : ReleaseOnly version) :
    Cut.before version.onlyRelease = Cut.before version ∧
      Cut.after version.onlyRelease = Cut.after version :=
  ⟨Cut.before_eq_before.mpr hversion.key_onlyRelease,
    Cut.after_eq_after.mpr hversion.key_onlyRelease⟩

theorem fromLowerBound_spec {start : Bound ValidVersion} (hstart : ReleaseOnlyBound start) :
    ∃ specifiers, fromLowerBound start = some specifiers ∧
      Stands specifiers fun p => start.lowerCut ≤ p := by
  cases start with
  | included version =>
      refine ⟨_, congrArg (·.toOption.map ([·]))
        (fromVersion_releaseOnly hstart (by decide)), stands_singleton hstart.nonempty ?_⟩
      intro p
      rw [admits_of_single (.included version.onlyRelease) .unbounded rfl, Between]
      simp [cutsOf, Bound.lowerCut, Bound.upperCut, (cuts_onlyRelease hstart).1]
  | excluded version =>
      refine ⟨_, congrArg (·.toOption.map ([·]))
        (fromVersion_releaseOnly hstart (by decide)), stands_singleton hstart.nonempty ?_⟩
      intro p
      rw [admits_of_single (.excluded version.onlyRelease) .unbounded rfl, Between]
      simp [cutsOf, Bound.lowerCut, Bound.upperCut, (cuts_onlyRelease hstart).2]
  | unbounded => exact ⟨[], rfl, stands_nil fun p => bot_le⟩

theorem fromUpperBound_spec {stop : Bound ValidVersion} (hstop : ReleaseOnlyBound stop) :
    ∃ specifiers, fromUpperBound stop = some specifiers ∧
      Stands specifiers fun p => (p : WithTop (Cut ValidVersion)) < stop.upperCut := by
  cases stop with
  | included version =>
      refine ⟨_, congrArg (·.toOption.map ([·]))
        (fromVersion_releaseOnly hstop (by decide)), stands_singleton hstop.nonempty ?_⟩
      intro p
      rw [admits_of_single .unbounded (.included version.onlyRelease) rfl, Between]
      simp [cutsOf, Bound.lowerCut, Bound.upperCut, (cuts_onlyRelease hstop).2]
  | excluded version =>
      refine ⟨_, congrArg (·.toOption.map ([·]))
        (fromVersion_releaseOnly hstop (by decide)), stands_singleton hstop.nonempty ?_⟩
      intro p
      rw [admits_of_single .unbounded (.excluded version.onlyRelease) rfl, Between]
      simp [cutsOf, Bound.lowerCut, Bound.upperCut, (cuts_onlyRelease hstop).1]
  | unbounded => exact ⟨[], rfl, stands_nil fun p => WithTop.coe_lt_top p⟩

theorem fromBothBounds_spec {start stop : Bound ValidVersion} (hstart : ReleaseOnlyBound start)
    (hstop : ReleaseOnlyBound stop) :
    ∃ specifiers, fromBothBounds start stop = some specifiers ∧
      Stands specifiers (Between (cutsOf (start, stop))) := by
  obtain ⟨lower, hlower, hlowerStands⟩ := fromLowerBound_spec hstart
  obtain ⟨upper, hupper, hupperStands⟩ := fromUpperBound_spec hstop
  refine ⟨lower ++ upper, ?_, hlowerStands.append hupperStands⟩
  rw [fromBothBounds, hlower, hupper]
  rfl

omit [RangeOps ValidVersion] in
/-- Where two releases are found to be the ends of a minor series. -/
theorem starRelease_eq_some_iff {start stop version : ValidVersion} (hstart : ReleaseOnly start)
    (hstop : ReleaseOnly stop) :
    starRelease start.val.onlyReleaseTrimmed.release stop.val.onlyReleaseTrimmed.release =
        some version ↔
      ∃ major minor, version = .new [major, minor] ∧ minor < u64Max ∧
        key start = key (ValidVersion.new [major, minor]) ∧
        key stop = key (ValidVersion.new [major, minor + 1]) := by
  have hnil : trimZeros [] = [] := rfl
  simp only [release_trimmed, hstart.key_eq_new_iff, hstop.key_eq_new_iff]
  have hsmall := small_trimmed hstart
  constructor
  · intro hstar
    rw [← trimZeros_trimmed start.val.release, ← trimZeros_trimmed stop.val.release]
    unfold starRelease at hstar
    split at hstar
    · rename_i major hmajor
      split at hstar
      · rename_i hlast
        rw [hmajor, hlast]
        refine ⟨major, 0, (Option.some.inj hstar).symm, by decide, ?_, rfl⟩
        simp [trimZeros_cons, hnil]
      · cases hstar
    · rename_i major minor hminor
      have hlt := hsmall minor (by simp [hminor])
      split at hstar
      · rename_i hlast
        rw [hminor, hlast, u64Succ_of_lt hlt]
        exact ⟨major, minor, (Option.some.inj hstar).symm, hlt, rfl, rfl⟩
      · cases hstar
    · cases hstar
  · rintro ⟨major, minor, rfl, hlt, hfirst, hlast⟩
    rw [trimmed_congr hfirst, trimmed_congr hlast, trimmed_pair, trimmed_pair,
      if_neg (Nat.succ_ne_zero minor)]
    split
    · rename_i hzero
      rw [hzero, starRelease, if_pos rfl]
    · rw [starRelease, u64Succ_of_lt hlt, if_pos rfl]

/-- The specifiers of an interval admit exactly the interval. -/
theorem fromReleaseOnlyBounds_spec {start stop : Bound ValidVersion}
    (hstart : ReleaseOnlyBound start) (hstop : ReleaseOnlyBound stop) :
    ∃ specifiers, fromReleaseOnlyBounds (start, stop) = some specifiers ∧
      Stands specifiers (Between (cutsOf (start, stop))) := by
  unfold fromReleaseOnlyBounds
  split
  · rename_i left right heq
    obtain ⟨rfl, rfl⟩ := Prod.mk.inj heq
    split
    · rename_i hsame
      have hkey := Bound.compare_eq_eq.mp (beq_iff_eq.mp hsame)
      refine ⟨_, rfl, stands_singleton hstart.nonempty fun p => ?_⟩
      rw [admits_of_single (.included left.onlyRelease) (.included left.onlyRelease) rfl]
      simp only [cutsOf, Bound.lowerCut, Bound.upperCut, (cuts_onlyRelease hstart).1,
        (cuts_onlyRelease hstart).2, Cut.after_eq_after.mpr hkey]
    · exact fromBothBounds_spec hstart hstop
  · rename_i left right heq
    obtain ⟨rfl, rfl⟩ := Prod.mk.inj heq
    split
    · rename_i version hstar
      obtain ⟨major, minor, rfl, hlt, hfirst, hlast⟩ :=
        (starRelease_eq_some_iff hstart hstop).mp hstar
      refine ⟨_, rfl, stands_singleton ?_ fun p => ?_⟩
      · change (ValidVersion.new [major, minor]).val.release ≠ []
        rw [release_new]
        exact List.cons_ne_nil _ _
      · rw [admits_equalsStar hlt]
        simp only [seriesCuts, cutsOf, Bound.lowerCut, Bound.upperCut,
          Cut.before_eq_before.mpr hfirst, Cut.before_eq_before.mpr hlast]
    · exact fromBothBounds_spec hstart hstop
  · rename_i heq
    obtain ⟨rfl, rfl⟩ := Prod.mk.inj heq
    exact fromBothBounds_spec hstart hstop

/-- Read back, specifiers are the range of what all of them admit. -/
theorem Stands.read {specifiers : List VersionSpecifier} {admitted : Cut ValidVersion → Prop}
    (hstands : Stands specifiers admitted) :
    ∃ range, Resolver.releaseSpecifiersToRanges specifiers = some range ∧
      ∀ p, range.Mem p ↔ admitted p := by
  obtain ⟨hreleases, hadmits⟩ := hstands
  -- The loop starts at any range and intersects it with what is left.
  have hfold : ∀ start : Ranges ValidVersion, start.Valid →
      ∃ range, specifiers.foldlM (fun range specifier => do
        let next ← specifier.releaseSpecifierToRange false
        pure (RangeOps.intersection range next)) start = some range ∧
        ∀ p, range.Mem p ↔ start.Mem p ∧ ∀ specifier ∈ specifiers, specifier.Admits p := by
    clear hadmits
    induction specifiers with
    | nil => exact fun start _ => ⟨start, rfl, by simp⟩
    | cons specifier rest ih =>
        obtain ⟨hrelease, hreleases⟩ := List.forall_mem_cons.mp hreleases
        intro start hstart
        obtain ⟨next, hnext⟩ := Pep508.releaseSpecifierToRange_isSome false hrelease
        have hvalid := Pep508.valid_releaseSpecifierToRange hnext
        obtain ⟨range, hrange, hmem⟩ :=
          ih hreleases _ (RangeOps.valid_intersection hstart hvalid)
        refine ⟨range, ?_, fun p => ?_⟩
        · rw [List.foldlM_cons, hnext]
          exact hrange
        · rw [hmem, RangeOps.mem_intersection hstart hvalid, List.forall_mem_cons,
            admits_iff hnext, and_assoc]
  have hvalid : (Ranges.full : Ranges ValidVersion).Valid := by
    simp [Ranges.Valid, Ranges.full, separated_cons, separated_nil, cutsOf, Bound.lowerCut,
      Bound.upperCut]
  obtain ⟨range, hrange, hmem⟩ := hfold .full hvalid
  refine ⟨range, hrange, fun p => ?_⟩
  have hfull : (Ranges.full : Ranges ValidVersion).Mem p :=
    mem_single.mpr ⟨bot_le, WithTop.coe_lt_top p⟩
  rw [hmem, hadmits]
  exact and_iff_right hfull

end VersionSpecifier

/-! ## The gaps -/

/-- A gap that can be written: none at all, a single version, or a minor series. -/
def GapWritten (gap : WithTop (Cut ValidVersion) × Cut ValidVersion) : Prop :=
  gap.1 = gap.2 ∨
    (∃ version : ValidVersion, gap.1 = (Cut.before version : Cut ValidVersion) ∧
      gap.2 = Cut.after version) ∨
    ∃ major minor, gap.1 = (Cut.before (ValidVersion.new [major, minor]) : Cut ValidVersion) ∧
      gap.2 = Cut.before (ValidVersion.new [major, minor + 1])

namespace VersionSpecifiers

open VersionSpecifier

variable {next lower : Bound ValidVersion} {rest : List (Bound ValidVersion × Bound ValidVersion)}

/-- An exclusion excludes exactly its gap. -/
theorem stands_gapSpecifier (hnext : ReleaseOnlyBound next) (hlower : ReleaseOnlyBound lower)
    {specifier : VersionSpecifier} (hgap : gapSpecifier next lower = some specifier) :
    Stands [specifier] fun p => ¬ InGap (next.upperCut, lower.lowerCut) p := by
  unfold gapSpecifier at hgap
  split at hgap
  · rename_i prev lower
    split at hgap
    · rename_i hsame
      have hkey := Bound.compare_eq_eq.mp (beq_iff_eq.mp hsame)
      cases hgap
      refine stands_singleton hnext.nonempty fun p => ?_
      rw [admits_notEquals hnext]
      simp only [Between, InGap, cutsOf, Bound.lowerCut, Bound.upperCut, WithTop.coe_le_coe,
        WithTop.coe_lt_coe, Cut.after_eq_after.mpr hkey]
    · cases hgap
  · rename_i prev lower
    obtain ⟨version, hstar, rfl⟩ := Option.map_eq_some_iff.mp hgap
    obtain ⟨major, minor, rfl, hlt, hfirst, hlast⟩ :=
      (starRelease_eq_some_iff hnext hlower).mp hstar
    refine stands_singleton ?_ fun p => ?_
    · change (ValidVersion.new [major, minor]).val.release ≠ []
      rw [release_new]
      exact List.cons_ne_nil _ _
    · rw [admits_notEqualsStar hlt]
      simp only [Between, InGap, seriesCuts, Bound.lowerCut, Bound.upperCut, WithTop.coe_le_coe,
        WithTop.coe_lt_coe, Cut.before_eq_before.mpr hfirst, Cut.before_eq_before.mpr hlast]
  · cases hgap

omit [RangeOps ValidVersion] in
/-- The number after the minor one of a series is below the limit. -/
theorem minor_lt_of_key_eq {version : ValidVersion} (hversion : ReleaseOnly version)
    {major minor : ℕ} (hkey : key version = key (ValidVersion.new [major, minor + 1])) :
    minor < u64Max := by
  have hsame := trimmed_congr (hversion.key_eq_new_iff.mp hkey)
  rw [trimmed_pair, if_neg (Nat.succ_ne_zero minor)] at hsame
  have hlast := small_trimmed hversion (minor + 1) (by simp [hsame])
  omega

omit [RangeOps ValidVersion] in
/-- Every gap that can be written is, unless nothing lies in it. -/
theorem gapSpecifier_of_written (hnext : ReleaseOnlyBound next)
    (hlower : ReleaseOnlyBound lower)
    (hwritten : GapWritten (next.upperCut, lower.lowerCut))
    (hnone : gapSpecifier next lower = none) : next.upperCut = lower.lowerCut := by
  rcases hwritten with htouch | ⟨version, hfirst, hlast⟩ | ⟨major, minor, hfirst, hlast⟩
  · exact htouch
  · cases next with
    | excluded prev =>
        cases lower with
        | excluded lower =>
            have hprev := Cut.before_eq_before.mp (WithTop.coe_inj.mp hfirst)
            have hsame := hprev.trans (Cut.after_eq_after.mp hlast).symm
            simp [gapSpecifier, Bound.compare_eq_eq.mpr hsame] at hnone
        | included lower => exact absurd hlast Cut.before_ne_after
        | unbounded => exact absurd hlast (Cut.bot_lt_after _).ne
    | included prev => exact absurd (WithTop.coe_inj.mp hfirst) Cut.before_ne_after.symm
    | unbounded => exact absurd hfirst WithTop.top_ne_coe
  · cases next with
    | excluded prev =>
        cases lower with
        | included lower =>
            have hprev := Cut.before_eq_before.mp (WithTop.coe_inj.mp hfirst)
            have hkey := Cut.before_eq_before.mp hlast
            have hstar := (starRelease_eq_some_iff hnext hlower).mpr
              ⟨major, minor, rfl, minor_lt_of_key_eq hlower hkey, hprev, hkey⟩
            simp [gapSpecifier, hstar] at hnone
        | excluded lower => exact absurd hlast Cut.before_ne_after.symm
        | unbounded => exact absurd hlast (Cut.bot_lt_before _).ne
    | included prev => exact absurd (WithTop.coe_inj.mp hfirst) Cut.before_ne_after.symm
    | unbounded => exact absurd hfirst WithTop.top_ne_coe

/-- The exclusions admit what is in no gap, and nothing else if all gaps can be
written. -/
def StandsOff (specifiers : List VersionSpecifier)
    (gaps : List (WithTop (Cut ValidVersion) × Cut ValidVersion)) : Prop :=
  ∃ admitted : Cut ValidVersion → Prop, Stands specifiers admitted ∧
    (∀ p, (∀ gap ∈ gaps, ¬ InGap gap p) → admitted p) ∧
    ((∀ gap ∈ gaps, GapWritten gap) → ∀ p, admitted p → ∀ gap ∈ gaps, ¬ InGap gap p)

theorem StandsOff.append {specifiers others : List VersionSpecifier}
    {gaps after : List (WithTop (Cut ValidVersion) × Cut ValidVersion)}
    (hleft : StandsOff specifiers gaps) (hright : StandsOff others after) :
    StandsOff (specifiers ++ others) (gaps ++ after) := by
  obtain ⟨admitted, hstands, hwider, hexact⟩ := hleft
  obtain ⟨admitted', hstands', hwider', hexact'⟩ := hright
  refine ⟨_, hstands.append hstands', fun p hoff => ?_, fun hwritten p hboth => ?_⟩
  · obtain ⟨hgaps, hafter⟩ := List.forall_mem_append.mp hoff
    exact ⟨hwider p hgaps, hwider' p hafter⟩
  · obtain ⟨hgaps, hafter⟩ := List.forall_mem_append.mp hwritten
    exact List.forall_mem_append.mpr
      ⟨hexact hgaps p hboth.1, hexact' hafter p hboth.2⟩

theorem standsOff_gapSpecifier (hnext : ReleaseOnlyBound next)
    (hlower : ReleaseOnlyBound lower) :
    StandsOff (gapSpecifier next lower).toList [(next.upperCut, lower.lowerCut)] := by
  cases hgap : gapSpecifier next lower with
  | some specifier =>
      refine ⟨_, stands_gapSpecifier hnext hlower hgap, fun p hoff => ?_, fun _ p hoff => ?_⟩
      · exact hoff _ (by simp)
      · simpa using hoff
  | none =>
      refine ⟨_, stands_nil fun _ => trivial, fun _ _ => trivial, fun hwritten p _ => ?_⟩
      have htouch := gapSpecifier_of_written hnext hlower (hwritten _ (by simp)) hgap
      rw [List.forall_mem_singleton]
      rintro ⟨hoff, hbelow⟩
      exact (htouch ▸ hoff).not_gt (WithTop.coe_lt_coe.mpr hbelow)

/-- Both ends of every interval are releases. -/
def ReleaseOnlyBounds (bounds : List (Bound ValidVersion × Bound ValidVersion)) : Prop :=
  ∀ segment ∈ bounds, ReleaseOnlyBound segment.1 ∧ ReleaseOnlyBound segment.2

theorem standsOff_gapLoop (hnext : ReleaseOnlyBound next) (hrest : ReleaseOnlyBounds rest) :
    StandsOff (gapLoop next rest).1 (gapsAfter next.upperCut (rest.map cutsOf)) := by
  induction rest generalizing next with
  | nil => exact ⟨_, stands_nil fun _ => trivial, fun _ _ => trivial, by simp [gapsAfter]⟩
  | cons segment rest ih =>
      obtain ⟨lower, upper⟩ := segment
      obtain ⟨⟨hlower, hupper⟩, hrest⟩ := List.forall_mem_cons.mp hrest
      exact (standsOff_gapSpecifier hnext hlower).append (ih hupper hrest)

omit [RangeOps ValidVersion] in
/-- The loop ends at the last interval. -/
theorem gapLoop_stop (hnext : ReleaseOnlyBound next) (hrest : ReleaseOnlyBounds rest) :
    ReleaseOnlyBound (gapLoop next rest).2 ∧
      (gapLoop next rest).2.upperCut = lastStop next.upperCut (rest.map cutsOf) := by
  induction rest generalizing next with
  | nil => exact ⟨hnext, rfl⟩
  | cons segment rest ih =>
      obtain ⟨lower, upper⟩ := segment
      obtain ⟨⟨hlower, hupper⟩, hrest⟩ := List.forall_mem_cons.mp hrest
      exact ih hupper hrest

/-- The specifiers of a list of intervals admit its intervals, and nothing else if all
gaps can be written. -/
theorem fromReleaseOnlyBounds_stands {first : Bound ValidVersion × Bound ValidVersion}
    (hbounds : ReleaseOnlyBounds (first :: rest))
    (hsorted : SortedCuts ((first :: rest).map cutsOf)) :
    ∃ specifiers admitted, fromReleaseOnlyBounds (first :: rest) = some specifiers ∧
      Stands specifiers admitted ∧
      (∀ p, (∃ cut ∈ (first :: rest).map cutsOf, Between cut p) → admitted p) ∧
      ((∀ gap ∈ gapsAfter first.2.upperCut (rest.map cutsOf), GapWritten gap) →
        ∀ p, admitted p → ∃ cut ∈ (first :: rest).map cutsOf, Between cut p) := by
  obtain ⟨start, next⟩ := first
  obtain ⟨⟨hstart, hnext⟩, hrest⟩ := List.forall_mem_cons.mp hbounds
  obtain ⟨admitted, hstands, hwider, hexact⟩ := standsOff_gapLoop hnext hrest
  obtain ⟨hstop, hlast⟩ := gapLoop_stop hnext hrest
  obtain ⟨hull, hhull, hhullStands⟩ := fromReleaseOnlyBounds_spec hstart hstop
  have hbetween : ∀ p, Between (cutsOf (start, (gapLoop next rest).2)) p ↔
      (∃ cut ∈ ((start, next) :: rest).map cutsOf, Between cut p) ∨
        ∃ gap ∈ gapsAfter next.upperCut (rest.map cutsOf), InGap gap p := by
    intro p
    rw [cutsOf, hlast]
    exact hsorted.between_iff p
  have hboth := hstands.append hhullStands
  refine ⟨_, fun p => admitted p ∧ Between (cutsOf (start, (gapLoop next rest).2)) p,
    congrArg (Option.map _) hhull, ⟨?_, ?_⟩, fun p hinside => ?_,
    fun hwritten p hadmitted => ?_⟩
  · exact fun specifier hmem => hboth.1 specifier (List.mem_mergeSort.mp hmem)
  · exact fun p => Iff.trans (by simp [fromUnsorted, List.mem_mergeSort]) (hboth.2 p)
  · exact ⟨hwider p (hsorted.not_inGap hinside), (hbetween p).mpr (.inl hinside)⟩
  · rcases (hbetween p).mp hadmitted.2 with hinside | ⟨gap, hgap, hin⟩
    · exact hinside
    · exact absurd hin (hexact hwritten p hadmitted.1 gap hgap)

/-- Written as specifiers and read back, intervals can only get wider, and only where a
gap cannot be written. -/
theorem releaseSpecifiersToRanges_fromReleaseOnlyBounds
    {bounds : List (Bound ValidVersion × Bound ValidVersion)} (hne : bounds ≠ [])
    (hbounds : ReleaseOnlyBounds bounds) (hsorted : SortedCuts (bounds.map cutsOf)) :
    ∃ specifiers range, fromReleaseOnlyBounds bounds = some specifiers ∧
      Resolver.releaseSpecifiersToRanges specifiers = some range ∧
      (∀ version, (⟨bounds⟩ : Ranges ValidVersion).contains version = true →
        range.contains version = true) ∧
      ((∀ gap ∈ gapsBetween (bounds.map cutsOf), GapWritten gap) →
        ∀ version, range.contains version =
          (⟨bounds⟩ : Ranges ValidVersion).contains version) := by
  obtain ⟨first, rest, rfl⟩ := List.exists_cons_of_ne_nil hne
  obtain ⟨specifiers, admitted, hspecifiers, hstands, hwider, hexact⟩ :=
    fromReleaseOnlyBounds_stands hbounds hsorted
  obtain ⟨range, hrange, hmem⟩ := hstands.read
  refine ⟨specifiers, range, hspecifiers, hrange, fun version hcontains => ?_,
    fun hwritten version => Bool.eq_iff_iff.mpr ?_⟩
  · rw [Ranges.contains_iff] at hcontains ⊢
    exact (hmem _).mpr (hwider _ hcontains)
  · rw [Ranges.contains_iff, Ranges.contains_iff, hmem]
    exact ⟨hexact hwritten _, hwider _⟩

end VersionSpecifiers

end Admits

namespace VersionSpecifiers

/-- Without `3.8` and without `3.10.2`. -/
theorem releaseSpecifiersToRanges_fromReleaseOnlyBounds_gaps :
    let bounds : List (Bound ValidVersion × Bound ValidVersion) :=
      [(.included (.new [3, 7]), .excluded (.new [3, 8])),
        (.included (.new [3, 9]), .excluded (.new [3, 10, 2])),
        (.excluded (.new [3, 10, 2, 0]), .unbounded)]
    ∃ specifiers range, fromReleaseOnlyBounds bounds = some specifiers ∧
      Resolver.releaseSpecifiersToRanges specifiers = some range ∧
      ∀ version, range.contains version = (⟨bounds⟩ : Ranges ValidVersion).contains version := by
  intro bounds
  have hsame : key (ValidVersion.new [3, 10, 2]) = key (ValidVersion.new [3, 10, 2, 0]) :=
    Bound.compare_eq_eq.mp rfl
  have hbounds : ReleaseOnlyBounds bounds := by
    have hrelease : ∀ numbers : List ℕ, numbers ≠ [] → (∀ n ∈ numbers, n < 11) →
        ReleaseOnly (.new numbers) := fun numbers hne hsmall =>
      .new hne fun n hn => (hsmall n hn).trans (by decide)
    simp only [ReleaseOnlyBounds, bounds, List.forall_mem_cons, List.not_mem_nil,
      ReleaseOnlyBound]
    refine ⟨⟨?_, ?_⟩, ⟨?_, ?_⟩, ⟨?_, trivial⟩, fun _ hmem => hmem.elim⟩ <;>
      exact hrelease _ (by decide) (by decide)
  have hsorted : SortedCuts (bounds.map cutsOf) := by
    have hforward : ∀ {start stop : Bound ValidVersion}, Bound.validSegment start stop = true →
        ((cutsOf (start, stop)).1 : WithTop (Cut ValidVersion)) ≤ (cutsOf (start, stop)).2 :=
      fun hvalid => (Bound.validSegment_iff.mp hvalid).le
    have hseries : key (ValidVersion.new [3, 8]) < key (ValidVersion.new [3, 9]) :=
      Bound.compare_eq_lt.mp rfl
    have hfar : key (ValidVersion.new [3, 8]) ≤ key (ValidVersion.new [3, 10, 2, 0]) :=
      Bound.compare_isLE.mp rfl
    simp only [bounds, List.map_cons, List.map_nil, sortedCuts_cons, List.forall_mem_cons,
      List.not_mem_nil]
    refine ⟨hforward rfl, ⟨?_, ?_, fun _ hmem => hmem.elim⟩,
      hforward rfl, ⟨?_, fun _ hmem => hmem.elim⟩,
      hforward rfl, fun _ hmem => hmem.elim, ⟨by simp, .nil⟩⟩
    · exact WithTop.coe_le_coe.mpr (Cut.before_lt_before.mpr hseries).le
    · exact WithTop.coe_le_coe.mpr (Cut.before_lt_after.mpr hfar).le
    · exact WithTop.coe_le_coe.mpr (Cut.before_lt_after.mpr hsame.le).le
  obtain ⟨specifiers, range, hspecifiers, hrange, -, hexact⟩ :=
    releaseSpecifiersToRanges_fromReleaseOnlyBounds (List.cons_ne_nil _ _) hbounds hsorted
  refine ⟨specifiers, range, hspecifiers, hrange, hexact ?_⟩
  refine List.forall_mem_cons.mpr ⟨.inr (.inr ⟨3, 8, rfl, rfl⟩), List.forall_mem_singleton.mpr ?_⟩
  exact .inr (.inl ⟨.new [3, 10, 2], rfl, (Cut.after_eq_after.mpr hsame).symm⟩)

/-- No interval at all is written as no specifier, which admits every version. -/
theorem releaseSpecifiersToRanges_fromReleaseOnlyBounds_nil :
    (∀ gap ∈ gapsBetween (([] : List (Bound ValidVersion × Bound ValidVersion)).map cutsOf),
      GapWritten gap) ∧
    fromReleaseOnlyBounds [] = some [] ∧
    Resolver.releaseSpecifiersToRanges [] = some .full ∧
    (Ranges.full : Ranges ValidVersion).contains (.new [3, 8]) = true ∧
    (⟨[]⟩ : Ranges ValidVersion).contains (.new [3, 8]) = false :=
  ⟨List.forall_mem_nil _, rfl, rfl, rfl, rfl⟩

end VersionSpecifiers

end Uv.Pep440
