import Uv.Resolver.Environment
import Uv.Resolver.MarkerBounds

/-!
# Forking by Python requirement

When a dependency asks for a newer Python version, the target of the requirement
is split at the lower bound of what it asks for, and the environment is narrowed
to each half.

The halves are intervals between releases, and between two different cuts at
releases lies some version.  So a half is empty only if no version is in it.
-/

namespace Uv.Resolver

open Uv.Core Uv.Core.Order Uv.Pep440 Uv.Pep508 Uv.Pep508.Interner

/-! ## Splitting a requirement -/

namespace RequiresPythonRange

/-- `RequiresPythonRange::from_range`. -/
def fromRange (range : Ranges ValidVersion) : RequiresPythonRange :=
  match range.boundingRange with
  | some (lower, upper) => ⟨lower, upper⟩
  | none => ⟨.unbounded, .unbounded⟩

/-- `From<RequiresPythonRange> for Ranges<Version>`. -/
def toRanges (range : RequiresPythonRange) : Ranges ValidVersion :=
  .fromRangeBounds range.lower range.upper

/-- Both bounds lie at releases. -/
structure Released (range : RequiresPythonRange) : Prop where
  lower : IsReleaseBound range.lower
  upper : IsReleaseBound range.upper

end RequiresPythonRange

section Operations

variable [RangeOps ValidVersion]

namespace PythonRequirement

/-- The part of the target that does not lie before the bound. -/
def rangeAfter (requirement : PythonRequirement) (bound : Bound ValidVersion) :
    Ranges ValidVersion :=
  RangeOps.intersection (Ranges.fromRangeBounds bound requirement.target.upper)
    requirement.target.toRanges

/-- The part of the target that lies before the bound. -/
def rangeBefore (requirement : PythonRequirement) (bound : Bound ValidVersion) :
    Ranges ValidVersion :=
  RangeOps.intersection
    (RangeOps.complement (Ranges.fromRangeBounds bound requirement.target.upper))
    requirement.target.toRanges

/-- Split the requirement at the bound. -/
def split (requirement : PythonRequirement) (bound : Bound ValidVersion) :
    Option (PythonRequirement × PythonRequirement) :=
  let lower := requirement.rangeBefore bound
  let upper := requirement.rangeAfter bound
  if lower.isEmpty || upper.isEmpty then none
  else some (⟨.fromRange lower⟩, ⟨.fromRange upper⟩)

end PythonRequirement

variable [RangeOps Text]

namespace ResolverEnvironment

/-- The check made before the environment is narrowed to a half. -/
def disjointFrom (env : ResolverEnvironment) (half : PythonRequirement) : InternerM Bool := do
  let marker ← half.toMarkerTree
  isDisjoint env.markers marker

def narrowToHalf (env : ResolverEnvironment) (half : PythonRequirement) :
    InternerM (List ResolverEnvironment) := do
  if !(← env.disjointFrom half) then do
    let marker ← half.toMarkerTree
    let env ← env.narrowEnvironment marker
    pure [env]
  else pure []

end ResolverEnvironment

/-- Specifiers without a range panic.  The final debug assertion, that some
environment is left, is not part of the function. -/
def forkVersionByPythonRequirement (requiresPython : List VersionSpecifier)
    (pythonRequirement : PythonRequirement) (env : ResolverEnvironment) :
    InternerM (List ResolverEnvironment) := do
  match RequiresPythonRange.fromSpecifiers requiresPython with
  | none => failure
  | some requiresPython =>
      match pythonRequirement.split requiresPython.lower with
      | none => pure []
      | some (lower, upper) => do
          let before ← env.narrowToHalf lower
          let after ← env.narrowToHalf upper
          pure (before ++ after)

/-- The two checks that `forkVersionByPythonRequirement` makes when neither half is
for the environment. -/
def ResolverEnvironment.disjointFromHalves (env : ResolverEnvironment)
    (halves : PythonRequirement × PythonRequirement) : InternerM Bool := do
  let before ← env.disjointFrom halves.1
  let after ← env.disjointFrom halves.2
  pure (before && after)

end Operations

/-! ## Versions between releases -/

/-- A release is at the position of its release numbers. -/
theorem IsRelease.exists_key {version : ValidVersion} (hrelease : IsRelease version) :
    ∃ numbers, version.onlyReleaseTrimmed = .new numbers ∧
      OrdKey.key version = OrdKey.key (ValidVersion.new numbers) := by
  refine ⟨_, onlyReleaseTrimmed_eq version, ?_⟩
  rw [← onlyReleaseTrimmed_eq]
  exact (Bound.compare_eq_eq.mp hrelease).symm

/-- A post-release comes right after its release. -/
theorem key_withPost (numbers : List ℕ) :
    OrdKey.key (ValidVersion.new numbers) <
        OrdKey.key ((ValidVersion.new numbers).withPost (some 0)) ∧
      ∀ next, OrdKey.key (ValidVersion.new numbers) < OrdKey.key (ValidVersion.new next) →
        OrdKey.key ((ValidVersion.new numbers).withPost (some 0)) <
          OrdKey.key (ValidVersion.new next) := by
  have hpost : OrdKey.key ((ValidVersion.new numbers).withPost (some 0)) =
      (toLex (0, toLex (trimZeros numbers,
        ({ Version.releaseOnly [] with post := some 0 }).sortableTuple.key)) : VersionKey) := by
    change ((Version.new numbers).withPost (some 0)).makeFull.key = _
    rw [Version.makeFull_withPost, Version.makeFull_new]
    rfl
  constructor
  · have hsuffix : (Version.releaseOnly []).sortableTuple.key <
        ({ Version.releaseOnly [] with post := some 0 }).sortableTuple.key := by decide
    rw [hpost, key_new, Prod.Lex.toLex_lt_toLex, Prod.Lex.toLex_lt_toLex]
    exact .inr ⟨rfl, .inr ⟨rfl, hsuffix⟩⟩
  · intro next hlt
    rw [hpost, key_new]
    rw [key_new, key_new, Prod.Lex.toLex_lt_toLex, Prod.Lex.toLex_lt_toLex] at hlt
    rw [Prod.Lex.toLex_lt_toLex, Prod.Lex.toLex_lt_toLex]
    rcases hlt with hlt | ⟨heq, hlt | ⟨-, hlt⟩⟩
    · exact .inl hlt
    · exact .inr ⟨heq, .inl hlt⟩
    · exact (lt_irrefl _ hlt).elim

/-- A development release of zero comes before all releases. -/
theorem key_withDev_lt (numbers : List ℕ) :
    OrdKey.key ((ValidVersion.new [0]).withDev (some 0)) <
      OrdKey.key (ValidVersion.new numbers) := by
  have hdev : OrdKey.key ((ValidVersion.new [0]).withDev (some 0)) =
      (toLex (0, toLex ([],
        ({ Version.releaseOnly [] with dev := some 0 }).sortableTuple.key)) : VersionKey) := by
    change ((Version.new [0]).withDev (some 0)).makeFull.key = _
    rw [Version.makeFull_withDev, Version.makeFull_new]
    rfl
  rw [hdev, key_new, Prod.Lex.toLex_lt_toLex, Prod.Lex.toLex_lt_toLex]
  refine .inr ⟨rfl, ?_⟩
  cases htrim : trimZeros numbers with
  | nil => exact .inr ⟨rfl, by decide⟩
  | cons number rest => exact .inl (List.nil_lt_cons _ _)

/-- A version at the start of the interval, close enough that an interval between
releases holds it. -/
def firstVersion : Bound ValidVersion → ValidVersion
  | .included version => version
  | .excluded version => version.onlyReleaseTrimmed.withPost (some 0)
  | .unbounded => (ValidVersion.new [0]).withDev (some 0)

theorem isBelow_firstVersion {start : Bound ValidVersion} (hstart : IsReleaseBound start) :
    start.isBelow (firstVersion start) = true := by
  rw [Bound.isBelow_iff]
  cases start with
  | included version => exact le_rfl
  | excluded version =>
      obtain ⟨numbers, htrimmed, hkey⟩ := IsRelease.exists_key hstart
      rw [← not_lt, Bound.lowerCut, Cut.before_lt_after, not_le, hkey, firstVersion, htrimmed]
      exact (key_withPost numbers).1
  | unbounded => exact bot_le

/-- No release separates the start of an interval from its first version. -/
theorem key_firstVersion_lt {start : Bound ValidVersion} (hstart : IsReleaseBound start)
    {version : ValidVersion} (hrelease : IsRelease version) :
    (start.lowerCut < Cut.before version → Cut.before (firstVersion start) < Cut.before version) ∧
      (start.lowerCut < Cut.after version →
        Cut.before (firstVersion start) < Cut.after version) := by
  obtain ⟨numbers', -, hkey'⟩ := hrelease.exists_key
  rw [Cut.before_lt_before, Cut.before_lt_after, hkey']
  cases start with
  | included other =>
      rw [Bound.lowerCut, Cut.before_lt_before, Cut.before_lt_after, hkey']
      exact ⟨id, id⟩
  | excluded other =>
      obtain ⟨numbers, htrimmed, hkey⟩ := IsRelease.exists_key hstart
      rw [Bound.lowerCut, Cut.after_lt_before, Cut.after_lt_after, hkey, hkey', firstVersion,
        htrimmed]
      have hpost := (key_withPost numbers).2 numbers'
      exact ⟨hpost, fun hlt => (hpost hlt).le⟩
  | unbounded =>
      have hlt := key_withDev_lt numbers'
      exact ⟨fun _ => hlt, fun _ => hlt.le⟩

theorem firstVersion_lt_lowerCut {start bound : Bound ValidVersion}
    (hstart : IsReleaseBound start) (hbound : IsReleaseBound bound)
    (hlt : start.lowerCut < bound.lowerCut) : bound.isBelow (firstVersion start) = false := by
  rw [← Bool.not_eq_true, Bound.isBelow_iff, not_le]
  cases bound with
  | included version => exact (key_firstVersion_lt hstart hbound).1 hlt
  | excluded version => exact (key_firstVersion_lt hstart hbound).2 hlt
  | unbounded => exact (not_lt_bot hlt).elim

theorem firstVersion_lt_upperCut {start bound : Bound ValidVersion}
    (hstart : IsReleaseBound start) (hbound : IsReleaseBound bound)
    (hlt : (start.lowerCut : WithTop (Cut ValidVersion)) < bound.upperCut) :
    bound.isAbove (firstVersion start) = true := by
  rw [Bound.isAbove_iff]
  cases bound with
  | included version =>
      exact WithTop.coe_lt_coe.mpr
        ((key_firstVersion_lt hstart hbound).2 (WithTop.coe_lt_coe.mp hlt))
  | excluded version =>
      exact WithTop.coe_lt_coe.mpr
        ((key_firstVersion_lt hstart hbound).1 (WithTop.coe_lt_coe.mp hlt))
  | unbounded => exact WithTop.coe_lt_top _

/-! ## Halves -/

/-- A version that a bound at the same cut stands at is a release too. -/
theorem IsRelease.of_key {version other : ValidVersion} (hrelease : IsRelease version)
    (hkey : OrdKey.key other = OrdKey.key version) : IsRelease other :=
  Bound.compare_eq_eq.mpr (hrelease.key_eq hkey)

theorem IsReleaseBound.of_lowerCut {bound other : Bound ValidVersion}
    (hrelease : IsReleaseBound bound) (hcut : other.lowerCut = bound.lowerCut) :
    IsReleaseBound other := by
  cases other with
  | unbounded => trivial
  | included version =>
      cases bound with
      | included version' => exact hrelease.of_key (Cut.before_eq_before.mp hcut)
      | excluded version' => exact (Cut.before_ne_after hcut).elim
      | unbounded => exact ((Cut.bot_lt_before version).ne' hcut).elim
  | excluded version =>
      cases bound with
      | included version' => exact (Cut.before_ne_after hcut.symm).elim
      | excluded version' => exact hrelease.of_key (Cut.after_eq_after.mp hcut)
      | unbounded => exact ((Cut.bot_lt_after version).ne' hcut).elim

theorem IsReleaseBound.of_upperCut {bound other : Bound ValidVersion}
    (hrelease : IsReleaseBound bound) (hcut : other.upperCut = bound.upperCut) :
    IsReleaseBound other := by
  by_cases hother : other.isUnbounded = true
  · cases other with
    | unbounded => trivial
    | included version => cases hother
    | excluded version => cases hother
  rw [Bool.not_eq_true] at hother
  have hbound : bound.isUnbounded = false := by
    cases bound with
    | unbounded =>
        rw [← Bound.lowerCut_flip hother] at hcut
        exact (WithTop.coe_ne_top hcut).elim
    | included version => rfl
    | excluded version => rfl
  rw [← Bound.lowerCut_flip hother, ← Bound.lowerCut_flip hbound, WithTop.coe_inj] at hcut
  have hflip : IsReleaseBound other.flip := by
    apply IsReleaseBound.of_lowerCut _ hcut
    cases bound <;> exact hrelease
  cases other <;> exact hflip

theorem Ranges.mem_fromRangeBounds {start stop : Bound ValidVersion}
    (position : Cut ValidVersion) :
    (Ranges.fromRangeBounds start stop).Mem position ↔ Between (cutsOf (start, stop)) position := by
  by_cases hvalid : Bound.validSegment start stop = true
  · exact (Ranges.isInterval_fromRangeBounds hvalid).mem_iff position
  · rw [Ranges.fromRangeBounds, if_neg hvalid]
    rw [Bound.validSegment_iff] at hvalid
    refine iff_of_false (by simp [Ranges.Mem, Ranges.empty]) fun hbetween => ?_
    exact hvalid ((WithTop.coe_le_coe.mpr hbetween.1).trans_lt hbetween.2)

namespace RequiresPythonRange

theorem between_iff {range : RequiresPythonRange} {version : ValidVersion} :
    range.Between version ↔
      Core.Between (cutsOf (range.lower, range.upper)) (Cut.before version) :=
  and_congr Bound.isBelow_iff Bound.isAbove_iff

/-- The bounds of an interval between two cuts. -/
theorem fromRange_spec {range : Ranges ValidVersion} {lower upper : Bound ValidVersion}
    (hrange : range.IsInterval (cutsOf (lower, upper))) (hlower : IsReleaseBound lower)
    (hupper : IsReleaseBound upper) : (fromRange range).Released ∧
      ∀ version, (fromRange range).Between version ↔
        lower.isBelow version = true ∧ upper.isAbove version = true := by
  obtain ⟨bounds, hbounds, hcuts⟩ := hrange.exists_boundingRange
  have heq : fromRange range = ⟨bounds.1, bounds.2⟩ := by rw [fromRange, hbounds]
  obtain ⟨hcutLower, hcutUpper⟩ := Prod.mk.inj hcuts
  rw [heq]
  refine ⟨⟨hlower.of_lowerCut hcutLower, hupper.of_upperCut hcutUpper⟩, fun version => ?_⟩
  rw [between_iff, Bound.isBelow_iff, Bound.isAbove_iff, ← hcutLower, ← hcutUpper]
  rfl

end RequiresPythonRange

namespace PythonRequirement

section Split

variable [RangeOps ValidVersion] {requirement : PythonRequirement} {bound : Bound ValidVersion}

theorem valid_rangeAfter : (requirement.rangeAfter bound).Valid :=
  RangeOps.valid_intersection (Ranges.valid_fromRangeBounds _ _) (Ranges.valid_fromRangeBounds _ _)

theorem valid_rangeBefore : (requirement.rangeBefore bound).Valid :=
  RangeOps.valid_intersection (RangeOps.valid_complement (Ranges.valid_fromRangeBounds _ _))
    (Ranges.valid_fromRangeBounds _ _)

theorem mem_rangeAfter (position : Cut ValidVersion) :
    (requirement.rangeAfter bound).Mem position ↔
      Between (cutsOf (requirement.target.lower, requirement.target.upper)) position ∧
        bound.lowerCut ≤ position := by
  rw [rangeAfter, RequiresPythonRange.toRanges,
    RangeOps.mem_intersection (Ranges.valid_fromRangeBounds _ _)
      (Ranges.valid_fromRangeBounds _ _),
    Ranges.mem_fromRangeBounds, Ranges.mem_fromRangeBounds]
  constructor
  · rintro ⟨hafter, htarget⟩
    exact ⟨htarget, hafter.1⟩
  · rintro ⟨htarget, hafter⟩
    exact ⟨⟨hafter, htarget.2⟩, htarget⟩

theorem mem_rangeBefore (position : Cut ValidVersion) :
    (requirement.rangeBefore bound).Mem position ↔
      Between (cutsOf (requirement.target.lower, requirement.target.upper)) position ∧
        position < bound.lowerCut := by
  rw [rangeBefore, RequiresPythonRange.toRanges,
    RangeOps.mem_intersection (RangeOps.valid_complement (Ranges.valid_fromRangeBounds _ _))
      (Ranges.valid_fromRangeBounds _ _),
    RangeOps.mem_complement (Ranges.valid_fromRangeBounds _ _), Ranges.mem_fromRangeBounds,
    Ranges.mem_fromRangeBounds, ← not_le]
  constructor
  · rintro ⟨houtside, htarget⟩
    exact ⟨htarget, fun hafter => houtside ⟨hafter, htarget.2⟩⟩
  · rintro ⟨htarget, hbefore⟩
    exact ⟨fun hafter => hbefore hafter.1, htarget⟩

omit [RangeOps ValidVersion] in
theorem isBelow_eq_false {version : ValidVersion} :
    bound.isBelow version = false ↔ Cut.before version < bound.lowerCut := by
  rw [← Bool.not_eq_true, Bound.isBelow_iff, not_le]

/-- Some version of the target lies before the bound, and some does not. -/
def Splits (requirement : PythonRequirement) (bound : Bound ValidVersion) : Prop :=
  (∃ version, requirement.target.Between version ∧ bound.isBelow version = false) ∧
    ∃ version, requirement.target.Between version ∧ bound.isBelow version = true

omit [RangeOps ValidVersion] in
theorem exists_mem {range : Ranges ValidVersion} (hvalid : range.Valid)
    (hempty : range.isEmpty = false) : ∃ position, range.Mem position := by
  by_contra hnone
  rw [(Ranges.isEmpty_iff hvalid).mpr (not_exists.mp hnone)] at hempty
  cases hempty

theorem not_isEmpty_of_splits (hsplits : requirement.Splits bound) :
    (requirement.rangeBefore bound).isEmpty = false ∧
      (requirement.rangeAfter bound).isEmpty = false := by
  obtain ⟨⟨before, hbefore, hnot⟩, after, hafter, hbelow⟩ := hsplits
  rw [← Bool.not_eq_true, ← Bool.not_eq_true, Ranges.isEmpty_iff valid_rangeBefore,
    Ranges.isEmpty_iff valid_rangeAfter]
  constructor
  · intro hnone
    exact hnone (Cut.before before) ((mem_rangeBefore _).mpr
      ⟨RequiresPythonRange.between_iff.mp hbefore, isBelow_eq_false.mp hnot⟩)
  · intro hnone
    exact hnone (Cut.before after) ((mem_rangeAfter _).mpr
      ⟨RequiresPythonRange.between_iff.mp hafter, Bound.isBelow_iff.mp hbelow⟩)

/-- The bound lies between the two ends of the target. -/
structure Inside (target : RequiresPythonRange) (bound : Bound ValidVersion) : Prop where
  start : target.lower.lowerCut < bound.lowerCut
  stop : (bound.lowerCut : WithTop (Cut ValidVersion)) < target.upper.upperCut

theorem inside_of_not_isEmpty (hbefore : (requirement.rangeBefore bound).isEmpty = false)
    (hafter : (requirement.rangeAfter bound).isEmpty = false) :
    Inside requirement.target bound := by
  obtain ⟨first, hfirst⟩ := exists_mem valid_rangeBefore hbefore
  obtain ⟨last, hlast⟩ := exists_mem valid_rangeAfter hafter
  rw [mem_rangeBefore] at hfirst
  rw [mem_rangeAfter] at hlast
  exact ⟨hfirst.1.1.trans_lt hfirst.2, (WithTop.coe_le_coe.mpr hlast.2).trans_lt hlast.1.2⟩

omit [RangeOps ValidVersion] in
theorem Inside.splits (hinside : Inside requirement.target bound)
    (htarget : requirement.target.Released) (hbound : IsReleaseBound bound) :
    requirement.Splits bound := by
  have hstop := (WithTop.coe_lt_coe.mpr hinside.start).trans hinside.stop
  have hbelow := isBelow_firstVersion hbound
  refine ⟨⟨firstVersion requirement.target.lower, ⟨isBelow_firstVersion htarget.lower,
    firstVersion_lt_upperCut htarget.lower htarget.upper hstop⟩,
    firstVersion_lt_lowerCut htarget.lower hbound hinside.start⟩,
    firstVersion bound, ⟨?_, firstVersion_lt_upperCut hbound htarget.upper hinside.stop⟩, hbelow⟩
  exact Bound.isBelow_iff.mpr (hinside.start.le.trans (Bound.isBelow_iff.mp hbelow))

/-- What the halves of a requirement are. -/
structure Halves (requirement : PythonRequirement) (bound : Bound ValidVersion)
    (halves : PythonRequirement × PythonRequirement) : Prop where
  releasedBefore : halves.1.target.Released
  releasedAfter : halves.2.target.Released
  before : ∀ version, halves.1.target.Between version ↔
    requirement.target.Between version ∧ bound.isBelow version = false
  after : ∀ version, halves.2.target.Between version ↔
    requirement.target.Between version ∧ bound.isBelow version = true

theorem Inside.halves (hinside : Inside requirement.target bound)
    (htarget : requirement.target.Released) (hbound : IsReleaseBound bound) :
    requirement.Halves bound (⟨.fromRange (requirement.rangeBefore bound)⟩,
      ⟨.fromRange (requirement.rangeAfter bound)⟩) := by
  have hunbounded : bound.isUnbounded = false := by
    cases bound with
    | unbounded => exact (not_lt_bot hinside.start).elim
    | included version => rfl
    | excluded version => rfl
  have hflip := Bound.upperCut_flip hunbounded
  have hflipRelease : IsReleaseBound bound.flip := by
    cases bound <;> exact hbound
  have hbefore : (requirement.rangeBefore bound).IsInterval
      (cutsOf (requirement.target.lower, bound.flip)) := by
    refine .of_mem valid_rangeBefore ?_ fun position => ?_
    · rw [cutsOf, hflip]
      exact WithTop.coe_lt_coe.mpr hinside.start
    · rw [mem_rangeBefore, Between, Between, cutsOf, cutsOf, hflip, WithTop.coe_lt_coe]
      constructor
      · rintro ⟨⟨hstart, -⟩, hbound⟩
        exact ⟨hstart, hbound⟩
      · rintro ⟨hstart, hbound⟩
        exact ⟨⟨hstart, (WithTop.coe_lt_coe.mpr hbound).trans hinside.stop⟩, hbound⟩
  have hafter : (requirement.rangeAfter bound).IsInterval
      (cutsOf (bound, requirement.target.upper)) := by
    refine .of_mem valid_rangeAfter hinside.stop fun position => ?_
    rw [mem_rangeAfter]
    constructor
    · rintro ⟨⟨-, hstop⟩, hbound⟩
      exact ⟨hbound, hstop⟩
    · rintro ⟨hbound, hstop⟩
      exact ⟨⟨hinside.start.le.trans hbound, hstop⟩, hbound⟩
  obtain ⟨hreleasedBefore, hbetweenBefore⟩ :=
    RequiresPythonRange.fromRange_spec hbefore htarget.lower hflipRelease
  obtain ⟨hreleasedAfter, hbetweenAfter⟩ :=
    RequiresPythonRange.fromRange_spec hafter hbound htarget.upper
  refine ⟨hreleasedBefore, hreleasedAfter, fun version => ?_, fun version => ?_⟩
  · rw [hbetweenBefore, Bound.isAbove_iff, hflip, WithTop.coe_lt_coe, ← isBelow_eq_false]
    constructor
    · rintro ⟨hstart, hbound⟩
      refine ⟨⟨hstart, Bound.isAbove_iff.mpr ?_⟩, hbound⟩
      exact (WithTop.coe_lt_coe.mpr (isBelow_eq_false.mp hbound)).trans hinside.stop
    · rintro ⟨⟨hstart, -⟩, hbound⟩
      exact ⟨hstart, hbound⟩
  · rw [hbetweenAfter]
    constructor
    · rintro ⟨hbound, hstop⟩
      refine ⟨⟨Bound.isBelow_iff.mpr ?_, hstop⟩, hbound⟩
      exact hinside.start.le.trans (Bound.isBelow_iff.mp hbound)
    · rintro ⟨⟨-, hstop⟩, hbound⟩
      exact ⟨hbound, hstop⟩

/-- A requirement splits at a bound just when versions lie on both sides of it. -/
theorem split_spec (htarget : requirement.target.Released) (hbound : IsReleaseBound bound) :
    requirement.split bound = none ∧ ¬ requirement.Splits bound ∨
      ∃ halves, requirement.split bound = some halves ∧ requirement.Splits bound ∧
        requirement.Halves bound halves := by
  by_cases hempty : ((requirement.rangeBefore bound).isEmpty ||
      (requirement.rangeAfter bound).isEmpty) = true
  · refine .inl ⟨if_pos hempty, fun hsplits => ?_⟩
    obtain ⟨hbefore, hafter⟩ := not_isEmpty_of_splits hsplits
    rw [hbefore, hafter] at hempty
    cases hempty
  · rw [Bool.or_eq_true, not_or, Bool.not_eq_true, Bool.not_eq_true] at hempty
    have hinside := inside_of_not_isEmpty hempty.1 hempty.2
    refine .inr ⟨_, if_neg ?_, hinside.splits htarget hbound, hinside.halves htarget hbound⟩
    rw [hempty.1, hempty.2]
    decide

end Split

end PythonRequirement

/-! ## The marker of a requirement between releases -/

section Marker

variable [RangeOps ValidVersion] [RangeOps Text] {s : Interner}
  {below : Variable → Variable → Prop}

namespace PythonRequirement

/-- A comparison is with the release of the version. -/
theorem compareMarker_trim {operator : Operator} (version : ValidVersion)
    (hoperator : operator ≠ .tildeEqual) (range : ValidVersion → Ranges ValidVersion)
    (hrange : ∀ version, (VersionSpecifier.onlyRelease ⟨operator, version,
      fun htilde => (hoperator htilde).elim⟩).releaseSpecifierToRange true =
        some (range version.onlyRelease.onlyReleaseTrimmed)) :
    compareMarker operator version hoperator =
      compareMarker operator version.onlyReleaseTrimmed hoperator := by
  have hedges : ∀ version, expressionEdges (.version .pythonFullVersion
      ⟨operator, version, fun htilde => (hoperator htilde).elim⟩) =
        some (.ok (.version .pythonFullVersion,
          .version (Edges.fromRange (range version.onlyReleaseTrimmed)))) := by
    intro version
    change (Option.map _ (VersionSpecifier.releaseSpecifierToRange _ true)).bind _ = _
    rw [hrange, onlyReleaseTrimmed_onlyRelease]
    rfl
  have htrim := RequiresPythonRange.trimBound_trimBound (.included version)
  simp only [compareMarker, expression, hedges, Bound.included.inj htrim]

theorem lowerMarker_trim (bound : Bound ValidVersion) :
    lowerMarker bound = lowerMarker (trimBound bound) := by
  cases bound with
  | included version => exact compareMarker_trim version (by decide) .higherThan fun _ => rfl
  | excluded version =>
      exact compareMarker_trim version (by decide) .strictlyHigherThan fun _ => rfl
  | unbounded => rfl

theorem upperMarker_trim (bound : Bound ValidVersion) :
    upperMarker bound = upperMarker (trimBound bound) := by
  cases bound with
  | included version => exact compareMarker_trim version (by decide) .lowerThan fun _ => rfl
  | excluded version =>
      exact compareMarker_trim version (by decide) .strictlyLowerThan fun _ => rfl
  | unbounded => rfl

theorem toMarkerTree_trim (range : RequiresPythonRange) :
    toMarkerTree ⟨range⟩ = toMarkerTree ⟨⟨trimBound range.lower, trimBound range.upper⟩⟩ := by
  obtain ⟨lower, upper⟩ := range
  have hlower := lowerMarker_trim lower
  have hupper := upperMarker_trim upper
  cases lower <;> cases upper <;> simp_all only [toMarkerTree, trimBound]

/-- The marker of a requirement holds for the versions between its releases. -/
theorem toMarkerTree_released {requirement : PythonRequirement}
    (hreleased : requirement.target.Released) (hsound : Sound below s) :
    Ensures (Sound below) requirement.toMarkerTree s fun s' r =>
      Named s' r ∧ OnlyPython s' r ∧ ∀ env extras, s'.evaluate env extras r = true ↔
        requirement.target.Between env.pythonFullVersion := by
  obtain ⟨range⟩ := requirement
  rw [toMarkerTree_trim]
  refine (toMarkerTree_evaluate ⟨RequiresPythonRange.trimBound_trimBound _,
    RequiresPythonRange.trimBound_trimBound _⟩ hsound).weaken ?_
  rintro r s' - - ⟨hnamed, hvars, hevaluate⟩
  refine ⟨hnamed, hvars, fun env extras => ?_⟩
  rw [hevaluate, RequiresPythonRange.Between, RequiresPythonRange.Between, Bound.isBelow_iff,
    Bound.isBelow_iff, Bound.isAbove_iff, Bound.isAbove_iff,
    trimBound_lowerCut hreleased.lower rfl, trimBound_upperCut hreleased.upper rfl]

end PythonRequirement

/-- Two diagrams, one of them about the Python version alone, are found disjoint only if no
valuation satisfies both. -/
theorem isDisjoint_onlyPython {x y : NodeId} (hsound : Sound below s) (hx : s.Valid x)
    (hy : s.Valid y) (hpython : OnlyPython s y) :
    Ensures (Sound below) (isDisjoint x y) s fun s' answer => answer = true →
      ∀ v, ¬ (Holds s' v x ∧ Holds s' v y) := by
  obtain ⟨answer, hanswer, hdisjoint⟩ :=
    disjointness_sound hsound.wellFormed hx hy (Nat.lt_succ_self _)
  have hvars : ∀ xNode yNode, s.node x = some xNode → s.node y = some yNode →
      (xNode.var.isConflictingVariable && yNode.var.isConflictingVariable) = false := by
    intro xNode yNode _ hyNode
    rw [(hpython.cases_node hyNode).1, Bool.and_eq_false_iff]
    exact .inr rfl
  apply (isDisjoint_of_not_conflicting hsound hx hy hvars hanswer).weaken
  rintro _ _ - - ⟨rfl, rfl⟩
  exact hdisjoint

end Marker

/-! ## What forking promises -/

namespace ResolverEnvironment

/-- The number of the environments whose markers apply. -/
abbrev countApplying (s : Interner) (environment : MarkerEnvironment) (extras : ExtrasEnvironment)
    (envs : List ResolverEnvironment) : ℕ :=
  envs.countP fun env => s.evaluate environment extras env.markers

/-- The environments share out those Python versions that one environment is for. -/
structure Shared (s : Interner) (env : ResolverEnvironment) (versions : ValidVersion → Prop)
    (envs : List ResolverEnvironment) : Prop where
  valid : ∀ env' ∈ envs, s.Valid env'.markers
  once : ∀ environment extras, versions environment.pythonFullVersion →
    countApplying s environment extras envs = (s.evaluate environment extras env.markers).toNat
  never : ∀ environment extras, ¬ versions environment.pythonFullVersion →
    countApplying s environment extras envs = 0

section Ensures

variable [RangeOps ValidVersion] [RangeOps Text] {s s' : Interner}
  {below : Variable → Variable → Prop} {env : ResolverEnvironment} {half : PythonRequirement}
  {versions versions' : ValidVersion → Prop} {envs envs' : List ResolverEnvironment}

omit [RangeOps ValidVersion] [RangeOps Text] in
theorem Shared.mono (hwf : s.WellFormed) (hwf' : s'.WellFormed) (hle : s ≤ s')
    (henv : s.Valid env.markers) (hshared : Shared s env versions envs) :
    Shared s' env versions envs := by
  have hcount : ∀ environment extras, countApplying s' environment extras envs =
      countApplying s environment extras envs := by
    intro environment extras
    apply List.countP_congr
    intro env' hmem
    rw [evaluate_mono hwf hwf' hle (hshared.valid env' hmem)]
  refine ⟨fun env' hmem => (hshared.valid env' hmem).mono hle, ?_, ?_⟩
  · intro environment extras hversion
    rw [hcount, evaluate_mono hwf hwf' hle henv]
    exact hshared.once environment extras hversion
  · intro environment extras hversion
    rw [hcount]
    exact hshared.never environment extras hversion

omit [RangeOps ValidVersion] [RangeOps Text] in
theorem countApplying_append (environment : MarkerEnvironment) (extras : ExtrasEnvironment) :
    countApplying s environment extras (envs ++ envs') =
      countApplying s environment extras envs + countApplying s environment extras envs' :=
  List.countP_append

omit [RangeOps ValidVersion] [RangeOps Text] in
theorem Shared.append (hshared : Shared s env versions envs)
    (hshared' : Shared s env versions' envs') (hdisjoint : ∀ version, ¬ (versions version ∧
      versions' version)) :
    Shared s env (fun version => versions version ∨ versions' version) (envs ++ envs') := by
  refine ⟨fun env' hmem => ?_, fun environment extras hversion => ?_,
    fun environment extras hversion => ?_⟩
  · exact (List.mem_append.mp hmem).elim (hshared.valid env') (hshared'.valid env')
  · rw [countApplying_append]
    rcases hversion with hversion | hversion
    · rw [hshared.once environment extras hversion, hshared'.never environment extras
        fun hversion' => hdisjoint _ ⟨hversion, hversion'⟩, Nat.add_zero]
    · rw [hshared.never environment extras fun hversion' => hdisjoint _ ⟨hversion', hversion⟩,
        hshared'.once environment extras hversion, Nat.zero_add]
  · rw [not_or] at hversion
    rw [countApplying_append, hshared.never environment extras hversion.1,
      hshared'.never environment extras hversion.2]

/-- A half that is found disjoint with the environment holds none of its Python versions. -/
theorem disjointFrom_ensures (hsound : Sound below s) (henv : s.Valid env.markers)
    (hhalf : half.target.Released) :
    Ensures (Sound below) (env.disjointFrom half) s fun s' answer => answer = true →
      Shared s' env half.target.Between [] := by
  apply Ensures.bind (PythonRequirement.toMarkerTree_released hhalf hsound)
  rintro marker s₁ hsound₁ hle₁ ⟨hnamed, hpython, hevaluate⟩
  apply (isDisjoint_onlyPython hsound₁ (henv.mono hle₁) hnamed.valid hpython).weaken
  intro answer s₂ hsound₂ hle₂ hdisjoint htrue
  have hwf₂ := hsound₂.wellFormed
  refine ⟨by simp, fun environment extras hversion => ?_, fun _ _ _ => rfl⟩
  cases happlies : s₂.evaluate environment extras env.markers with
  | false => rfl
  | true =>
      have hmarker := (hevaluate environment extras).mpr hversion
      rw [← evaluate_mono hsound₁.wellFormed hwf₂ hle₂ hnamed.valid,
        evaluate_iff_accepts hwf₂ (hnamed.valid.mono hle₂)] at hmarker
      rw [evaluate_iff_accepts hwf₂ ((henv.mono hle₁).mono hle₂)] at happlies
      exact (hdisjoint htrue _ ⟨happlies.holds, hmarker.holds⟩).elim

/-- What is made of one half, by the answer of the check. -/
theorem narrowToHalf_ensures (hsound : Sound below s) (henv : s.Valid env.markers)
    (hhalf : half.target.Released) : ∃ answer s₁ envs s', (env.disjointFrom half).run s =
      some (answer, s₁) ∧ (env.narrowToHalf half).run s = some (envs, s') ∧ Sound below s' ∧
        s ≤ s' ∧ Shared s' env half.target.Between envs ∧
          if answer then envs = [] ∧ s' = s₁ else envs ≠ [] := by
  obtain ⟨answer, s₁, hrun, hsound₁, hle₁, hdisjoint⟩ := disjointFrom_ensures hsound henv hhalf
  cases answer with
  | true =>
      refine ⟨true, s₁, [], s₁, hrun, ?_, hsound₁, hle₁, hdisjoint rfl, rfl, rfl⟩
      simp only [narrowToHalf, StateT.run_bind, hrun]
      rfl
  | false =>
      have hnarrowed : Ensures (Sound below) (do
          let marker ← half.toMarkerTree
          let env ← env.narrowEnvironment marker
          pure [env]) s₁ fun s' envs => Shared s' env half.target.Between envs ∧ envs ≠ [] := by
        apply Ensures.bind (PythonRequirement.toMarkerTree_released hhalf hsound₁)
        rintro marker s₂ hsound₂ hle₂ ⟨hnamed, hpython, hevaluate⟩
        have hnarrow : Ensures (Sound below) (env.narrowEnvironment marker) s₂ fun s' env' =>
            Conj s' env.markers marker env'.markers :=
          Ensures.bind (and_ensures hsound₂ ((henv.mono hle₁).mono hle₂) hnamed.valid)
            fun markers s₃ hsound₃ _ hconj => Ensures.pure hsound₃ hconj
        apply Ensures.bind hnarrow
        intro env' s₃ hsound₃ hle₃ hconj
        apply Ensures.pure hsound₃
        have hmarkers : ∀ environment extras, s₃.evaluate environment extras env'.markers =
            (s₃.evaluate environment extras env.markers &&
              s₂.evaluate environment extras marker) := by
          intro environment extras
          rw [hconj.evaluate_onlyPython hsound₃.wellFormed (.inr (hpython.mono hle₃)),
            evaluate_mono hsound₂.wellFormed hsound₃.wellFormed hle₃ hnamed.valid]
        refine ⟨⟨by simpa using hconj.valid, fun environment extras hversion => ?_,
          fun environment extras hversion => ?_⟩, by simp⟩
        · rw [countApplying, List.countP_singleton, hmarkers,
            (hevaluate environment extras).mpr hversion, Bool.and_true]
          cases s₃.evaluate environment extras env.markers <;> rfl
        · rw [← hevaluate environment extras, Bool.not_eq_true] at hversion
          rw [countApplying, List.countP_singleton, hmarkers, hversion, Bool.and_false]
          rfl
      obtain ⟨envs, s', hrun', hsound', hle', hshared, hne⟩ := hnarrowed
      refine ⟨false, s₁, envs, s', hrun, ?_, hsound', hle₁.trans hle', hshared, hne⟩
      simp only [narrowToHalf, StateT.run_bind, hrun]
      exact hrun'

end Ensures

end ResolverEnvironment

/-! ## Forking -/

section Fork

variable [RangeOps ValidVersion] [RangeOps Text] {s : Interner}
  {env : ResolverEnvironment} {requirement : PythonRequirement}
  {requiresPython : List VersionSpecifier} {range : RequiresPythonRange}

/-- A fork by Python requirement: either there are no environments, or each Python version of
the target is in one of them.  There are none only if no version of the target lies on one
side of the bound. -/
structure PythonFork (s : Interner) (requirement : PythonRequirement)
    (bound : Bound ValidVersion) (env : ResolverEnvironment) (envs : List ResolverEnvironment) :
    Prop where
  once : envs = [] ∨ ∀ environment extras,
    requirement.target.Between environment.pythonFullVersion →
      s.evaluate environment extras env.markers = true →
        ResolverEnvironment.countApplying s environment extras envs = 1
  none_iff : envs = [] ↔
    (∀ version, requirement.target.Between version → bound.isBelow version = true) ∨
      ∀ version, requirement.target.Between version → bound.isBelow version = false

omit [RangeOps ValidVersion] [RangeOps Text] in
theorem PythonRequirement.not_splits_iff {bound : Bound ValidVersion} :
    ¬ requirement.Splits bound ↔
      (∀ version, requirement.target.Between version → bound.isBelow version = true) ∨
        ∀ version, requirement.target.Between version → bound.isBelow version = false := by
  simp only [PythonRequirement.Splits, not_and_or, not_exists, ← imp_iff_not_or,
    Bool.not_eq_false, Bool.not_eq_true]

omit [RangeOps ValidVersion] [RangeOps Text] in
theorem isReleaseBound_of_trimBound {bound : Bound ValidVersion} (htrim : trimBound bound = bound) :
    IsReleaseBound bound := by
  cases bound with
  | included version =>
      exact Bound.compare_eq_eq.mpr (congrArg OrdKey.key (Bound.included.inj htrim))
  | excluded version =>
      exact Bound.compare_eq_eq.mpr (congrArg OrdKey.key (Bound.excluded.inj htrim))
  | unbounded => trivial

/-- The runs of the function: the requirement does not split, or the halves share out the
target, and nothing is left if both are found disjoint with the environment. -/
theorem forkVersionByPythonRequirement_run (hreach : Reachable s) (henv : s.Valid env.markers)
    (htarget : requirement.target.Released)
    (hrange : RequiresPythonRange.fromSpecifiers requiresPython = some range) :
    ∃ envs s', (forkVersionByPythonRequirement requiresPython requirement env).run s =
      some (envs, s') ∧
        (∀ environment extras, s'.evaluate environment extras env.markers =
          s.evaluate environment extras env.markers) ∧
        ((requirement.split range.lower = none ∧ ¬ requirement.Splits range.lower ∧ envs = []) ∨
          ∃ halves, requirement.split range.lower = some halves ∧
            requirement.Splits range.lower ∧
              ResolverEnvironment.Shared s' env requirement.target.Between envs ∧
                (envs = [] ↔ ∃ s₂, (env.disjointFromHalves halves).run s = some (true, s₂))) := by
  have hbound : IsReleaseBound range.lower :=
    isReleaseBound_of_trimBound (RequiresPythonRange.trimmed_fromSpecifiers hrange).lower
  simp only [forkVersionByPythonRequirement, hrange]
  rcases PythonRequirement.split_spec htarget hbound with
    ⟨hsplit, hnot⟩ | ⟨⟨before, after⟩, hsplit, hsplits, hhalves⟩
  · exact ⟨[], s, by rw [hsplit]; rfl, fun _ _ => rfl, .inl ⟨hsplit, hnot, rfl⟩⟩
  obtain ⟨answer, s₁, envs, s₁', hanswer, hrun, hsound₁, hle₁, hshared, hbranch⟩ :=
    ResolverEnvironment.narrowToHalf_ensures hreach.sound henv hhalves.releasedBefore
  obtain ⟨answer', s₂, envs', s₂', hanswer', hrun', hsound₂, hle₂, hshared', hbranch'⟩ :=
    ResolverEnvironment.narrowToHalf_ensures hsound₁ (henv.mono hle₁) hhalves.releasedAfter
  refine ⟨envs ++ envs', s₂', ?_, fun environment extras => ?_,
    .inr ⟨_, hsplit, hsplits, ?_, ?_⟩⟩
  · simp only [hsplit, StateT.run_bind, hrun]
    change ((env.narrowToHalf after >>= fun after => pure (envs ++ after)).run s₁') = _
    simp only [StateT.run_bind, hrun']
    rfl
  · exact evaluate_mono hreach.sound.wellFormed hsound₂.wellFormed (hle₁.trans hle₂) henv _ _
  · have hboth := (hshared.mono hsound₁.wellFormed hsound₂.wellFormed hle₂
      (henv.mono hle₁)).append hshared' fun version hversion => by
        have hbefore := ((hhalves.before version).mp hversion.1).2
        rw [((hhalves.after version).mp hversion.2).2] at hbefore
        cases hbefore
    have hversions : (fun version => before.target.Between version ∨
        after.target.Between version) = requirement.target.Between := by
      funext version
      rw [eq_iff_iff, hhalves.before version, hhalves.after version, ← and_or_left]
      cases range.lower.isBelow version <;> simp
    rwa [hversions] at hboth
  · cases answer with
    | true =>
        obtain ⟨rfl, rfl⟩ := hbranch
        have hchecks : (env.disjointFromHalves (before, after)).run s = some (answer', s₂) := by
          simp only [ResolverEnvironment.disjointFromHalves, StateT.run_bind, hanswer]
          change ((env.disjointFrom after >>= fun after => pure (true && after)).run s₁') = _
          simp only [StateT.run_bind, hanswer']
          rfl
        rw [hchecks, List.nil_append]
        cases answer' with
        | true => exact iff_of_true hbranch'.1 ⟨s₂, rfl⟩
        | false => exact iff_of_false hbranch' (by simp)
    | false =>
        refine iff_of_false (by simp [show envs ≠ [] from hbranch]) ?_
        rintro ⟨s₃, hchecks⟩
        obtain ⟨⟨first, s₄⟩, hfirst, hchecks⟩ := Option.bind_eq_some_iff.mp hchecks
        obtain ⟨rfl, rfl⟩ := Prod.mk.inj (Option.some.inj (hanswer.symm.trans hfirst))
        obtain ⟨⟨second, s₅⟩, -, hchecks⟩ := Option.bind_eq_some_iff.mp hchecks
        cases hchecks

/-- It is a fork unless the requirement splits and both halves are found disjoint with the
environment. -/
theorem forkVersionByPythonRequirement_iff (hreach : Reachable s) (henv : s.Valid env.markers)
    (htarget : requirement.target.Released)
    (hrange : RequiresPythonRange.fromSpecifiers requiresPython = some range) :
    ∃ envs s', (forkVersionByPythonRequirement requiresPython requirement env).run s =
      some (envs, s') ∧
        (PythonFork s' requirement range.lower env envs ↔
          ∀ halves, requirement.split range.lower = some halves →
            ∀ s₂, (env.disjointFromHalves halves).run s ≠ some (true, s₂)) := by
  obtain ⟨envs, s', hrun, -, hcases⟩ :=
    forkVersionByPythonRequirement_run hreach henv htarget hrange
  refine ⟨envs, s', hrun, ?_⟩
  rcases hcases with ⟨hsplit, hnot, rfl⟩ | ⟨halves, hsplit, hsplits, hshared, hempty⟩
  · refine iff_of_true ⟨.inl rfl, ?_⟩ (by simp [hsplit])
    exact iff_of_true rfl (PythonRequirement.not_splits_iff.mp hnot)
  · constructor
    · intro hfork other hother s₂ hchecks
      obtain rfl : halves = other := Option.some.inj (hsplit.symm.trans hother)
      have hnone := hempty.mpr ⟨s₂, hchecks⟩
      exact PythonRequirement.not_splits_iff.mpr (hfork.none_iff.mp hnone) hsplits
    · intro hchecks
      have hne : envs ≠ [] := fun hnone => by
        obtain ⟨s₂, hboth⟩ := hempty.mp hnone
        exact hchecks halves hsplit s₂ hboth
      refine ⟨.inr fun environment extras hversion happlies => ?_, ?_⟩
      · rw [hshared.once environment extras hversion, happlies]
        rfl
      · refine iff_of_false hne fun hsides => ?_
        exact PythonRequirement.not_splits_iff.mpr hsides hsplits

end Fork

/-! ## Concrete forks -/

/-- `>=3.9`. -/
private def fromThreeNine : PythonRequirement := ⟨⟨.included (.new [3, 9]), .unbounded⟩⟩

/-- `>=3.10`. -/
private def fromThreeTen : List VersionSpecifier := [⟨.greaterThanEqual, .new [3, 10], by decide⟩]

private theorem released_fromThreeNine : fromThreeNine.target.Released :=
  ⟨show IsRelease _ by decide, trivial⟩

private theorem fromSpecifiers_fromThreeTen :
    RequiresPythonRange.fromSpecifiers fromThreeTen =
      some ⟨.included (.new [3, 10]), .unbounded⟩ := by
  rfl

/-- Python from 3.9 on is split at 3.10. -/
theorem forkVersionByPythonRequirement_iff_threeTen : ∃ envs s',
    (forkVersionByPythonRequirement fromThreeTen fromThreeNine (.universal [])).run
      Interner.default = some (envs, s') ∧
        (PythonFork s' fromThreeNine (.included (.new [3, 10])) (.universal []) envs ↔
          ∀ halves, fromThreeNine.split (.included (.new [3, 10])) = some halves →
            ∀ s₂, ((ResolverEnvironment.universal []).disjointFromHalves halves).run
              Interner.default ≠ some (true, s₂)) :=
  forkVersionByPythonRequirement_iff .default named_true.valid released_fromThreeNine
    fromSpecifiers_fromThreeTen

/-- `python_full_version < '3.8'`. -/
private def beforeThreeEight : Operation :=
  .expression (.version .pythonFullVersion ⟨.lessThan, .new [3, 8], by decide⟩)

/-- An environment for Python before 3.8 is lost, although Python from 3.9 on splits at 3.10. -/
theorem not_pythonFork : ∃ (s : Interner) (requirement : PythonRequirement)
    (env : ResolverEnvironment) (requiresPython : List VersionSpecifier)
    (range : RequiresPythonRange) (envs : List ResolverEnvironment) (s' : Interner),
      Reachable s ∧ s.Valid env.markers ∧ requirement.target.Released ∧
        RequiresPythonRange.fromSpecifiers requiresPython = some range ∧
          (forkVersionByPythonRequirement requiresPython requirement env).run s =
            some (envs, s') ∧ ¬ PythonFork s' requirement range.lower env envs := by
  have hrun : ((performAll [beforeThreeEight] Interner.default).bind fun s =>
      ((forkVersionByPythonRequirement fromThreeTen fromThreeNine ⟨[], .new 0 false, [], []⟩).run
        s).map fun (envs, _) => decide (s.Valid (.new 0 false)) && envs.isEmpty) = some true := by
    decide +kernel
  obtain ⟨s, hperform, hrun⟩ := Option.bind_eq_some_iff.mp hrun
  obtain ⟨⟨envs, s'⟩, hfork, hcheck⟩ := Option.map_eq_some_iff.mp hrun
  simp only [Bool.and_eq_true, decide_eq_true_eq, List.isEmpty_iff] at hcheck
  refine ⟨s, fromThreeNine, _, fromThreeTen, _, envs, s', Reachable.default.performAll hperform,
    hcheck.1, released_fromThreeNine, fromSpecifiers_fromThreeTen, hfork, fun hpython => ?_⟩
  rcases hpython.none_iff.mp hcheck.2 with hafter | hbefore
  · have hbelow := hafter (.new [3, 9]) ⟨by decide, rfl⟩
    revert hbelow
    decide
  · have hbelow := hbefore (.new [3, 10]) ⟨by decide, rfl⟩
    revert hbelow
    decide

end Uv.Resolver
