import Uv.Pep440.PrefixComparison
import Uv.Resolver.RequiresPython

/-!
# Markers on `python_version`

`python_version` is the major and minor version alone, so an expression about it
is lowered to one about `python_full_version`.  Releases compare on their first
two numbers, and then on whether anything is left.
-/

namespace Uv.Pep508

open Uv.Core Uv.Core.Order Uv.Pep440

/-! ## Releases -/

/-- `python_version`: the first two numbers of a release. -/
def majorMinor (numbers : List ℕ) : ValidVersion :=
  .new [numbers.headD 0, numbers.tail.headD 0]

/-- The numbers after the first two are zeros. -/
abbrev NoPatch (numbers : List ℕ) : Prop := trimZeros numbers.tail.tail = []

theorem trimZeros_split (numbers : List ℕ) : trimZeros numbers =
    trimZeros (numbers.headD 0 :: numbers.tail.headD 0 :: numbers.tail.tail) := by
  rw [trimZeros_cons, trimZeros_headD_tail, ← trimZeros_cons, trimZeros_headD_tail]

/-- A release is before a minor version just when its own minor version is. -/
theorem lt_minor_iff {numbers : List ℕ} {major minor : ℕ} :
    trimZeros numbers < trimZeros [major, minor] ↔
      numbers.headD 0 < major ∨ numbers.headD 0 = major ∧ numbers.tail.headD 0 < minor := by
  rw [trimZeros_split, trimZeros_cons_lt, trimZeros_cons_lt]
  simp [trimZeros]

theorem minor_lt_iff {numbers : List ℕ} {major minor : ℕ} :
    trimZeros [major, minor] < trimZeros numbers ↔
      major < numbers.headD 0 ∨ major = numbers.headD 0 ∧
        (minor < numbers.tail.headD 0 ∨ minor = numbers.tail.headD 0 ∧ ¬ NoPatch numbers) := by
  rw [trimZeros_split numbers, trimZeros_cons_lt, trimZeros_cons_lt]
  have hnil : trimZeros ([] : List ℕ) = [] := rfl
  rw [hnil]
  have hpos : ([] : List ℕ) < trimZeros numbers.tail.tail ↔ ¬ NoPatch numbers := by
    rw [NoPatch]
    cases trimZeros numbers.tail.tail <;> simp
  rw [hpos]

/-! ## Specifiers of releases -/

/-- What a specifier of a release says of another release. -/
def releaseHolds (operator : Operator) (release other : List ℕ) : Prop :=
  match operator with
  | .equal => trimZeros other = trimZeros release
  | .notEqual => trimZeros other ≠ trimZeros release
  | .exactEqual => (Version.new release).display = (Version.new other).display
  | .lessThan => trimZeros other < trimZeros release
  | .lessThanEqual => ¬ trimZeros release < trimZeros other
  | .greaterThan => trimZeros release < trimZeros other
  | .greaterThanEqual => ¬ trimZeros other < trimZeros release
  | .equalStar => VersionSpecifier.releaseMatches release other = true
  | .notEqualStar => VersionSpecifier.releaseMatches release other = false
  | .tildeEqual => VersionSpecifier.releaseMatches release.dropLast other = true ∧
      ¬ trimZeros other < trimZeros release

theorem contains_new {operator : Operator} {release other : List ℕ} {hrelease} :
    (VersionSpecifier.mk operator (.new release) hrelease).contains (.new other) = true ↔
      releaseHolds operator release other := by
  have hfull : ∀ numbers : List ℕ, (ValidVersion.new numbers).val.makeFull =
      Version.releaseOnly numbers := Version.makeFull_new
  have hlocal : ∀ numbers : List ℕ, (ValidVersion.new numbers).val.localVersion =
      .segments [] := fun numbers => by rw [Version.localVersion_eq, hfull]; rfl
  have hepoch : ∀ numbers : List ℕ, (ValidVersion.new numbers).val.epoch = 0 :=
    fun numbers => by rw [Version.epoch_eq, hfull]; rfl
  have hpost : ∀ numbers : List ℕ, (ValidVersion.new numbers).val.isPost = false :=
    fun numbers => by rw [Version.isPost, Version.post_eq, hfull]; rfl
  have hpre : ∀ numbers : List ℕ, (ValidVersion.new numbers).val.anyPrerelease = false :=
    fun numbers => by
      rw [Version.anyPrerelease, Version.isPre, Version.isDev, Version.pre_eq, Version.dev_eq,
        hfull]
      rfl
  have hisLocal : ∀ numbers : List ℕ, (ValidVersion.new numbers).val.isLocal = false :=
    fun numbers => by rw [Version.isLocal, hlocal]; rfl
  have hlt : ∀ left right : List ℕ, (ValidVersion.new left).val.key <
      (ValidVersion.new right).val.key ↔ trimZeros left < trimZeros right :=
    fun _ _ => key_new_lt
  have heq : ∀ left right : List ℕ, (ValidVersion.new left).val.key =
      (ValidVersion.new right).val.key ↔ trimZeros left = trimZeros right := by
    intro left right
    rw [← not_iff_not, ← ne_eq, ← ne_eq, ne_iff_lt_or_gt, ne_iff_lt_or_gt, hlt, hlt]
  have hbeq : ∀ left right : ValidVersion, left.val.beq right.val = true ↔
      left.val.key = right.val.key := fun left right => Version.beq_iff left.valid right.valid
  have hother : (if (ValidVersion.new release).val.localVersion.isEmpty &&
      !(ValidVersion.new other).val.localVersion.isEmpty then
      (ValidVersion.new other).withoutLocal else .new other) = .new other := by
    rw [if_neg (by simp [hlocal, LocalVersion.isEmpty])]
  simp only [VersionSpecifier.contains, hother]
  cases operator with
  | equal => exact (hbeq _ _).trans (heq _ _)
  | notEqual =>
      change (!(ValidVersion.new release).val.beq (ValidVersion.new other).val) = true ↔ _
      rw [Bool.not_eq_true', ← Bool.not_eq_true, hbeq, heq, eq_comm]
      rfl
  | exactEqual => exact beq_iff_eq
  | lessThan =>
      simp only [hepoch, hpre, lt_irrefl, if_false, Bool.and_false, Bool.false_eq_true, and_false]
      exact (Version.lt_iff (ValidVersion.valid _) (ValidVersion.valid _)).trans (hlt _ _)
  | lessThanEqual =>
      change (ValidVersion.new other).val.le (ValidVersion.new release).val = true ↔ ¬ _ < _
      rw [Version.le_iff (ValidVersion.valid _) (ValidVersion.valid _), ← hlt, not_lt]
  | greaterThan =>
      simp only [hepoch, hpost, hisLocal, gt_iff_lt, lt_irrefl, if_false, Bool.and_false,
        Bool.or_self, Bool.false_eq_true, and_false]
      exact (Version.gt_iff (ValidVersion.valid _) (ValidVersion.valid _)).trans (hlt _ _)
  | greaterThanEqual =>
      change (ValidVersion.new other).val.ge (ValidVersion.new release).val = true ↔ ¬ _ < _
      rw [Version.ge_iff (ValidVersion.valid _) (ValidVersion.valid _), ← hlt, not_lt]
  | equalStar =>
      simp only [hepoch, release_new, beq_self_eq_true, Bool.true_and, releaseHolds]
  | notEqualStar =>
      simp only [hepoch, release_new, bne_self_eq_false, Bool.false_or, Bool.not_eq_true',
        releaseHolds]
  | tildeEqual =>
      have hge := (Version.ge_iff (ValidVersion.new other).valid
        (ValidVersion.new release).valid).trans (not_lt.symm.trans (not_congr (hlt other release)))
      simp only [hepoch, release_new, ne_eq, not_true_eq_false, if_false, releaseHolds]
      cases VersionSpecifier.releaseMatches release.dropLast other with
      | false => simp
      | true => simpa using hge

/-! ## What the lowered specifier holds for -/

section Stands

variable [RangeOps ValidVersion]

/-- A specifier that holds for the releases of which the property holds. -/
def Stands (specifier : VersionSpecifier) (holds : List ℕ → Prop) : Prop :=
  ∃ range, specifier.onlyRelease.releaseSpecifierToRange true = some range ∧
    ∀ numbers, range.contains (.new numbers) = true ↔ holds numbers

theorem Stands.congr {specifier : VersionSpecifier} {holds holds' : List ℕ → Prop}
    (hstands : Stands specifier holds) (hsame : ∀ numbers, holds numbers ↔ holds' numbers) :
    Stands specifier holds' := by
  obtain ⟨range, hrange, hcontains⟩ := hstands
  exact ⟨range, hrange, fun numbers => (hcontains numbers).trans (hsame numbers)⟩

theorem stands_lessThan (release : List ℕ) {hrelease} :
    Stands ⟨.lessThan, .new release, hrelease⟩
      fun numbers => trimZeros numbers < trimZeros release := by
  refine ⟨_, rfl, fun numbers => ?_⟩
  rw [Ranges.contains_strictlyLowerThan]
  change OrdKey.key _ <
    OrdKey.key (ValidVersion.onlyReleaseTrimmed (ValidVersion.onlyRelease _)) ↔ _
  rw [onlyRelease_new, key_trimmed_new, key_new_lt]

theorem stands_greaterThanEqual (release : List ℕ) {hrelease} :
    Stands ⟨.greaterThanEqual, .new release, hrelease⟩
      fun numbers => ¬ trimZeros numbers < trimZeros release := by
  refine ⟨_, rfl, fun numbers => ?_⟩
  rw [Ranges.contains_higherThan]
  change OrdKey.key (ValidVersion.onlyReleaseTrimmed (ValidVersion.onlyRelease _)) ≤ _ ↔ _
  rw [onlyRelease_new, key_trimmed_new, ← not_lt, key_new_lt]

theorem stands_equalStar (start : List ℕ) {last : ℕ} (hlast : last < u64Max) {hrelease} :
    Stands ⟨.equalStar, .new (start ++ [last]), hrelease⟩ (PaddedPrefix (start ++ [last])) := by
  have hrange : (VersionSpecifier.onlyRelease ⟨.equalStar, .new (start ++ [last]),
      hrelease⟩).releaseSpecifierToRange true = some (.fromRangeBounds
        (.included (.new (start ++ [last])))
        (.excluded ((ValidVersion.new (start ++ [last])).withRelease (start ++ [last + 1])))) := by
    simp only [VersionSpecifier.onlyRelease, VersionSpecifier.releaseSpecifierToRange,
      onlyRelease_new, release_new, bumpLast_concat start hlast, Option.map_some]
  have hkey : OrdKey.key ((ValidVersion.new (start ++ [last])).withRelease (start ++ [last + 1])) =
      OrdKey.key (ValidVersion.new (start ++ [last + 1])) := by
    change (Version.withRelease _ _).makeFull.key = (Version.new _).makeFull.key
    rw [Version.makeFull_withRelease, Version.makeFull_new]
    change VersionFull.key { (Version.new _).makeFull with release := _ } = _
    rw [Version.makeFull_new]
    rfl
  refine ⟨_, hrange, fun numbers => ?_⟩
  rw [Ranges.contains_fromRangeBounds, paddedPrefix_iff, hkey, ← not_lt, key_new_lt, key_new_lt,
    not_lt]

theorem stands_tildeEqual {major : ℕ} (hmajor : major < u64Max) (minor : ℕ) {hrelease} :
    Stands ⟨.tildeEqual, .new [major, minor], hrelease⟩ fun numbers =>
      ¬ trimZeros numbers < trimZeros [major, minor] ∧
        trimZeros numbers < trimZeros [major + 1] := by
  have hbump : bumpLast [major] = some [major + 1] := bumpLast_concat [] hmajor
  have hrange : (VersionSpecifier.onlyRelease ⟨.tildeEqual, .new [major, minor],
      hrelease⟩).releaseSpecifierToRange true = some (.fromRangeBounds
        (.included (ValidVersion.new [major, minor]).onlyReleaseTrimmed)
        (.excluded (.new [major + 1]))) := by
    simp only [VersionSpecifier.onlyRelease, VersionSpecifier.releaseSpecifierToRange,
      VersionSpecifier.tildeUpper, onlyRelease_new, release_new, List.dropLast, hbump,
      Option.map_some, if_true]
  refine ⟨_, hrange, fun numbers => ?_⟩
  rw [Ranges.contains_fromRangeBounds, key_trimmed_new, ← not_lt, key_new_lt, key_new_lt]

theorem Stands.notEqualStar {version : ValidVersion} {holds : List ℕ → Prop} {hrelease hrelease'}
    (hstands : Stands ⟨.equalStar, version, hrelease⟩ holds) :
    Stands ⟨.notEqualStar, version, hrelease'⟩ fun numbers => ¬ holds numbers := by
  obtain ⟨range, hrange, hcontains⟩ := hstands
  have hvalid : range.Valid := valid_releaseSpecifierToRange hrange
  refine ⟨RangeOps.complement range, ?_, fun numbers => ?_⟩
  · change Option.map RangeOps.complement _ = _
    change _ = some range at hrange
    exact congrArg (Option.map RangeOps.complement) hrange
  · rw [Ranges.contains_iff, RangeOps.mem_complement hvalid, ← Ranges.contains_iff, hcontains]

/-- What a specifier of `python_version` is lowered to holds for the same releases. -/
def Denotes (result : Except NodeId VersionSpecifier) (holds : List ℕ → Prop) : Prop :=
  match result with
  | .ok specifier => Stands specifier holds
  | .error node => (node = .TRUE ∧ ∀ numbers, holds numbers) ∨
      (node = .FALSE ∧ ∀ numbers, ¬ holds numbers)

/-- `===` is read as `==`, which compares versions and not their texts. -/
def asEqual : Operator → Operator
  | .exactEqual => .equal
  | operator => operator

/-- What the specifier says of `python_version`. -/
def minorHolds (operator : Operator) (release numbers : List ℕ) : Prop :=
  releaseHolds (asEqual operator) release [numbers.headD 0, numbers.tail.headD 0]

omit [RangeOps ValidVersion] in
/-- The release that `python_version_to_full_version` looks at. -/
theorem trimmed_cases {release : List ℕ} (hne : release ≠ []) :
    (∃ major minor, ((ValidVersion.new release).onlyReleaseTrimmed.val.release = [major] ∧
        minor = 0 ∨ (ValidVersion.new release).onlyReleaseTrimmed.val.release = [major, minor] ∧
          minor ∈ release.take 2) ∧ trimZeros release = trimZeros [major, minor]) ∨
      (∃ major minor rest, release = major :: minor :: rest ∧ ¬ NoPatch release) ∧
        3 ≤ (ValidVersion.new release).onlyReleaseTrimmed.val.release.length := by
  rw [onlyReleaseTrimmed_new, release_new]
  match release with
  | [] => exact (hne rfl).elim
  | [major] =>
      refine .inl ⟨major, 0, .inl ⟨?_, rfl⟩, trimZeros_split [major]⟩
      rw [trimZeros_cons]
      by_cases hmajor : major = 0 <;> simp [hmajor, trimZeros]
  | major :: minor :: rest =>
      have htrim : trimZeros (major :: minor :: rest) =
          if major = 0 ∧ trimZeros (minor :: rest) = [] then []
          else major :: trimZeros (minor :: rest) := trimZeros_cons _ _
      have htail : trimZeros (minor :: rest) =
          if minor = 0 ∧ trimZeros rest = [] then [] else minor :: trimZeros rest :=
        trimZeros_cons _ _
      by_cases hrest : trimZeros rest = []
      · have hsame : trimZeros (major :: minor :: rest) = trimZeros [major, minor] := by
          rw [trimZeros_cons, trimZeros_cons major, trimZeros_cons, trimZeros_cons minor, hrest]
          rfl
        refine .inl ⟨major, minor, ?_, hsame⟩
        by_cases hminor : minor = 0
        · have hnil : trimZeros (minor :: rest) = [] := by rw [htail, if_pos ⟨hminor, hrest⟩]
          refine .inl ⟨?_, hminor⟩
          by_cases hmajor : major = 0
          · have hall : trimZeros (major :: minor :: rest) = [] := by
              rw [htrim, if_pos ⟨hmajor, hnil⟩]
            rw [if_pos hall, hmajor]
          · have hone : trimZeros (major :: minor :: rest) = [major] := by
              rw [htrim, if_neg fun h => hmajor h.1, hnil]
            rw [hone, if_neg (List.cons_ne_nil _ _)]
        · have hcons : trimZeros (minor :: rest) = [minor] := by
            rw [htail, if_neg fun h => hminor h.1, hrest]
          refine .inr ⟨?_, by simp⟩
          have hboth : trimZeros (major :: minor :: rest) = [major, minor] := by
            rw [htrim, hcons, if_neg (by simp)]
          rw [hboth, if_neg (List.cons_ne_nil _ _)]
      · have hcons : trimZeros (minor :: rest) = minor :: trimZeros rest := by
          rw [htail, if_neg fun h => hrest h.2]
        refine .inr ⟨⟨major, minor, rest, rfl, hrest⟩, ?_⟩
        have hall : trimZeros (major :: minor :: rest) = major :: minor :: trimZeros rest := by
          rw [htrim, hcons, if_neg (by simp)]
        rw [hall, if_neg (List.cons_ne_nil _ _)]
        have hpos := List.length_pos_of_ne_nil hrest
        simp only [List.length_cons]
        omega

omit [RangeOps ValidVersion] in
/-- Two minor versions are the same just when their numbers are. -/
theorem minor_eq_iff {major minor : ℕ} {release : List ℕ}
    (hsame : trimZeros release = trimZeros [major, minor]) (numbers : List ℕ) :
    trimZeros [numbers.headD 0, numbers.tail.headD 0] = trimZeros release ↔
      numbers.headD 0 = major ∧ numbers.tail.headD 0 = minor := by
  rw [hsame, ← not_iff_not, ← ne_eq, ne_iff_lt_or_gt, lt_minor_iff, lt_minor_iff]
  simp only [List.headD_cons, List.tail_cons]
  omega

theorem stands_minorStar {major minor : ℕ} (hminor : minor < u64Max) {hrelease} :
    Stands ⟨.equalStar, .new [major, minor], hrelease⟩ fun numbers =>
      numbers.headD 0 = major ∧ numbers.tail.headD 0 = minor :=
  (stands_equalStar [major] hminor).congr fun numbers => by simp [PaddedPrefix]

/-- The comparisons with a minor version. -/
theorem denotes_minor {operator : Operator} {release : List ℕ} {hrelease} {major minor : ℕ}
    (hstar : operator.isStar = false) (htilde : operator ≠ .tildeEqual)
    (hmatch : (ValidVersion.new release).onlyReleaseTrimmed.val.release = [major] ∧ minor = 0 ∨
      (ValidVersion.new release).onlyReleaseTrimmed.val.release = [major, minor])
    (hminor : minor < u64Max) (hsame : trimZeros release = trimZeros [major, minor]) :
    ∃ result, Edges.pythonVersionToFullVersion ⟨operator, .new release, hrelease⟩ = some result ∧
      Denotes result (minorHolds operator release) := by
  have hsucc := u64Succ_of_lt hminor
  unfold Edges.pythonVersionToFullVersion
  simp only [hstar, htilde, Bool.false_eq_true, if_false, release_new]
  have hnext : ∀ numbers : List ℕ, trimZeros numbers < trimZeros [major, minor + 1] ↔
      ¬ trimZeros release < trimZeros [numbers.headD 0, numbers.tail.headD 0] := by
    intro numbers
    rw [hsame, lt_minor_iff, lt_minor_iff]
    simp only [List.headD_cons, List.tail_cons]
    omega
  have hbelow : ∀ numbers : List ℕ, trimZeros numbers < trimZeros release ↔
      trimZeros [numbers.headD 0, numbers.tail.headD 0] < trimZeros release := by
    intro numbers
    rw [hsame, lt_minor_iff, lt_minor_iff]
    simp only [List.headD_cons, List.tail_cons]
  cases operator with
  | equalStar => cases hstar
  | notEqualStar => cases hstar
  | tildeEqual => exact (htilde rfl).elim
  | equal =>
      have hstands : Stands (.equalsStarVersion (.new [major, minor]))
          (minorHolds .equal release) :=
        (stands_minorStar hminor).congr fun numbers => (minor_eq_iff hsame numbers).symm
      rcases hmatch with ⟨hmatch, rfl⟩ | hmatch <;> rw [hmatch] <;> exact ⟨_, rfl, hstands⟩
  | exactEqual =>
      have hstands : Stands (.equalsStarVersion (.new [major, minor]))
          (minorHolds .exactEqual release) :=
        (stands_minorStar hminor).congr fun numbers => (minor_eq_iff hsame numbers).symm
      rcases hmatch with ⟨hmatch, rfl⟩ | hmatch <;> rw [hmatch] <;> exact ⟨_, rfl, hstands⟩
  | notEqual =>
      have hstands : Stands (.notEqualsStarVersion (.new [major, minor]))
          (minorHolds .notEqual release) := by
        have hequal : Stands (.equalsStarVersion (.new [major, minor])) fun numbers =>
            numbers.headD 0 = major ∧ numbers.tail.headD 0 = minor := stands_minorStar hminor
        exact hequal.notEqualStar.congr fun numbers => not_congr (minor_eq_iff hsame numbers).symm
      rcases hmatch with ⟨hmatch, rfl⟩ | hmatch <;> rw [hmatch] <;> exact ⟨_, rfl, hstands⟩
  | lessThan =>
      have hstands : Stands ⟨.lessThan, .new release, hrelease⟩ (minorHolds .lessThan release) :=
        (stands_lessThan release).congr hbelow
      rcases hmatch with ⟨hmatch, rfl⟩ | hmatch <;> rw [hmatch] <;> exact ⟨_, rfl, hstands⟩
  | greaterThanEqual =>
      have hstands : Stands ⟨.greaterThanEqual, .new release, hrelease⟩
          (minorHolds .greaterThanEqual release) :=
        (stands_greaterThanEqual release).congr fun numbers => not_congr (hbelow numbers)
      rcases hmatch with ⟨hmatch, rfl⟩ | hmatch <;> rw [hmatch] <;> exact ⟨_, rfl, hstands⟩
  | lessThanEqual =>
      have hstands : Stands (.lessThanVersion (.new [major, u64Succ minor]))
          (minorHolds .lessThanEqual release) := by
        rw [hsucc]
        exact (stands_lessThan [major, minor + 1]).congr hnext
      rcases hmatch with ⟨hmatch, rfl⟩ | hmatch <;> rw [hmatch] <;> exact ⟨_, rfl, hstands⟩
  | greaterThan =>
      have hstands : Stands (.greaterThanEqualVersion (.new [major, u64Succ minor]))
          (minorHolds .greaterThan release) := by
        rw [hsucc]
        exact (stands_greaterThanEqual [major, minor + 1]).congr
          fun numbers => (not_congr (hnext numbers)).trans not_not
      rcases hmatch with ⟨hmatch, rfl⟩ | hmatch <;> rw [hmatch] <;> exact ⟨_, rfl, hstands⟩

/-- The comparisons with a patch version, which `python_version` never is. -/
theorem denotes_patch {operator : Operator} {major minor : ℕ} {rest : List ℕ} {hrelease}
    (hstar : operator.isStar = false) (htilde : operator ≠ .tildeEqual)
    (hpatch : trimZeros rest ≠ []) (hlength : 3 ≤
      (ValidVersion.new (major :: minor :: rest)).onlyReleaseTrimmed.val.release.length)
    (hminor : minor < u64Max) : ∃ result, Edges.pythonVersionToFullVersion
      ⟨operator, .new (major :: minor :: rest), hrelease⟩ = some result ∧
        Denotes result (minorHolds operator (major :: minor :: rest)) := by
  have hsucc := u64Succ_of_lt hminor
  have hnotPatch : ¬ NoPatch (major :: minor :: rest) := hpatch
  have hne : ∀ numbers : List ℕ, trimZeros [numbers.headD 0, numbers.tail.headD 0] ≠
      trimZeros (major :: minor :: rest) := by
    intro numbers
    rw [ne_iff_lt_or_gt, minor_lt_iff, lt_minor_iff]
    simp only [List.headD_cons, List.tail_cons, hnotPatch, not_false_eq_true, and_true]
    omega
  have hbelow : ∀ numbers : List ℕ, trimZeros numbers < trimZeros [major, minor + 1] ↔
      trimZeros [numbers.headD 0, numbers.tail.headD 0] < trimZeros (major :: minor :: rest) := by
    intro numbers
    rw [minor_lt_iff, lt_minor_iff]
    simp only [List.headD_cons, List.tail_cons, hnotPatch, not_false_eq_true, and_true]
    omega
  have hafter : ∀ numbers : List ℕ, ¬ trimZeros numbers < trimZeros [major, minor + 1] ↔
      trimZeros (major :: minor :: rest) < trimZeros [numbers.headD 0, numbers.tail.headD 0] := by
    intro numbers
    rw [hbelow, not_lt, (hne numbers).symm.le_iff_lt]
  have hmatch : ∃ first second third more,
      (ValidVersion.new (major :: minor :: rest)).onlyReleaseTrimmed.val.release =
        first :: second :: third :: more := by
    match hsegments : (ValidVersion.new
        (major :: minor :: rest)).onlyReleaseTrimmed.val.release with
    | first :: second :: third :: more => exact ⟨first, second, third, more, rfl⟩
    | [] | [_] | [_, _] =>
        rw [hsegments] at hlength
        simp at hlength
  obtain ⟨first, second, third, more, hmatch⟩ := hmatch
  unfold Edges.pythonVersionToFullVersion
  simp only [hstar, htilde, Bool.false_eq_true, if_false, release_new]
  rw [hmatch]
  cases operator with
  | equalStar => cases hstar
  | notEqualStar => cases hstar
  | tildeEqual => exact (htilde rfl).elim
  | equal => exact ⟨_, rfl, .inr ⟨rfl, hne⟩⟩
  | exactEqual => exact ⟨_, rfl, .inr ⟨rfl, hne⟩⟩
  | notEqual => exact ⟨_, rfl, .inl ⟨rfl, hne⟩⟩
  | lessThan =>
      refine ⟨_, rfl, ?_⟩
      rw [hsucc]
      exact (stands_lessThan [major, minor + 1]).congr hbelow
  | lessThanEqual =>
      refine ⟨_, rfl, ?_⟩
      rw [hsucc]
      exact (stands_lessThan [major, minor + 1]).congr fun numbers =>
        not_not.symm.trans (not_congr (hafter numbers))
  | greaterThan =>
      refine ⟨_, rfl, ?_⟩
      rw [hsucc]
      exact (stands_greaterThanEqual [major, minor + 1]).congr hafter
  | greaterThanEqual =>
      refine ⟨_, rfl, ?_⟩
      rw [hsucc]
      exact (stands_greaterThanEqual [major, minor + 1]).congr fun numbers =>
        not_congr (hbelow numbers)

omit [RangeOps ValidVersion] in
theorem releaseMatches_minor {major minor : ℕ} {rest numbers : List ℕ} :
    VersionSpecifier.releaseMatches (major :: minor :: rest)
        [numbers.headD 0, numbers.tail.headD 0] = true ↔
      numbers.headD 0 = major ∧ numbers.tail.headD 0 = minor := by
  simp only [VersionSpecifier.releaseMatches, List.zip_cons_cons, List.zip_nil_right,
    List.all_cons, List.all_nil, Bool.and_true, Bool.and_eq_true, beq_iff_eq]
  exact and_congr eq_comm eq_comm

omit [RangeOps ValidVersion] in
theorem releaseMatches_major {major : ℕ} {numbers : List ℕ} :
    VersionSpecifier.releaseMatches [major] [numbers.headD 0, numbers.tail.headD 0] = true ↔
      numbers.headD 0 = major := by
  simp only [VersionSpecifier.releaseMatches, List.zip_cons_cons, List.zip_nil_left,
    List.all_cons, List.all_nil, Bool.and_true, beq_iff_eq]
  exact eq_comm

/-- The comparisons with a star. -/
theorem denotes_star {operator : Operator} {release : List ℕ} {hrelease}
    (hstar : operator.isStar = true) (hne : release ≠ [])
    (hnext : ∀ number ∈ release.take 2, number < u64Max) (hpatch : NoPatch release) :
    ∃ result, Edges.pythonVersionToFullVersion ⟨operator, .new release, hrelease⟩ = some result ∧
      Denotes result (minorHolds operator release) := by
  -- Both operators follow from the one that is not negated.
  have hboth : ∀ (prefixes : List ℕ) {hrelease'}, Stands (.equalsStarVersion (.new prefixes))
      (fun numbers => VersionSpecifier.releaseMatches release
        [numbers.headD 0, numbers.tail.headD 0] = true) →
          Stands ⟨operator, .new prefixes, hrelease'⟩ (minorHolds operator release) := by
    intro prefixes hrelease' hstands
    cases operator with
    | equalStar => exact hstands
    | notEqualStar =>
        exact hstands.notEqualStar.congr fun numbers => Bool.not_eq_true _ ▸ Iff.rfl
    | _ => cases hstar
  unfold Edges.pythonVersionToFullVersion
  simp only [hstar, if_true, release_new]
  rcases release with _ | ⟨major, _ | ⟨minor, rest⟩⟩
  case nil => exact (hne rfl).elim
  case cons.nil =>
      refine ⟨_, rfl, hboth [major] ((stands_equalStar [] (hnext major (by simp))).congr ?_)⟩
      intro numbers
      rw [releaseMatches_major]
      simp [PaddedPrefix]
  case cons.cons =>
      have hzero : rest.all (· == 0) = true := by
        rw [List.all_eq_true]
        intro number hnumber
        exact beq_iff_eq.mpr (trimZeros_eq_nil.mp hpatch number hnumber)
      have htilde : operator ≠ .tildeEqual := by
        rintro rfl
        cases hstar
      obtain ⟨⟨operator', version', hrelease'⟩, hbuilt, hversion⟩ :=
        fromVersion_new htilde [major, minor]
      obtain ⟨hoperator, -, -⟩ := VersionSpecifier.fromVersion_eq_ok hbuilt
      change operator' = operator at hoperator
      change version' = _ at hversion
      subst hoperator hversion
      simp only [hzero, if_true, hbuilt]
      refine ⟨_, rfl, hboth [major, minor]
        ((stands_minorStar (hnext minor (by simp))).congr fun numbers => ?_)⟩
      rw [releaseMatches_minor]

/-- The comparisons with a compatible release. -/
theorem denotes_tilde {release : List ℕ} {hrelease}
    (hnext : ∀ number ∈ release.take 2, number < u64Max) :
    ∃ result, Edges.pythonVersionToFullVersion ⟨.tildeEqual, .new release, hrelease⟩ =
      some result ∧ Denotes result (minorHolds .tildeEqual release) := by
  have hlength : 2 ≤ release.length := by
    have hlength := hrelease rfl
    rwa [release_new] at hlength
  unfold Edges.pythonVersionToFullVersion
  simp only [release_new]
  rcases release with _ | ⟨major, _ | ⟨minor, _ | ⟨patch, rest⟩⟩⟩
  case nil => simp at hlength
  case cons.nil => simp at hlength
  case cons.cons.nil =>
      refine ⟨_, rfl, (stands_tildeEqual (hnext major (by simp)) minor).congr fun numbers => ?_⟩
      have hmajor : trimZeros [major + 1] = trimZeros [major + 1, 0] := trimZeros_split [major + 1]
      change _ ↔ VersionSpecifier.releaseMatches [major] _ = true ∧ ¬ _ < _
      rw [releaseMatches_major, hmajor, lt_minor_iff, lt_minor_iff, lt_minor_iff]
      simp only [List.headD_cons, List.tail_cons]
      omega
  case cons.cons.cons =>
      have hdrop : (major :: minor :: patch :: rest).dropLast =
          major :: minor :: (patch :: rest).dropLast := rfl
      by_cases hzero : (patch :: rest).all (· == 0) = true
      · have hpatch : trimZeros (patch :: rest) = [] := by
          rw [trimZeros_eq_nil]
          intro number hnumber
          exact beq_iff_eq.mp (List.all_eq_true.mp hzero number hnumber)
        have hstands : Stands (.equalsStarVersion (.new [major, minor]))
            (minorHolds .tildeEqual (major :: minor :: patch :: rest)) := by
          refine (stands_minorStar (hnext minor (by simp))).congr fun numbers => ?_
          change _ ↔ VersionSpecifier.releaseMatches _ _ = true ∧ ¬ _ < _
          rw [hdrop, releaseMatches_minor, minor_lt_iff]
          simp only [NoPatch, List.headD_cons, List.tail_cons, hpatch, not_true_eq_false, and_false,
            or_false]
          omega
        exact ⟨.ok _, by simp only [hzero]; rfl, hstands⟩
      · have hpatch : trimZeros (patch :: rest) ≠ [] := by
          rw [ne_eq, trimZeros_eq_nil]
          intro hall
          exact hzero (List.all_eq_true.mpr fun number hnumber =>
            beq_iff_eq.mpr (hall number hnumber))
        refine ⟨.error .FALSE, by simp only [hzero]; rfl, .inr ⟨rfl, fun numbers hholds => ?_⟩⟩
        change VersionSpecifier.releaseMatches _ _ = true ∧ ¬ _ < _ at hholds
        rw [hdrop, releaseMatches_minor, minor_lt_iff] at hholds
        simp only [NoPatch, List.headD_cons, List.tail_cons, hpatch, not_false_eq_true,
          and_true] at hholds
        omega

/-- A specifier on `python_version` is lowered to one that holds for the same releases, but for
stars after a patch version. -/
theorem denotes_pythonVersionToFullVersion {operator : Operator} {release : List ℕ} {hrelease}
    (hne : release ≠ []) (hnext : ∀ number ∈ release.take 2, number < u64Max)
    (hpatch : operator.isStar = true → NoPatch release) :
    ∃ result, Edges.pythonVersionToFullVersion ⟨operator, .new release, hrelease⟩ = some result ∧
      Denotes result (minorHolds operator release) := by
  cases hstar : operator.isStar with
  | true => exact denotes_star hstar hne hnext (hpatch hstar)
  | false =>
      by_cases htilde : operator = .tildeEqual
      · subst htilde
        exact denotes_tilde hnext
      rcases trimmed_cases hne with
        ⟨major, minor, hmatch, hsame⟩ | ⟨⟨major, minor, rest, rfl, hrest⟩, hlength⟩
      · rcases hmatch with ⟨hmatch, hzero⟩ | ⟨hmatch, hmem⟩
        · exact denotes_minor hstar htilde (.inl ⟨hmatch, hzero⟩) (by subst hzero; decide) hsame
        · exact denotes_minor hstar htilde (.inr hmatch) (hnext minor hmem) hsame
      · exact denotes_patch hstar htilde hrest hlength (hnext minor (by simp))

end Stands

/-! ## Evaluation -/

/-- The specifier with `===` read as `==`. -/
def readAsEqual (specifier : VersionSpecifier) : VersionSpecifier where
  operator := asEqual specifier.operator
  version := specifier.version
  tildeEqual_release htilde := by
    refine specifier.tildeEqual_release ?_
    cases hoperator : specifier.operator <;> rw [hoperator] at htilde <;>
      first | rfl | cases htilde

section Evaluate

variable [RangeOps ValidVersion] [RangeOps Text] {s : Interner}

open Interner Resolver.PythonRequirement

/-- A lowered specifier evaluates as what it holds for. -/
theorem evaluate_of_denotes (hreach : Reachable s) {specifier : VersionSpecifier}
    {result : Except NodeId VersionSpecifier} {holds : List ℕ → Prop}
    (hresult : Edges.pythonVersionToFullVersion specifier.onlyRelease = some result)
    (hdenotes : Denotes result holds) {env : MarkerEnvironment} {numbers : List ℕ}
    (henv : env.pythonFullVersion = .new numbers) (extras : ExtrasEnvironment) :
    ∃ r s', (expression (.version .pythonVersion specifier)).run s = some (r, s') ∧
      (s'.evaluate env extras r = true ↔ holds numbers) := by
  cases result with
  | error node =>
      have hedges : expressionEdges (.version .pythonVersion specifier) =
          some (.error node) := by
        simp only [expressionEdges, hresult, Option.bind_eq_bind, Option.bind_some]
      refine ⟨node, s, by simp only [expression, hedges]; rfl, ?_⟩
      rcases hdenotes with ⟨rfl, hall⟩ | ⟨rfl, hnone⟩
      · exact iff_of_true rfl (hall numbers)
      · exact iff_of_false Bool.false_ne_true (hnone numbers)
  | ok full =>
      obtain ⟨range, hrange, hcontains⟩ := hdenotes
      have hedges : expressionEdges (.version .pythonVersion specifier) =
          some (.ok (.version .pythonFullVersion, .version (Edges.fromRange range))) := by
        simp only [expressionEdges, hresult, Option.bind_eq_bind, Option.bind_some,
          Edges.fromSpecifier, hrange, Option.map_some]
      obtain ⟨r, s', hrun, -, -, -, -, hevaluate⟩ :=
        expression_evaluate hedges (valid_releaseSpecifierToRange hrange) hreach.sound
      refine ⟨r, s', hrun, ?_⟩
      rw [hevaluate, henv, hcontains]

/-- A marker on `python_version` applies where the specifier contains the major and minor
version. -/
theorem evaluate_pythonVersion (hreach : Reachable s) {specifier : VersionSpecifier}
    (honly : specifier.version.onlyRelease = specifier.version)
    (hne : specifier.version.val.release ≠ [])
    (hnext : ∀ number ∈ specifier.version.val.release.take 2, number < u64Max)
    (hpatch : specifier.operator.isStar = true → ∀ number ∈ specifier.version.val.release.drop 2,
      number = 0)
    {env : MarkerEnvironment} {numbers : List ℕ} (henv : env.pythonFullVersion = .new numbers)
    (extras : ExtrasEnvironment) :
    ∃ r s', (expression (.version .pythonVersion specifier)).run s = some (r, s') ∧
      s'.evaluate env extras r = (readAsEqual specifier).contains (majorMinor numbers) := by
  obtain ⟨operator, version, hrelease⟩ := specifier
  obtain ⟨release, rfl⟩ : ∃ release, version = .new release := ⟨version.val.release, honly.symm⟩
  simp only [release_new] at hne hnext hpatch
  have hnoPatch : operator.isStar = true → NoPatch release := by
    intro hstar
    rw [NoPatch, trimZeros_eq_nil, ← List.drop_one, ← List.drop_one, List.drop_drop]
    exact hpatch hstar
  obtain ⟨result, hresult, hdenotes⟩ :=
    @denotes_pythonVersionToFullVersion _ operator release hrelease hne hnext hnoPatch
  have honlyRelease : Edges.pythonVersionToFullVersion (VersionSpecifier.onlyRelease
      ⟨operator, .new release, hrelease⟩) = some result := by
    simp only [VersionSpecifier.onlyRelease, onlyRelease_new, hresult]
  obtain ⟨r, s', hrun, hevaluate⟩ := evaluate_of_denotes hreach honlyRelease hdenotes henv extras
  refine ⟨r, s', hrun, ?_⟩
  rw [Bool.eq_iff_iff, hevaluate, readAsEqual, majorMinor, contains_new]
  rfl

end Evaluate

/-! ## Concrete specifiers -/

open Interner

/-- Linux with the given Python version. -/
private def linuxPython (numbers : List ℕ) : MarkerEnvironment :=
  { linuxEnvironment with pythonFullVersion := .new numbers }

/-- `python_version > '3.8'` on Python 3.9.1. -/
theorem evaluate_pythonVersion_greater :
    ∃ r s', (expression (.version .pythonVersion
      ⟨.greaterThan, .new [3, 8], by decide⟩)).run Interner.default = some (r, s') ∧
        s'.evaluate (linuxPython [3, 9, 1]) (.extras []) r =
          (readAsEqual ⟨.greaterThan, .new [3, 8], by decide⟩).contains (majorMinor [3, 9, 1]) :=
  evaluate_pythonVersion .default rfl (by decide) (by decide) (by decide) rfl (.extras [])

/-- `===3.9.0` is read as `==3.9.0`, nothing matches `==3.9.1.*`, and the increment of a minor
version may overflow. -/
theorem not_evaluate_pythonVersion :
    List.Forall (fun sample : VersionSpecifier × List ℕ =>
      ∃ r s', (expression (.version .pythonVersion sample.1)).run Interner.default =
        some (r, s') ∧ s'.evaluate (linuxPython sample.2) (.extras []) r ≠
          sample.1.contains (majorMinor sample.2))
      [(⟨.exactEqual, .new [3, 9, 0], by decide⟩, [3, 9, 0]),
        (⟨.equalStar, .new [3, 9, 1], by decide⟩, [3, 9, 1]),
        (⟨.greaterThan, .new [3, u64Max], by decide⟩, [3, 9])] := by
  have hsample : ∀ sample : VersionSpecifier × List ℕ,
      ((expression (.version .pythonVersion sample.1)).run Interner.default).map (fun (r, s') =>
        decide (s'.evaluate (linuxPython sample.2) (.extras []) r ≠
          sample.1.contains (majorMinor sample.2))) = some true →
        ∃ r s', (expression (.version .pythonVersion sample.1)).run Interner.default =
          some (r, s') ∧ s'.evaluate (linuxPython sample.2) (.extras []) r ≠
            sample.1.contains (majorMinor sample.2) := by
    intro sample hrun
    obtain ⟨⟨r, s'⟩, hrun, hne⟩ := Option.map_eq_some_iff.mp hrun
    exact ⟨r, s', hrun, of_decide_eq_true hne⟩
  refine List.forall_iff_forall_mem.mpr fun sample hmem => ?_
  simp only [List.mem_cons, List.not_mem_nil, or_false] at hmem
  rcases hmem with rfl | rfl | rfl
  · exact hsample _ (by decide +kernel)
  · exact hsample _ (by decide +kernel)
  · exact hsample _ (by decide +kernel)

end Uv.Pep508
