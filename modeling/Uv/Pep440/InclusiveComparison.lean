import Uv.Core.Intervals
import Uv.Pep440.ExclusiveComparison

/-!
# Inclusive comparisons

`==V`, `!=V`, `<=V` and `>=V` ignore the local segments of a candidate unless `V`
has some.  `contains` clears them; the ranges put a bound behind all local
versions of `V`.  Both compare what is left of a version without its local
segments, so they always agree.
-/

namespace Uv.Pep440

open Uv.Core Uv.Core.Order

namespace SuffixRank

attribute [local simp] key Prod.Lex.toLex_lt_toLex Prod.Lex.toLex_le_toLex

/-- No local segments come after the bound behind all of them. -/
theorem key_le_top {rank other : SuffixRank} (localKey : LocalKey) :
    rank.key localKey ≤ other.key ⊤ ↔ rank.key emptyKey ≤ other.key emptyKey := by
  simp

theorem key_lt_top {rank other : SuffixRank} {localKey : LocalKey}
    (hlocal : localKey ≠ ⊤) :
    rank.key localKey < other.key ⊤ ↔ rank.key emptyKey ≤ other.key emptyKey := by
  have hlt : localKey < ⊤ := lt_top_iff_ne_top.mpr hlocal
  simp [hlt]

end SuffixRank

namespace Version

/-- What the order reads of a version without its local segments. -/
def plainKey (version : Version) : (ℕ ×ₗ List ℕ) ×ₗ SuffixKey :=
  toLex (version.prefixKey, version.rank.key emptyKey)

theorem plainKey_lt {left right : Version} :
    left.plainKey < right.plainKey ↔ left.prefixKey < right.prefixKey ∨
      left.prefixKey = right.prefixKey ∧
        left.rank.key emptyKey < right.rank.key emptyKey := by
  simp [plainKey, Prod.Lex.toLex_lt_toLex]

theorem plainKey_le {left right : Version} :
    left.plainKey ≤ right.plainKey ↔ left.prefixKey < right.prefixKey ∨
      left.prefixKey = right.prefixKey ∧
        left.rank.key emptyKey ≤ right.rank.key emptyKey := by
  simp [plainKey, Prod.Lex.toLex_le_toLex]

end Version

namespace VersionSpecifier

variable {specifier : VersionSpecifier} {this version : ValidVersion}

/-- Local segments do not matter when a version is compared with one that has
none. -/
theorem key_lt_iff_plainKey (hlocal : this.val.localVersion.isEmpty = true)
    (hthis : Version.NoBounds this.val) (hversion : Version.NoBounds version.val) :
    version.val.key < this.val.key ↔ version.val.plainKey < this.val.plainKey := by
  rw [Version.key_lt_key, Version.sortableTuple_key hversion,
    Version.sortableTuple_key hthis, localVersion_key_of_isEmpty hlocal,
    SuffixRank.key_lt_emptyKey, Version.plainKey_lt]

theorem boundOf_withLocal_max (hthis : Version.NoBounds this.val) :
    BoundOf this.val (this.withLocal .max).val (this.val.rank.key ⊤) := by
  apply boundOf_of_rank hthis _ _ _ .max
  rw [Version.pre_eq, Version.post_eq, Version.dev_eq]
  exact Version.makeFull_withLocal this.val .max

theorem key_le_withLocal_max (hthis : Version.NoBounds this.val)
    (hversion : Version.NoBounds version.val) :
    version.val.key ≤ (this.withLocal .max).val.key ↔
      version.val.plainKey ≤ this.val.plainKey := by
  rw [← not_lt, (boundOf_withLocal_max hthis).gt_iff hversion, Version.plainKey_le,
    ← SuffixRank.key_le_top version.val.localVersion.key, ← not_lt]
  rcases lt_trichotomy version.val.prefixKey this.val.prefixKey with
    hlt | heq | hgt
  · simp [hlt, hlt.ne', hlt.not_gt]
  · simp [heq]
  · simp [hgt, hgt.ne', hgt.not_gt]

theorem key_lt_withLocal_max (hthis : Version.NoBounds this.val)
    (hversion : Version.NoBounds version.val)
    (hmax : version.val.localVersion ≠ .max) :
    version.val.key < (this.withLocal .max).val.key ↔
      version.val.plainKey ≤ this.val.plainKey := by
  have htop : version.val.localVersion.key ≠ ⊤ := by
    cases hlocal : version.val.localVersion with
    | max => exact (hmax hlocal).elim
    | segments parts => exact WithTop.coe_ne_top
  rw [(boundOf_withLocal_max hthis).lt_iff hversion, SuffixRank.key_lt_top htop,
    Version.plainKey_le]

/-- The candidate without its local segments, compared with a version that has
none. -/
theorem candidate_plainKey {other : ValidVersion}
    (hcandidate : Candidate version.val other.val)
    (hlocal : this.val.localVersion.isEmpty = true)
    (hthis : Version.NoBounds this.val) (hversion : Version.NoBounds version.val) :
    (other.val.key < this.val.key ↔ version.val.plainKey < this.val.plainKey) ∧
      (this.val.key < other.val.key ↔
        this.val.plainKey < version.val.plainKey) := by
  have hplain : other.val.plainKey = version.val.plainKey := by
    unfold Version.plainKey Version.rank
    rw [hcandidate.prefixKey_eq, hcandidate.pre_eq, hcandidate.post_eq,
      hcandidate.dev_eq]
  have hother := hcandidate.bounds hversion
  have hempty : other.val.localVersion.isEmpty = true := by
    rw [hcandidate.local_eq]
    rfl
  rw [key_lt_iff_plainKey hlocal hthis hother,
    key_lt_iff_plainKey hempty hother hthis, hplain]
  exact ⟨Iff.rfl, Iff.rfl⟩

section Contains

variable (hlocal : specifier.version.val.localVersion.isEmpty = true)
  (hthis : Version.NoBounds specifier.version.val)
  (hversion : Version.NoBounds version.val)

include hlocal hthis hversion

theorem contains_equal (hoperator : specifier.operator = .equal) :
    specifier.contains version = true ↔
      version.val.plainKey = specifier.version.val.plainKey := by
  obtain ⟨other, hcandidate, hother⟩ := @exists_candidate specifier version hlocal
  unfold contains
  simp only [hoperator, hother]
  obtain ⟨hlt, hgt⟩ := candidate_plainKey hcandidate hlocal hthis hversion
  rw [Version.beq_iff other.valid specifier.version.valid, ← not_iff_not]
  simp only [← ne_eq, ne_iff_lt_or_gt, hlt, hgt]

theorem contains_lessThanEqual (hoperator : specifier.operator = .lessThanEqual) :
    specifier.contains version = true ↔
      version.val.plainKey ≤ specifier.version.val.plainKey := by
  obtain ⟨other, hcandidate, hother⟩ := @exists_candidate specifier version hlocal
  unfold contains
  simp only [hoperator, hother]
  obtain ⟨-, hgt⟩ := candidate_plainKey hcandidate hlocal hthis hversion
  rw [Version.le_iff other.valid specifier.version.valid, ← not_lt, hgt, not_lt]

theorem contains_greaterThanEqual
    (hoperator : specifier.operator = .greaterThanEqual) :
    specifier.contains version = true ↔
      specifier.version.val.plainKey ≤ version.val.plainKey := by
  obtain ⟨other, hcandidate, hother⟩ := @exists_candidate specifier version hlocal
  unfold contains
  simp only [hoperator, hother]
  obtain ⟨hlt, -⟩ := candidate_plainKey hcandidate hlocal hthis hversion
  rw [Version.ge_iff other.valid specifier.version.valid, ← not_lt, hlt, not_lt]

end Contains

/-- `!=V` is the opposite of `==V`. -/
theorem contains_notEqual (equal : VersionSpecifier)
    (hoperator : specifier.operator = .notEqual) (hequal : equal.operator = .equal)
    (hsame : equal.version = specifier.version) :
    specifier.contains version = !equal.contains version := by
  unfold contains
  simp only [hoperator, hequal, hsame]
  generalize (if specifier.version.val.localVersion.isEmpty &&
    !version.val.localVersion.isEmpty then version.withoutLocal
    else version) = other
  rw [Bool.eq_iff_iff, Bool.not_eq_true', ← Bool.not_eq_true, Bool.not_eq_true',
    ← Bool.not_eq_true, Version.beq_iff specifier.version.valid other.valid,
    Version.beq_iff other.valid specifier.version.valid, eq_comm]

/-! ## The ranges -/

section Agreement

variable [RangeOps ValidVersion]

/-- A specifier that stands for a valid range, which holds a parsed version
exactly when the specifier contains it. -/
def Agrees (specifier : VersionSpecifier) : Prop :=
  ∃ range, specifier.toRange = some range ∧ range.Valid ∧
    ∀ {s : List Byte} {version : Version}
      (hparse : Version.fromStr s = .ok version),
      range.contains (.ofFromStr hparse) = specifier.contains (.ofFromStr hparse)

theorem agrees_equal_of_local {segment : LocalSegment}
    {segments : List LocalSegment} (hoperator : specifier.operator = .equal)
    (hlocal : specifier.version.val.localVersion = .segments (segment :: segments)) :
    Agrees specifier := by
  refine ⟨.singleton specifier.version, ?_, Ranges.valid_singleton _, ?_⟩
  · simp [toRange, hoperator, equalRange, hlocal]
  intro s version hparse
  have hempty : specifier.version.val.localVersion.isEmpty = false := by
    rw [hlocal]
    rfl
  rw [Bool.eq_iff_iff, Ranges.contains_singleton]
  simp [contains, hoperator, hempty, Version.beq_iff
    (Version.valid_of_fromStr hparse) specifier.version.valid, OrdKey.key,
    ValidVersion.ofFromStr]

variable (hlocal : specifier.version.val.localVersion.isEmpty = true)
  (hthis : Version.NoBounds specifier.version.val)

include hlocal hthis

theorem agrees_lessThanEqual (hoperator : specifier.operator = .lessThanEqual) :
    Agrees specifier := by
  refine ⟨.lowerThan (specifier.version.withLocal .max), ?_,
    Ranges.valid_lowerThan _, ?_⟩
  · simp [toRange, hoperator]
  intro s version hparse
  have hversion := Version.noBounds_of_fromStr hparse
  rw [Bool.eq_iff_iff, Ranges.contains_lowerThan,
    contains_lessThanEqual hlocal hthis hversion hoperator]
  exact key_le_withLocal_max hthis hversion

theorem agrees_greaterThanEqual
    (hoperator : specifier.operator = .greaterThanEqual) : Agrees specifier := by
  refine ⟨.higherThan specifier.version, ?_, Ranges.valid_higherThan _, ?_⟩
  · simp [toRange, hoperator]
  intro s version hparse
  have hversion := Version.noBounds_of_fromStr hparse
  rw [Bool.eq_iff_iff, Ranges.contains_higherThan,
    contains_greaterThanEqual hlocal hthis hversion hoperator, ← not_lt, ← not_lt,
    not_iff_not]
  exact key_lt_iff_plainKey hlocal hthis hversion

theorem agrees_equal_of_empty (hoperator : specifier.operator = .equal)
    (hmax : specifier.version.val.localVersion ≠ .max) : Agrees specifier := by
  have hnil : specifier.version.val.localVersion = .segments [] := by
    cases hsegments : specifier.version.val.localVersion with
    | max => exact (hmax hsegments).elim
    | segments parts =>
        rw [hsegments] at hlocal
        cases parts with
        | nil => rfl
        | cons part parts => cases hlocal
  refine ⟨.between specifier.version (specifier.version.withLocal .max), ?_, ?_,
    ?_⟩
  · simp [toRange, hoperator, equalRange, hnil]
  · refine Ranges.valid_of_validSegment (Bound.validSegment_iff.mpr ?_)
    exact WithTop.coe_lt_coe.mpr (Cut.before_lt_before.mpr
      ((key_lt_withLocal_max hthis hthis hmax).mpr le_rfl))
  intro s version hparse
  have hversion := Version.noBounds_of_fromStr hparse
  rw [Bool.eq_iff_iff, Ranges.contains_between,
    contains_equal hlocal hthis hversion hoperator, ← not_lt, le_antisymm_iff,
    and_comm]
  exact and_congr
    (key_lt_withLocal_max hthis hversion (Version.noSentinel_of_fromStr hparse).2)
    ((not_congr (key_lt_iff_plainKey hlocal hthis hversion)).trans not_lt)

end Agreement

section Inclusive

variable [RangeOps ValidVersion]

/-- `!=V` and `==V` have opposite ranges. -/
theorem Agrees.notEqual (hoperator : specifier.operator = .notEqual)
    (hequal : Agrees (equalsVersion specifier.version)) : Agrees specifier := by
  obtain ⟨range, hrange, hvalid, hcontains⟩ := hequal
  refine ⟨RangeOps.complement range, ?_, RangeOps.valid_complement hvalid, ?_⟩
  · have hsome : equalRange specifier.version = some range := hrange
    simp [toRange, hoperator, hsome]
  intro s version hparse
  rw [contains_notEqual (equalsVersion specifier.version) hoperator rfl rfl,
    ← hcontains hparse, Bool.eq_iff_iff, Bool.not_eq_true', ← Bool.not_eq_true,
    Ranges.contains_iff, Ranges.contains_iff]
  exact RangeOps.mem_complement hvalid _

/-- One of `==V`, `!=V`, `<=V` and `>=V`. -/
def IsInclusive (specifier : VersionSpecifier) : Prop :=
  specifier.operator = .equal ∨ specifier.operator = .notEqual ∨
    specifier.operator = .lessThanEqual ∨ specifier.operator = .greaterThanEqual

theorem agrees_equal {source : List Byte}
    (hsource : Version.fromStr source = .ok specifier.version.val)
    (hoperator : specifier.operator = .equal) : Agrees specifier := by
  have hthis := Version.noBounds_of_fromStr hsource
  have hmax := (Version.noSentinel_of_fromStr hsource).2
  cases hlocal : specifier.version.val.localVersion with
  | max => exact (hmax hlocal).elim
  | segments parts =>
      cases parts with
      | nil => exact agrees_equal_of_empty (by rw [hlocal]; rfl) hthis hoperator hmax
      | cons part parts => exact agrees_equal_of_local hoperator hlocal

theorem agrees_of_fromStr {spec : List Char} (hspec : fromStr spec = .ok specifier)
    (hoperator : specifier.IsInclusive) : Agrees specifier := by
  have hstar : specifier.operator.isStar = false := by
    rcases hoperator with hoperator | hoperator | hoperator | hoperator <;>
      simp [hoperator, Operator.isStar]
  obtain ⟨⟨source, hsource⟩, hlocal⟩ := exists_of_fromStr hspec hstar
  have hthis := Version.noBounds_of_fromStr hsource
  rcases hoperator with hoperator | hoperator | hoperator | hoperator
  · exact agrees_equal hsource hoperator
  · exact .notEqual hoperator (agrees_equal hsource rfl)
  · exact agrees_lessThanEqual (hlocal (by rw [hoperator]; rfl)) hthis hoperator
  · exact agrees_greaterThanEqual (hlocal (by rw [hoperator]; rfl)) hthis hoperator

/-- The fold over the specifiers, started from any range. -/
private theorem foldlM_intersection (specifiers : List VersionSpecifier)
    (hagrees : ∀ specifier ∈ specifiers, Agrees specifier) :
    ∀ start : Ranges ValidVersion, start.Valid →
      ∃ range, specifiers.foldlM (fun range specifier => do
          let next ← specifier.toRange
          pure (RangeOps.intersection range next)) start = some range ∧
        ∀ {s : List Byte} {version : Version}
          (hparse : Version.fromStr s = .ok version),
          range.contains (.ofFromStr hparse) =
            (start.contains (.ofFromStr hparse) &&
              containsAll specifiers (.ofFromStr hparse)) := by
  induction specifiers with
  | nil =>
      intro start _
      exact ⟨start, rfl, by simp [containsAll]⟩
  | cons specifier specifiers ih =>
      intro start hstart
      obtain ⟨next, hnext, hvalid, hcontains⟩ := hagrees specifier (by simp)
      obtain ⟨range, hrange, hall⟩ :=
        ih (fun other hother => hagrees other (List.mem_cons_of_mem _ hother))
          _ (RangeOps.valid_intersection hstart hvalid)
      refine ⟨range, ?_, ?_⟩
      · simpa [hnext] using hrange
      intro s version hparse
      have hmeet : (RangeOps.intersection start next).contains (.ofFromStr hparse) =
          (start.contains (.ofFromStr hparse) &&
            next.contains (.ofFromStr hparse)) := by
        rw [Bool.eq_iff_iff, Bool.and_eq_true]
        simp only [Ranges.contains_iff]
        exact RangeOps.mem_intersection hstart hvalid _
      rw [hall hparse, hmeet, hcontains hparse, Bool.and_assoc]
      simp [containsAll]

/-- Inclusive specifiers and their ranges agree on every parsed version, one by
one and as a list. -/
theorem inclusive_toRange_contains {s : List Byte} {version : Version}
    (hparse : Version.fromStr s = .ok version) :
    (∀ spec specifier, fromStr spec = .ok specifier →
      specifier.IsInclusive →
        specifier.toRange.map (·.contains (.ofFromStr hparse)) =
          some (specifier.contains (.ofFromStr hparse))) ∧
    ∀ specifiers : List VersionSpecifier,
      (∀ specifier ∈ specifiers, specifier.IsInclusive ∧
        ∃ spec, fromStr spec = .ok specifier) →
        (specifiersToRange specifiers).map (·.contains (.ofFromStr hparse)) =
          some (containsAll specifiers (.ofFromStr hparse)) := by
  constructor
  · intro spec specifier hspec hoperator
    obtain ⟨range, hrange, -, hcontains⟩ := agrees_of_fromStr hspec hoperator
    rw [hrange, Option.map_some, hcontains hparse]
  · intro specifiers hspecifiers
    obtain ⟨range, hrange, hcontains⟩ := foldlM_intersection specifiers
      (by
        intro specifier hmem
        obtain ⟨hoperator, spec, hspec⟩ := hspecifiers specifier hmem
        exact agrees_of_fromStr hspec hoperator)
      .full (Ranges.valid_of_validSegment rfl)
    have hfull : (Ranges.full : Ranges ValidVersion).contains
        (.ofFromStr hparse) = true := by
      simp [Ranges.full, Ranges.contains, Bound.isBelow, Bound.isAbove]
    rw [specifiersToRange, hrange, Option.map_some, hcontains hparse, hfull,
      Bool.true_and]

end Inclusive

private theorem fromStr_equal_one : fromStr "==1.0".toList =
    .ok (equalsVersion (ValidVersion.new [1, 0])) := by
  decide +kernel

private theorem fromStr_one_local : Version.fromStr (ascii "1.0+local") =
    .ok ((ValidVersion.new [1, 0]).withLocal
      (.segments [.string (ascii "local")])).val := by
  decide +kernel

/-- `==1.0` contains `1.0+local`, and so does its range. -/
theorem inclusive_toRange_contains_local :
    ∃ specifier version, fromStr "==1.0".toList = .ok specifier ∧
      ∃ hparse : Version.fromStr (ascii "1.0+local") = .ok version,
        specifier.contains (.ofFromStr hparse) = true ∧
        specifier.toRange.map (·.contains (.ofFromStr hparse)) = some true := by
  have hcontains : (equalsVersion (ValidVersion.new [1, 0])).contains
      (.ofFromStr fromStr_one_local) = true := by
    decide +kernel
  refine ⟨_, _, fromStr_equal_one, fromStr_one_local, hcontains, ?_⟩
  rw [← hcontains]
  exact (inclusive_toRange_contains fromStr_one_local).1 _ _ fromStr_equal_one
    (.inl rfl)

end VersionSpecifier

end Uv.Pep440
