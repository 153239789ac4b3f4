import Uv.Pep440.VersionRanges

/-!
# Exclusive comparisons, matched and as ranges

PEP 440 lets `<V` leave out the pre-releases of `V` and `>V` its post- and local
releases.  `contains` codes these rules as special cases, `toRange` as
artificial bounds next to `V`.  Both only differ among the versions with the
release of `V`, and there everything is decided by the suffixes.
-/

namespace Uv.Pep440

open Uv.Core Uv.Core.Order

/-! ## Suffixes -/

/-- The part of the suffix key before the local segments. -/
structure SuffixRank where
  segment : ℕ
  number : ℕ
  post : WithBot ℕ
  dev : ℕ

def SuffixRank.key (rank : SuffixRank) (localKey : LocalKey) : SuffixKey :=
  toLex (rank.segment, toLex (rank.number, toLex (rank.post,
    toLex (rank.dev, localKey))))

/-- The rank of a suffix without internal bounds. -/
def suffixRank (pre : Option Prerelease) (post dev : Option ℕ) : SuffixRank where
  segment :=
    match pre, post, dev with
    | some pre, _, _ => pre.kind.segment
    | none, some _, _ => 6
    | none, none, some _ => 1
    | none, none, none => 5
  number := (pre.map Prerelease.number).getD 0
  post := optionKey post
  dev := if pre.isSome || post.isSome then dev.getD u64Max else dev.getD 0

def emptyKey : LocalKey := LocalVersion.key .empty

theorem emptyKey_le (localKey : LocalKey) : emptyKey ≤ localKey := by
  cases localKey using WithTop.recTopCoe with
  | top => exact le_top
  | coe parts =>
      refine WithTop.coe_le_coe.mpr ?_
      cases parts with
      | nil => exact le_rfl
      | cons part parts => exact (List.nil_lt_cons part parts).le

namespace SuffixRank

attribute [local simp] key Prod.Lex.toLex_lt_toLex Prod.Lex.toLex_le_toLex

/-- Local segments do not bring a version below one without any. -/
theorem key_lt_emptyKey {rank other : SuffixRank} (localKey : LocalKey) :
    rank.key localKey < other.key emptyKey ↔
      rank.key emptyKey < other.key emptyKey := by
  have hlocal := not_lt.mpr (emptyKey_le localKey)
  simp [hlocal]

/-- Everything above a dev-release is at or above the next dev-release. -/
theorem key_dev_lt {rank other : SuffixRank} (localKey : LocalKey) :
    rank.key emptyKey < other.key emptyKey ↔
      ({ rank with dev := rank.dev + 1 } : SuffixRank).key emptyKey ≤
        other.key localKey := by
  have hlocal := emptyKey_le localKey
  have hdev : rank.dev < other.dev ↔
      rank.dev + 1 < other.dev ∨ rank.dev + 1 = other.dev := by omega
  simp [hlocal, hdev]

/-- Local segments do not matter where the post-releases differ. -/
theorem key_lt_of_post_ne {rank other : SuffixRank} (localKey : LocalKey)
    (hpost : rank.post ≠ other.post) :
    rank.key emptyKey < other.key localKey ↔
      rank.key emptyKey < other.key emptyKey := by
  simp [hpost]

/-- Pre-releases by kind and number; a version that is none ranks last. -/
def preRank : Option Prerelease → ℕ ×ₗ ℕ
  | some pre => toLex (pre.kind.segment, pre.number)
  | none => toLex (6, 0)

theorem segment_bounds (kind : PrereleaseKind) :
    1 < kind.segment ∧ kind.segment < 5 := by
  cases kind <;> decide

section Ranks

variable {pre pre' : Option Prerelease} {post' dev' : Option ℕ}
  {localKey : LocalKey}

/-- Among stable versions the post-release decides. -/
theorem stable_lt_stable (post post' : Option ℕ) :
    (suffixRank none post' none).key emptyKey <
        (suffixRank none post none).key emptyKey ↔
      optionKey post' < optionKey post := by
  cases post <;> cases post' <;> simp [suffixRank, optionKey]

/-- No dev-, pre- or final release lies between `V` and its internal maximum. -/
theorem max_lt_of_not_post (hdev : ∀ dev, dev' = some dev → dev ≤ u64Max) :
    (suffixRank pre (some u64Max) none).key emptyKey <
        (suffixRank pre' none dev').key localKey ↔
      (suffixRank pre none none).key emptyKey <
        (suffixRank pre' none dev').key emptyKey := by
  rcases pre with _ | ⟨kind, number⟩ <;>
    rcases pre' with _ | ⟨kind', number'⟩ <;>
    rcases dev' with _ | dev' <;> simp [suffixRank, optionKey]
  · have hkind := segment_bounds kind'
    omega
  · have hkind := segment_bounds kind'
    omega
  · have hkind := segment_bounds kind
    omega
  · have hle := hdev dev' rfl
    omega

/-- The post-releases above the internal maximum of `V`. -/
theorem max_lt_of_post {post : ℕ} (hpost : post ≤ u64Max)
    (hdev : ∀ dev, dev' = some dev → dev ≤ u64Max) :
    (suffixRank pre (some u64Max) none).key emptyKey <
        (suffixRank pre' (some post) dev').key localKey ↔
      preRank pre < preRank pre' ∨ pre = pre' ∧ post = u64Max ∧
        dev'.getD u64Max = u64Max ∧ emptyKey < localKey := by
  have hle : dev'.getD u64Max ≤ u64Max := by
    rcases dev' with _ | dev'
    · exact le_rfl
    · exact hdev dev' rfl
  by_cases hlocal : emptyKey < localKey <;>
    rcases pre with _ | ⟨kind, number⟩ <;>
    rcases pre' with _ | ⟨kind', number'⟩ <;>
    simp [suffixRank, optionKey, preRank, not_lt.mpr hpost, not_lt.mpr hle,
      hlocal, ← Version.PrereleaseKind.segment_inj]
  · omega
  · have hkind := segment_bounds kind'
    omega
  · have hkind := segment_bounds kind
    omega
  · omega

/-- Above the next post-release there is everything above `V` but the
dev-releases of the next post-release. -/
theorem nextPost_le {post next : ℕ} (hnext : next = post + 1)
    (hdev : ∀ dev, dev' = some dev → dev ≤ u64Max) :
    ((suffixRank pre (some next) none).key emptyKey ≤
          (suffixRank pre' post' dev').key localKey ↔
        (suffixRank pre (some post) none).key emptyKey <
          (suffixRank pre' post' dev').key emptyKey) ↔
      ¬ (pre' = pre ∧ post' = some next ∧ ∃ dev, dev' = some dev ∧
        dev < u64Max) := by
  have hlocal := emptyKey_le localKey
  rcases pre with _ | ⟨kind, number⟩ <;>
    rcases pre' with _ | ⟨kind', number'⟩ <;>
    rcases post' with _ | post' <;>
    rcases dev' with _ | dev' <;>
    simp [suffixRank, optionKey, hlocal,
      ← Version.PrereleaseKind.segment_inj]
  all_goals
    try have hkind := segment_bounds kind
    try have hkind' := segment_bounds kind'
    try have hle := hdev dev' rfl
    omega

end Ranks

end SuffixRank

namespace Version

/-- Epoch and release as the order reads them. -/
def prefixKey (version : Version) : ℕ ×ₗ List ℕ :=
  toLex (version.epoch, trimZeros version.release)

theorem key_lt_key {left right : Version} :
    left.key < right.key ↔ left.prefixKey < right.prefixKey ∨
      left.prefixKey = right.prefixKey ∧
        left.sortableTuple.key < right.sortableTuple.key := by
  simp only [key, VersionFull.key, prefixKey, sortableTuple, epoch_eq,
    release_eq, Prod.Lex.toLex_lt_toLex, toLex_inj, Prod.mk.injEq, and_assoc]
  constructor
  · rintro (hlt | ⟨heq, hlt | ⟨heq', hlt⟩⟩)
    · exact .inl (.inl hlt)
    · exact .inl (.inr ⟨heq, hlt⟩)
    · exact .inr ⟨heq, heq', hlt⟩
  · rintro ((hlt | ⟨heq, hlt⟩) | ⟨heq, heq', hlt⟩)
    · exact .inl hlt
    · exact .inr ⟨heq, .inl hlt⟩
    · exact .inr ⟨heq, .inr ⟨heq', hlt⟩⟩

def rank (version : Version) : SuffixRank :=
  suffixRank version.pre version.post version.dev

theorem sortableTuple_key {version : Version} (hbounds : NoBounds version) :
    version.sortableTuple.key = version.rank.key version.localVersion.key := by
  obtain ⟨hmin, hmax⟩ := hbounds
  rw [min_eq] at hmin
  rw [max_eq] at hmax
  unfold sortableTuple VersionFull.sortableTuple rank suffixRank SuffixRank.key
    SortableTuple.key
  simp only [hmin, hmax, pre_eq, post_eq, dev_eq, localVersion_eq]
  cases version.makeFull.pre <;> cases version.makeFull.post <;>
    cases version.makeFull.dev <;> simp [optionKey]

theorem compareRelease_eq_eq {left right : List ℕ} :
    compareRelease left right = .eq ↔ trimZeros left = trimZeros right := by
  rw [compareRelease_eq, linearCmp_eq_eq]

theorem prefixKey_lt {left right : Version} :
    left.prefixKey < right.prefixKey ↔ left.epoch < right.epoch ∨
      left.epoch = right.epoch ∧
        trimZeros left.release < trimZeros right.release := by
  simp [prefixKey, Prod.Lex.toLex_lt_toLex]

theorem prefixKey_eq {left right : Version} :
    left.prefixKey = right.prefixKey ↔ left.epoch = right.epoch ∧
      trimZeros left.release = trimZeros right.release := by
  simp [prefixKey]

end Version

namespace VersionSpecifier

/-- What the exclusive comparisons compare with: the candidate without its
local segments. -/
structure Candidate (version other : Version) : Prop where
  epoch_eq : other.epoch = version.epoch
  release_eq : other.release = version.release
  pre_eq : other.pre = version.pre
  post_eq : other.post = version.post
  dev_eq : other.dev = version.dev
  local_eq : other.localVersion = .empty
  bounds : Version.NoBounds version → Version.NoBounds other

theorem candidate {version : ValidVersion} {this : Bool} (hthis : this = true) :
    Candidate version.val
      (if this && !version.val.localVersion.isEmpty then version.withoutLocal
        else version).val := by
  have hfull : (if this && !version.val.localVersion.isEmpty then
      version.withoutLocal else version).val.makeFull =
        { version.val.makeFull with localVersion := .empty } := by
    split
    · exact Version.makeFull_withoutLocal version.val
    · rename_i hempty
      rw [hthis, Bool.true_and, Bool.not_eq_true', Bool.not_eq_false] at hempty
      rw [Version.localVersion_eq] at hempty
      cases hparts : version.val.makeFull with
      | mk epoch release pre post dev localVersion min max =>
          rw [hparts] at hempty
          cases localVersion with
          | max => simp [LocalVersion.isEmpty] at hempty
          | segments parts =>
              rw [LocalVersion.isEmpty, List.isEmpty_iff] at hempty
              simp [hempty, LocalVersion.empty]
  constructor
  · rw [Version.epoch_eq, hfull, Version.epoch_eq]
  · rw [Version.release_eq, hfull, Version.release_eq]
  · rw [Version.pre_eq, hfull, Version.pre_eq]
  · rw [Version.post_eq, hfull, Version.post_eq]
  · rw [Version.dev_eq, hfull, Version.dev_eq]
  · rw [Version.localVersion_eq, hfull]
  · rintro ⟨hmin, hmax⟩
    refine ⟨?_, ?_⟩
    · rw [Version.min_eq, hfull, ← hmin, Version.min_eq]
    · rw [Version.max_eq, hfull, ← hmax, Version.max_eq]

theorem exists_candidate {specifier : VersionSpecifier} {version : ValidVersion}
    (hlocal : specifier.version.val.localVersion.isEmpty = true) :
    ∃ other : ValidVersion, Candidate version.val other.val ∧
      (if specifier.version.val.localVersion.isEmpty && !version.val.localVersion.isEmpty then
        version.withoutLocal else version) = other :=
  ⟨_, candidate hlocal, rfl⟩

/-- The shape of both exclusive comparisons: a shortcut on the epochs, a guard
on equal releases, the comparison itself. -/
private theorem guarded_iff {shortcut sameRelease : Prop} (same : Prop)
    [Decidable shortcut] [Decidable sameRelease] {guard comparison : Bool}
    (hshortcut : shortcut → comparison = true ∧ ¬ same)
    (hsame : ¬ shortcut → comparison = true → (sameRelease ↔ same)) :
    (if shortcut then true
      else if sameRelease ∧ guard = true then false else comparison) = true ↔
        ¬ (same ∧ guard = true) ∧ comparison = true := by
  by_cases hcase : shortcut
  · obtain ⟨hcomparison, hother⟩ := hshortcut hcase
    simp [hcase, hcomparison, hother]
  · cases comparison with
    | false => simp [hcase]
    | true => simp [hcase, hsame hcase rfl, imp_iff_not_or]

private theorem sortableTuple_candidate {version other : Version}
    (hcandidate : Candidate version other) (hversion : Version.NoBounds version) :
    other.sortableTuple.key = version.rank.key emptyKey := by
  rw [Version.sortableTuple_key (hcandidate.bounds hversion)]
  unfold Version.rank
  rw [hcandidate.pre_eq, hcandidate.post_eq, hcandidate.dev_eq,
    hcandidate.local_eq]
  rfl

theorem candidate_self {version : Version}
    (hlocal : version.localVersion.isEmpty = true) :
    Candidate version version := by
  refine ⟨rfl, rfl, rfl, rfl, rfl, ?_, id⟩
  cases hsegments : version.localVersion with
  | max => simp [hsegments, LocalVersion.isEmpty] at hlocal
  | segments parts =>
      rw [hsegments, LocalVersion.isEmpty, List.isEmpty_iff] at hlocal
      rw [hlocal, LocalVersion.empty]

theorem Candidate.prefixKey_eq {version other : Version}
    (hcandidate : Candidate version other) :
    other.prefixKey = version.prefixKey := by
  unfold Version.prefixKey
  rw [hcandidate.epoch_eq, hcandidate.release_eq]

section Exclusive

variable {specifier : VersionSpecifier} {version : ValidVersion}

/-- `<V` matches below `V`, but no pre-release of a stable `V`. -/
theorem contains_lessThan
    (hlocal : specifier.version.val.localVersion.isEmpty = true)
    (hthis : Version.NoBounds specifier.version.val)
    (hversion : Version.NoBounds version.val)
    (hoperator : specifier.operator = .lessThan) :
    specifier.contains version = true ↔
      ¬ (version.val.prefixKey = specifier.version.val.prefixKey ∧
        (!specifier.version.val.anyPrerelease &&
          version.val.anyPrerelease) = true) ∧
      (version.val.prefixKey < specifier.version.val.prefixKey ∨
        version.val.prefixKey = specifier.version.val.prefixKey ∧
          version.val.rank.key emptyKey <
            specifier.version.val.rank.key emptyKey) := by
  obtain ⟨other, hcandidate, hother⟩ := @exists_candidate specifier version hlocal
  unfold contains
  simp only [hoperator, hother]
  have hpre : other.val.anyPrerelease = version.val.anyPrerelease := by
    unfold Version.anyPrerelease Version.isPre Version.isDev
    rw [hcandidate.pre_eq, hcandidate.dev_eq]
  have hlt := Version.lt_iff other.valid specifier.version.valid
  rw [guarded_iff (other.val.prefixKey = specifier.version.val.prefixKey)]
  · rw [hlt, Version.key_lt_key, sortableTuple_candidate hcandidate hversion,
      sortableTuple_candidate (candidate_self hlocal) hthis,
      hcandidate.prefixKey_eq, hpre]
  · intro hepoch
    refine ⟨?_, ?_⟩
    · rw [hlt, Version.key_lt_key, Version.prefixKey_lt]
      exact .inl (.inl hepoch)
    · rw [Version.prefixKey_eq]
      exact fun heq => absurd heq.1 hepoch.ne
  · intro hepoch hbelow
    rw [hlt, Version.key_lt_key, Version.prefixKey_lt,
      Version.prefixKey_eq] at hbelow
    rw [Version.compareRelease_eq_eq, Version.prefixKey_eq, eq_comm]
    have heq : other.val.epoch = specifier.version.val.epoch := by
      rcases hbelow with (hlt | ⟨heq, -⟩) | ⟨⟨heq, -⟩, -⟩
      · exact absurd hlt hepoch
      · exact heq
      · exact heq
    exact (and_iff_right heq).symm

/-- `>V` matches above `V`, but no post-release of a `V` that is none. -/
theorem contains_greaterThan
    (hlocal : specifier.version.val.localVersion.isEmpty = true)
    (hthis : Version.NoBounds specifier.version.val)
    (hversion : Version.NoBounds version.val)
    (hoperator : specifier.operator = .greaterThan) :
    specifier.contains version = true ↔
      ¬ (specifier.version.val.prefixKey = version.val.prefixKey ∧
        (!specifier.version.val.isPost && version.val.isPost) = true) ∧
      (specifier.version.val.prefixKey < version.val.prefixKey ∨
        specifier.version.val.prefixKey = version.val.prefixKey ∧
          specifier.version.val.rank.key emptyKey <
            version.val.rank.key emptyKey) := by
  obtain ⟨other, hcandidate, hother⟩ := @exists_candidate specifier version hlocal
  unfold contains
  simp only [hoperator, hother]
  have hpost : other.val.isPost = version.val.isPost := by
    unfold Version.isPost
    rw [hcandidate.post_eq]
  have hisLocal : other.val.isLocal = false := by
    unfold Version.isLocal
    rw [hcandidate.local_eq]
    rfl
  have hgt := Version.gt_iff other.valid specifier.version.valid
  rw [guarded_iff (specifier.version.val.prefixKey = other.val.prefixKey)]
  · rw [hgt, Version.key_lt_key, sortableTuple_candidate hcandidate hversion,
      sortableTuple_candidate (candidate_self hlocal) hthis,
      hcandidate.prefixKey_eq, hpost, hisLocal, Bool.or_false]
  · intro hepoch
    refine ⟨?_, ?_⟩
    · rw [hgt, Version.key_lt_key, Version.prefixKey_lt]
      exact .inl (.inl hepoch)
    · rw [Version.prefixKey_eq]
      exact fun heq => absurd heq.1 (ne_of_lt hepoch)
  · intro hepoch habove
    rw [hgt, Version.key_lt_key, Version.prefixKey_lt,
      Version.prefixKey_eq] at habove
    rw [Version.compareRelease_eq_eq, Version.prefixKey_eq]
    have heq : specifier.version.val.epoch = other.val.epoch := by
      rcases habove with (hlt | ⟨heq, -⟩) | ⟨⟨heq, -⟩, -⟩
      · exact absurd hlt hepoch
      · exact heq
      · exact heq
    exact (and_iff_right heq).symm

end Exclusive

/-! ## The artificial bounds -/

section Bounds

variable {this : ValidVersion}

/-- A bound made from `V` by changing its suffix. -/
structure BoundOf (this bound : Version) (tuple : SuffixKey) : Prop where
  prefix_eq : bound.prefixKey = this.prefixKey
  tuple_eq : bound.sortableTuple.key = tuple

private theorem boundOf_of_makeFull {this bound : Version} {tuple : SuffixKey}
    (hepoch : bound.makeFull.epoch = this.makeFull.epoch)
    (hrelease : bound.makeFull.release = this.makeFull.release)
    (htuple : bound.makeFull.sortableTuple.key = tuple) :
    BoundOf this bound tuple := by
  refine ⟨?_, htuple⟩
  unfold Version.prefixKey
  rw [Version.epoch_eq, Version.release_eq, hepoch, hrelease, Version.epoch_eq,
    Version.release_eq]

theorem boundOf_withMinZero (this : ValidVersion) :
    ∃ rank : SuffixRank, rank.segment = 0 ∧ BoundOf this.val
      this.withMinZero.val (rank.key this.val.localVersion.key) := by
  let rank : SuffixRank := ⟨0, 0, optionKey
    (if this.val.makeFull.max.isSome then some u64Max
      else this.val.makeFull.post), 0⟩
  refine ⟨rank, rfl, boundOf_of_makeFull ?_ ?_ ?_⟩ <;>
    simp [ValidVersion.withMinZero, VersionFull.sortableTuple, rank,
      SortableTuple.key, SuffixRank.key, Version.localVersion_eq]

/-- A changed suffix without internal bounds. -/
theorem boundOf_of_rank {bound : ValidVersion}
    (hthis : Version.NoBounds this.val) (pre : Option Prerelease)
    (post dev : Option ℕ) (localVersion : LocalVersion)
    (hfull : bound.val.makeFull =
      { this.val.makeFull with
        pre := pre, post := post, dev := dev, localVersion := localVersion }) :
    BoundOf this.val bound.val
      ((suffixRank pre post dev).key localVersion.key) := by
  have hbounds : Version.NoBounds bound.val := by
    obtain ⟨hmin, hmax⟩ := hthis
    refine ⟨?_, ?_⟩
    · rw [Version.min_eq, hfull, ← hmin, Version.min_eq]
    · rw [Version.max_eq, hfull, ← hmax, Version.max_eq]
  refine boundOf_of_makeFull (by rw [hfull]) (by rw [hfull]) ?_
  have htuple := Version.sortableTuple_key hbounds
  unfold Version.rank at htuple
  rw [Version.pre_eq, Version.post_eq, Version.dev_eq, Version.localVersion_eq,
    hfull] at htuple
  rw [← htuple]
  rfl

theorem boundOf_withDev (hthis : Version.NoBounds this.val) (value : Option ℕ) :
    BoundOf this.val (this.withDev value).val
      ((suffixRank this.val.pre this.val.post value).key
        this.val.localVersion.key) := by
  apply boundOf_of_rank hthis
  rw [Version.pre_eq, Version.post_eq, Version.localVersion_eq]
  exact Version.makeFull_withDev this.val value

theorem boundOf_withPost (hthis : Version.NoBounds this.val)
    (value : Option ℕ) :
    BoundOf this.val (this.withPost value).val
      ((suffixRank this.val.pre value this.val.dev).key
        this.val.localVersion.key) := by
  apply boundOf_of_rank hthis
  rw [Version.pre_eq, Version.dev_eq, Version.localVersion_eq]
  exact Version.makeFull_withPost this.val value

theorem boundOf_withMaxZero (hthis : Version.NoBounds this.val)
    (hdev : this.val.dev = none) :
    BoundOf this.val this.withMaxZero.val
      ((suffixRank this.val.pre (some u64Max) none).key
        this.val.localVersion.key) := by
  have hmin := hthis.min_eq
  rw [Version.min_eq] at hmin
  rw [Version.dev_eq] at hdev
  refine boundOf_of_makeFull ?_ ?_ ?_
  · simp [ValidVersion.withMaxZero]
  · simp [ValidVersion.withMaxZero]
  · simp only [ValidVersion.withMaxZero, Version.makeFull_withMax,
      VersionFull.sortableTuple, hmin, hdev, Version.pre_eq,
      Version.localVersion_eq]
    cases this.val.makeFull.pre <;>
      simp [suffixRank, SuffixRank.key, SortableTuple.key]

/-- Comparing with a bound: the releases decide, then the suffixes. -/
theorem BoundOf.lt_iff {version bound : ValidVersion} {tuple : SuffixKey}
    (hbound : BoundOf this.val bound.val tuple)
    (hversion : Version.NoBounds version.val) :
    version.val.key < bound.val.key ↔
      version.val.prefixKey < this.val.prefixKey ∨
        version.val.prefixKey = this.val.prefixKey ∧
          version.val.rank.key version.val.localVersion.key < tuple := by
  rw [Version.key_lt_key, hbound.prefix_eq, hbound.tuple_eq,
    Version.sortableTuple_key hversion]

theorem BoundOf.gt_iff {version bound : ValidVersion} {tuple : SuffixKey}
    (hbound : BoundOf this.val bound.val tuple)
    (hversion : Version.NoBounds version.val) :
    bound.val.key < version.val.key ↔
      this.val.prefixKey < version.val.prefixKey ∨
        this.val.prefixKey = version.val.prefixKey ∧
          tuple < version.val.rank.key version.val.localVersion.key := by
  rw [Version.key_lt_key, hbound.prefix_eq, hbound.tuple_eq,
    Version.sortableTuple_key hversion]

theorem BoundOf.le_iff {version bound : ValidVersion} {tuple : SuffixKey}
    (hbound : BoundOf this.val bound.val tuple)
    (hversion : Version.NoBounds version.val) :
    bound.val.key ≤ version.val.key ↔
      this.val.prefixKey < version.val.prefixKey ∨
        this.val.prefixKey = version.val.prefixKey ∧
          tuple ≤ version.val.rank.key version.val.localVersion.key := by
  rw [← not_lt, hbound.lt_iff hversion]
  rcases lt_trichotomy version.val.prefixKey this.val.prefixKey with
    hlt | heq | hgt
  · simp [hlt, hlt.ne', hlt.not_gt]
  · simp [heq]
  · simp [hgt, hgt.ne', hgt.not_gt]

end Bounds

/-! ## Where the two differ -/

/-- Epoch and release of two versions are the same. -/
def SameRelease (this version : Version) : Prop :=
  this.epoch = version.epoch ∧
    compareRelease this.release version.release = .eq

/-- `<V` for a stable post-release `V`: the range leaves out the final release
and the earlier post-releases. -/
structure LessThanGap (this version : Version) : Prop where
  same : SameRelease this version
  this_stable : this.isStable = true
  version_stable : version.isStable = true
  post_lt : compareOption version.post this.post = .lt

/-- `>V`: where the range differs from what the specifier contains. -/
inductive GreaterThanGap (this version : Version) : Prop where
  /-- The range above a dev-release lets the post-releases above it through. -/
  | ofDev (same : SameRelease this version) (hdev : this.isDev = true)
      (hpost : this.isPost = false) (hpost' : version.isPost = true)
      (habove : this.lt version = true)
  /-- The range above a pre-release lets the post-releases of later
  pre-releases and of the final release through. -/
  | ofPre (same : SameRelease this version) (hdev : this.isDev = false)
      (hpost : this.isPost = false) (hpost' : version.isPost = true)
      (hpre : SuffixRank.preRank this.pre < SuffixRank.preRank version.pre)
  /-- Local versions of the last possible post-release. -/
  | ofMax (same : SameRelease this version) (hdev : this.isDev = false)
      (hpost : this.isPost = false) (hpre : version.pre = this.pre)
      (hpost' : version.post = some u64Max)
      (hdev' : version.dev.getD u64Max = u64Max)
      (hlocal : version.isLocal = true)
  /-- The range above a post-release leaves out the dev-releases of the next
  one. -/
  | ofPost (same : SameRelease this version) (hdev : this.isDev = false)
      {post dev : ℕ} (hpost : this.post = some post)
      (hpre : version.pre = this.pre) (hpost' : version.post = some (post + 1))
      (hdev' : version.dev = some dev) (hlt : dev < u64Max)

theorem sameRelease_iff {this version : Version} :
    SameRelease this version ↔ this.prefixKey = version.prefixKey := by
  rw [SameRelease, Version.compareRelease_eq_eq, Version.prefixKey_eq]

theorem localVersion_key_of_isEmpty {localVersion : LocalVersion}
    (hempty : localVersion.isEmpty = true) : localVersion.key = emptyKey := by
  cases localVersion with
  | max => simp [LocalVersion.isEmpty] at hempty
  | segments parts =>
      rw [LocalVersion.isEmpty, List.isEmpty_iff] at hempty
      rw [hempty]
      rfl

theorem emptyKey_lt_iff {version : Version} :
    emptyKey < version.localVersion.key ↔ version.isLocal = true := by
  unfold Version.isLocal
  cases hlocal : version.localVersion.isEmpty with
  | true => simp [localVersion_key_of_isEmpty hlocal]
  | false =>
      have hne : emptyKey ≠ version.localVersion.key := by
        intro heq
        rw [← Version.LocalVersion.key_injective heq] at hlocal
        simp [LocalVersion.empty, LocalVersion.isEmpty] at hlocal
      simpa using lt_of_le_of_ne (emptyKey_le _) hne

theorem segment_pos (version : Version) : 0 < version.rank.segment := by
  unfold Version.rank suffixRank
  cases version.pre with
  | some pre =>
      exact Nat.zero_lt_one.trans (SuffixRank.segment_bounds pre.kind).1
  | none => cases version.post <;> cases version.dev <;> simp

theorem anyPrerelease_eq_false {version : Version} :
    version.anyPrerelease = false ↔ version.pre = none ∧ version.dev = none := by
  simp [Version.anyPrerelease, Version.isPre, Version.isDev]

theorem isStable_eq (version : Version) :
    version.isStable = !version.anyPrerelease := by
  simp [Version.isStable, Version.anyPrerelease]

private theorem some_eq_some_iff {left right : Bool} {p q : Prop}
    (hleft : left = true ↔ p) (hright : right = true ↔ q) :
    some left = some right ↔ (p ↔ q) := by
  rw [Option.some.injEq, Bool.eq_iff_iff, hleft, hright]

/-- Where the releases differ they decide both comparisons. -/
private theorem agree_iff {apart same p q guard : Prop}
    (hapart : apart → ¬ same) :
    ((apart ∨ same ∧ q) ↔ ¬ (same ∧ guard) ∧ (apart ∨ same ∧ p)) ↔
      (same → (q ↔ ¬ guard ∧ p)) := by
  by_cases hsame : same
  · have hnot : ¬ apart := fun h => hapart h hsame
    simp [hsame, hnot]
  · simp [hsame]

section Agreement

variable [RangeOps ValidVersion] {specifier : VersionSpecifier}
  {version : ValidVersion}
  (hlocal : specifier.version.val.localVersion.isEmpty = true)
  (hthis : Version.NoBounds specifier.version.val)
  (hversion : Version.NoBounds version.val)

include hlocal hthis hversion

theorem lessThan_agrees_iff (hoperator : specifier.operator = .lessThan) :
    specifier.toRange.map (·.contains version) =
        some (specifier.contains version) ↔
      ¬ LessThanGap specifier.version.val version.val := by
  have hcontains := contains_lessThan hlocal hthis hversion hoperator
  have hapart : version.val.prefixKey < specifier.version.val.prefixKey →
      ¬ version.val.prefixKey = specifier.version.val.prefixKey := ne_of_lt
  unfold toRange
  simp only [hoperator]
  cases hpre : specifier.version.val.anyPrerelease with
  | true =>
      have hkey := @Version.key_lt_key version.val specifier.version.val
      rw [Version.sortableTuple_key hversion, Version.sortableTuple_key hthis,
        localVersion_key_of_isEmpty hlocal, SuffixRank.key_lt_emptyKey] at hkey
      rw [if_pos rfl, Option.map_some,
        some_eq_some_iff (Ranges.contains_strictlyLowerThan.trans hkey) hcontains,
        agree_iff hapart, hpre]
      refine iff_of_true (by simp) fun hgap => ?_
      have hstable := hgap.this_stable
      rw [isStable_eq, hpre] at hstable
      cases hstable
  | false =>
      obtain ⟨rank, hsegment, hbound⟩ := boundOf_withMinZero specifier.version
      have hmin : ¬ version.val.rank.key version.val.localVersion.key <
          rank.key specifier.version.val.localVersion.key := by
        have hpos := segment_pos version.val
        simp [SuffixRank.key, Prod.Lex.toLex_lt_toLex, hsegment, hpos.ne']
      rw [if_neg (by simp), Option.map_some,
        some_eq_some_iff (Ranges.contains_strictlyLowerThan.trans
          (hbound.lt_iff hversion)) hcontains, agree_iff hapart, hpre]
      -- the range holds no version with the release of `V`
      simp only [hmin, false_iff]
      rw [← not_iff_not, not_not, Classical.not_imp, not_not]
      have hstable := anyPrerelease_eq_false.mp hpre
      have hpost : version.val.anyPrerelease = false →
          (version.val.rank.key emptyKey <
              specifier.version.val.rank.key emptyKey ↔
            compareOption version.val.post specifier.version.val.post = .lt) := by
        intro hversionPre
        obtain ⟨hpre', hdev'⟩ := anyPrerelease_eq_false.mp hversionPre
        unfold Version.rank
        rw [hstable.1, hstable.2, hpre', hdev', SuffixRank.stable_lt_stable,
          compareOption_eq, linearCmp_eq_lt]
      constructor
      · rintro ⟨hsame, hguard, hlt⟩
        have hversionPre : version.val.anyPrerelease = false := by
          simpa using hguard
        exact ⟨sameRelease_iff.mpr hsame.symm, by rw [isStable_eq, hpre]; rfl,
          by rw [isStable_eq, hversionPre]; rfl, (hpost hversionPre).mp hlt⟩
      · rintro ⟨hsame, -, hversionStable, hlt⟩
        have hversionPre : version.val.anyPrerelease = false := by
          simpa [isStable_eq] using hversionStable
        exact ⟨(sameRelease_iff.mp hsame).symm, by simp [hversionPre],
          (hpost hversionPre).mpr hlt⟩

/-- Above a dev-release the range lets post-releases through. -/
theorem greaterThan_agrees_iff_of_dev {dev : ℕ}
    (hdev : specifier.version.val.dev = some dev) (hsmall : dev < u64Max)
    (hoperator : specifier.operator = .greaterThan) :
    specifier.toRange.map (·.contains version) =
        some (specifier.contains version) ↔
      ¬ (SameRelease specifier.version.val version.val ∧
        specifier.version.val.isPost = false ∧ version.val.isPost = true ∧
        specifier.version.val.lt version.val = true) := by
  have hcontains := contains_greaterThan hlocal hthis hversion hoperator
  have hapart : specifier.version.val.prefixKey < version.val.prefixKey →
      ¬ specifier.version.val.prefixKey = version.val.prefixKey := ne_of_lt
  have hsucc := u64Succ_of_lt hsmall
  have hrank : suffixRank specifier.version.val.pre specifier.version.val.post
      (some (dev + 1)) = { specifier.version.val.rank with
        dev := specifier.version.val.rank.dev + 1 } := by
    unfold Version.rank suffixRank
    rw [hdev]
    cases specifier.version.val.pre <;> cases specifier.version.val.post <;>
      simp
  have hbound := boundOf_withDev hthis (some (dev + 1))
  rw [hrank, localVersion_key_of_isEmpty hlocal] at hbound
  have hkey : (Ranges.higherThan (specifier.version.withDev
      (some (dev + 1)))).contains version = true ↔ _ :=
    Ranges.contains_higherThan.trans (hbound.le_iff hversion)
  rw [← SuffixRank.key_dev_lt] at hkey
  have hlt := Version.lt_iff specifier.version.valid version.valid
  rw [Version.key_lt_key, Version.sortableTuple_key hthis,
    Version.sortableTuple_key hversion, localVersion_key_of_isEmpty hlocal] at hlt
  unfold toRange
  simp only [hoperator, hdev, Option.map_some, hsucc]
  rw [some_eq_some_iff hkey hcontains, agree_iff hapart, sameRelease_iff, hlt]
  cases hpost : specifier.version.val.post with
  | some post => simp [Version.isPost, hpost]
  | none =>
      cases hpost' : version.val.post with
      | none => simp [Version.isPost, hpost']
      | some post' =>
          have hne : specifier.version.val.rank.post ≠ version.val.rank.post := by
            simp [Version.rank, suffixRank, hpost, hpost', optionKey]
          rw [SuffixRank.key_lt_of_post_ne version.val.localVersion.key hne]
          simp only [Version.isPost, hpost, hpost']
          by_cases hsame : specifier.version.val.prefixKey =
              version.val.prefixKey <;> simp [hsame]

/-- Above a pre-release or a final release the range ends right below the
internal maximum of the release. -/
theorem greaterThan_agrees_iff_of_final
    (hdev : specifier.version.val.dev = none)
    (hpost : specifier.version.val.post = none)
    (hmaxDev : ∀ dev, version.val.dev = some dev → dev ≤ u64Max)
    (hmaxPost : ∀ post, version.val.post = some post → post ≤ u64Max)
    (hoperator : specifier.operator = .greaterThan) :
    specifier.toRange.map (·.contains version) =
        some (specifier.contains version) ↔
      ¬ (SameRelease specifier.version.val version.val ∧
        ∃ post, version.val.post = some post ∧
          (SuffixRank.preRank specifier.version.val.pre <
              SuffixRank.preRank version.val.pre ∨
            specifier.version.val.pre = version.val.pre ∧ post = u64Max ∧
              version.val.dev.getD u64Max = u64Max ∧
              version.val.isLocal = true)) := by
  have hcontains := contains_greaterThan hlocal hthis hversion hoperator
  have hapart : specifier.version.val.prefixKey < version.val.prefixKey →
      ¬ specifier.version.val.prefixKey = version.val.prefixKey := ne_of_lt
  have hbound := boundOf_withMaxZero hthis hdev
  rw [localVersion_key_of_isEmpty hlocal] at hbound
  have hkey : (Ranges.strictlyHigherThan
      specifier.version.withMaxZero).contains version = true ↔ _ :=
    Ranges.contains_strictlyHigherThan.trans (hbound.gt_iff hversion)
  unfold toRange
  simp only [hoperator, hdev, hpost, Option.map_some]
  rw [some_eq_some_iff hkey hcontains, agree_iff hapart, sameRelease_iff]
  unfold Version.rank
  rw [hdev, hpost]
  cases hpost' : version.val.post with
  | none =>
      rw [SuffixRank.max_lt_of_not_post hmaxDev]
      simp [Version.isPost, hpost']
  | some post' =>
      rw [SuffixRank.max_lt_of_post (hmaxPost post' hpost') hmaxDev,
        emptyKey_lt_iff]
      simp only [Version.isPost, hpost, hpost']
      by_cases hsame : specifier.version.val.prefixKey =
          version.val.prefixKey <;> simp [hsame]

/-- Above a post-release the range starts at the next one. -/
theorem greaterThan_agrees_iff_of_post {post : ℕ}
    (hdev : specifier.version.val.dev = none)
    (hpost : specifier.version.val.post = some post) (hsmall : post < u64Max)
    (hmaxDev : ∀ dev, version.val.dev = some dev → dev ≤ u64Max)
    (hoperator : specifier.operator = .greaterThan) :
    specifier.toRange.map (·.contains version) =
        some (specifier.contains version) ↔
      ¬ (SameRelease specifier.version.val version.val ∧
        version.val.pre = specifier.version.val.pre ∧
        version.val.post = some (post + 1) ∧
        ∃ dev, version.val.dev = some dev ∧ dev < u64Max) := by
  have hcontains := contains_greaterThan hlocal hthis hversion hoperator
  have hapart : specifier.version.val.prefixKey < version.val.prefixKey →
      ¬ specifier.version.val.prefixKey = version.val.prefixKey := ne_of_lt
  have hsucc := u64Succ_of_lt hsmall
  have hbound := boundOf_withPost hthis (some (post + 1))
  rw [localVersion_key_of_isEmpty hlocal] at hbound
  have hkey : (Ranges.higherThan (specifier.version.withPost
      (some (post + 1)))).contains version = true ↔ _ :=
    Ranges.contains_higherThan.trans (hbound.le_iff hversion)
  have hnext := @SuffixRank.nextPost_le specifier.version.val.pre
    version.val.pre version.val.post version.val.dev
    version.val.localVersion.key post (post + 1) rfl hmaxDev
  unfold toRange
  simp only [hoperator, hdev, hpost, Option.map_some, hsucc]
  rw [some_eq_some_iff hkey hcontains, agree_iff hapart, sameRelease_iff,
    not_and, ← hnext]
  unfold Version.rank
  rw [hdev, hpost]
  simp [Version.isPost, hpost]

end Agreement

/-- The cases above, as one condition. -/
theorem greaterThan_agrees_iff [RangeOps ValidVersion]
    {specifier : VersionSpecifier} {version : ValidVersion}
    (hlocal : specifier.version.val.localVersion.isEmpty = true)
    (hthis : Version.NoBounds specifier.version.val)
    (hversion : Version.NoBounds version.val)
    (hsmallDev : ∀ dev, specifier.version.val.dev = some dev → dev < u64Max)
    (hsmallPost : ∀ post, specifier.version.val.post = some post →
      post < u64Max)
    (hmaxDev : ∀ dev, version.val.dev = some dev → dev ≤ u64Max)
    (hmaxPost : ∀ post, version.val.post = some post → post ≤ u64Max)
    (hoperator : specifier.operator = .greaterThan) :
    specifier.toRange.map (·.contains version) =
        some (specifier.contains version) ↔
      ¬ GreaterThanGap specifier.version.val version.val := by
  have hisDev : ∀ {this : Version}, this.isDev = false ↔ this.dev = none := by
    simp [Version.isDev]
  have hisPost : ∀ {this : Version}, this.isPost = false ↔ this.post = none := by
    simp [Version.isPost]
  cases hdev : specifier.version.val.dev with
  | some dev =>
      rw [greaterThan_agrees_iff_of_dev hlocal hthis hversion hdev
        (hsmallDev dev hdev) hoperator, not_iff_not]
      have hsome : specifier.version.val.isDev = true := by
        simp [Version.isDev, hdev]
      constructor
      · rintro ⟨hsame, hpost, hpost', habove⟩
        exact .ofDev hsame hsome hpost hpost' habove
      · rintro (⟨hsame, -, hpost, hpost', habove⟩ | ⟨-, hnone, -⟩ |
          ⟨-, hnone, -⟩ | ⟨-, hnone, -⟩)
        · exact ⟨hsame, hpost, hpost', habove⟩
        all_goals simp [hsome] at hnone
  | none =>
      have hnone : specifier.version.val.isDev = false := hisDev.mpr hdev
      cases hpost : specifier.version.val.post with
      | none =>
          rw [greaterThan_agrees_iff_of_final hlocal hthis hversion hdev hpost
            hmaxDev hmaxPost hoperator, not_iff_not]
          have hnoPost := hisPost.mpr hpost
          constructor
          · rintro ⟨hsame, post, hpost', hpre | ⟨hpre, rfl, hdev', hisLocal⟩⟩
            · exact .ofPre hsame hnone hnoPost (by simp [Version.isPost, hpost'])
                hpre
            · exact .ofMax hsame hnone hnoPost hpre.symm hpost' hdev' hisLocal
          · rintro (⟨-, hsome, -⟩ | ⟨hsame, -, -, hpost', hpre⟩ |
              ⟨hsame, -, -, hpre, hpost', hdev', hisLocal⟩ |
              ⟨-, -, hsome, -⟩)
            · simp [hnone] at hsome
            · obtain ⟨post, hpost'⟩ := Option.isSome_iff_exists.mp hpost'
              exact ⟨hsame, post, hpost', .inl hpre⟩
            · exact ⟨hsame, u64Max, hpost', .inr ⟨hpre.symm, rfl, hdev', hisLocal⟩⟩
            · simp [hpost] at hsome
      | some post =>
          rw [greaterThan_agrees_iff_of_post hlocal hthis hversion hdev hpost
            (hsmallPost post hpost) hmaxDev hoperator, not_iff_not]
          have hsomePost : specifier.version.val.isPost = true := by
            simp [Version.isPost, hpost]
          constructor
          · rintro ⟨hsame, hpre, hpost', dev, hdev', hlt⟩
            exact .ofPost hsame hnone hpost hpre hpost' hdev' hlt
          · rintro (⟨-, hsome, -⟩ | ⟨-, -, hnoPost, -⟩ | ⟨-, -, hnoPost, -⟩ |
              ⟨hsame, -, hpost'', hpre, hpost', hdev', hlt⟩)
            · simp [hnone] at hsome
            · simp [hsomePost] at hnoPost
            · simp [hsomePost] at hnoPost
            · obtain rfl := Option.some.inj (hpost.symm.trans hpost'')
              exact ⟨hsame, hpre, hpost', _, hdev', hlt⟩

end VersionSpecifier

/-! ## Parsed versions -/

theorem number_le {digits : List Byte} {n : ℕ} (hnumber : number digits = some n) :
    n ≤ u64Max := by
  unfold number at hnumber
  split at hnumber
  · cases hnumber
    assumption
  · cases hnumber

theorem numberOrZero_le {digits : Option (List Byte)} {n : ℕ}
    (hnumber : numberOrZero digits = some n) : n ≤ u64Max := by
  cases digits with
  | none =>
      cases hnumber
      exact Nat.zero_le _
  | some text => exact number_le hnumber

/-- The numbers of a parsed version fit into a `u64`. -/
theorem Version.le_of_fromStr {s : List Byte} {version : Version}
    (hparse : fromStr s = .ok version) :
    (∀ dev, version.dev = some dev → dev ≤ u64Max) ∧
      ∀ post, version.post = some post → post ≤ u64Max := by
  obtain ⟨groups, hcomponents⟩ := exists_components_of_fromStr hparse
  unfold Groups.components at hcomponents
  simp only [Option.bind_eq_bind, Option.bind_eq_some_iff, Option.pure_def,
    Option.some.injEq] at hcomponents
  obtain ⟨_, -, _, -, _, -, post, hpost, dev, hdev, hparts⟩ := hcomponents
  rw [Version.dev_eq, Version.post_eq, ← hparts]
  simp only
  refine ⟨?_, ?_⟩
  · rintro n rfl
    unfold Groups.readDev at hdev
    split at hdev
    · cases hdev
    · obtain ⟨m, hnumber, hsome⟩ := Option.map_eq_some_iff.mp hdev
      cases hsome
      exact numberOrZero_le hnumber
  · rintro n rfl
    unfold Groups.readPost at hpost
    split at hpost
    · obtain ⟨m, hnumber, hsome⟩ := Option.map_eq_some_iff.mp hpost
      cases hsome
      exact number_le hnumber
    · cases hpost
    · obtain ⟨m, hnumber, hsome⟩ := Option.map_eq_some_iff.mp hpost
      cases hsome
      exact numberOrZero_le hnumber

namespace VersionSpecifier

/-- For every exclusive specifier and every version, both parsed, the range and
the specifier agree exactly away from the two gaps. -/
theorem toRange_contains_iff [RangeOps ValidVersion] {spec : List Char}
    {specifier : VersionSpecifier} {s : List Byte} {version : Version}
    (hspec : fromStr spec = .ok specifier)
    (hparse : Version.fromStr s = .ok version)
    (hoperator : specifier.operator = .lessThan ∨
      specifier.operator = .greaterThan)
    (hdev : ∀ dev, specifier.version.val.dev = some dev → dev < u64Max)
    (hpost : ∀ post, specifier.version.val.post = some post → post < u64Max) :
    specifier.toRange.map (·.contains (.ofFromStr hparse)) =
        some (specifier.contains (.ofFromStr hparse)) ↔
      ¬ (specifier.operator = .lessThan ∧
          LessThanGap specifier.version.val version) ∧
        ¬ (specifier.operator = .greaterThan ∧
          GreaterThanGap specifier.version.val version) := by
  have hstar : specifier.operator.isStar = false ∧
      specifier.operator.isLocalCompatible = false := by
    rcases hoperator with hoperator | hoperator <;> simp [hoperator,
      Operator.isStar, Operator.isLocalCompatible]
  obtain ⟨⟨source, hsource⟩, hlocal⟩ := exists_of_fromStr hspec hstar.1
  have hthis := Version.noBounds_of_fromStr hsource
  have hversion := Version.noBounds_of_fromStr hparse
  obtain ⟨hmaxDev, hmaxPost⟩ := Version.le_of_fromStr hparse
  rcases hoperator with hoperator | hoperator
  · rw [lessThan_agrees_iff (hlocal hstar.2) hthis hversion hoperator]
    simp [hoperator, ValidVersion.ofFromStr]
  · rw [greaterThan_agrees_iff (hlocal hstar.2) hthis hversion hdev hpost hmaxDev
      hmaxPost hoperator]
    simp [hoperator, ValidVersion.ofFromStr]

private theorem fromStr_lessThan_post :
    fromStr "<1.0.post1".toList =
      .ok (lessThanVersion ((ValidVersion.new [1, 0]).withPost (some 1))) := by
  decide +kernel

private theorem fromStr_one : Version.fromStr (ascii "1.0") =
    .ok (ValidVersion.new [1, 0]).val := by
  decide +kernel

/-- `<1.0.post1` contains `1.0`, the range does not. -/
theorem toRange_lessThan_post_excludes_final :
    ∃ specifier version, fromStr "<1.0.post1".toList = .ok specifier ∧
      ∃ hparse : Version.fromStr (ascii "1.0") = .ok version,
        specifier.contains (.ofFromStr hparse) = true ∧
        specifier.toRange.map (·.contains (.ofFromStr hparse)) =
          some false :=
  ⟨_, _, fromStr_lessThan_post, fromStr_one, by decide +kernel,
    by decide +kernel⟩

/-- `<1.0.post1` and `1.0.dev1`: no gap, and both leave the version out. -/
theorem toRange_contains_iff_dev :
    ∃ specifier version, fromStr "<1.0.post1".toList = .ok specifier ∧
      ∃ hparse : Version.fromStr (ascii "1.0.dev1") = .ok version,
        specifier.toRange.map (·.contains (.ofFromStr hparse)) =
          some (specifier.contains (.ofFromStr hparse)) := by
  have hparse : Version.fromStr (ascii "1.0.dev1") =
      .ok ((ValidVersion.new [1, 0]).withDev (some 1)).val := by
    decide +kernel
  refine ⟨_, _, fromStr_lessThan_post, hparse, ?_⟩
  refine (toRange_contains_iff fromStr_lessThan_post hparse (.inl rfl) ?_
    ?_).mpr ⟨?_, ?_⟩
  · intro dev hdev
    have hnone : (none : Option ℕ) = some dev := by
      rw [← hdev]
      decide +kernel
    cases hnone
  · intro post hpost
    have hone : some 1 = some post := by
      rw [← hpost]
      decide +kernel
    cases hone
    decide
  · rintro ⟨-, hgap⟩
    exact absurd hgap.version_stable (by decide +kernel)
  · rintro ⟨hoperator, -⟩
    cases hoperator

end VersionSpecifier

end Uv.Pep440
