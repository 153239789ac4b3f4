import Uv.Pep440.InclusiveComparison

/-!
# Prefix comparisons

`==V.*` and `!=V.*` look at the first release segments of a candidate, `~=V` at
all but the last one of `V`.  `contains` compares the segments both releases
have; the ranges compare releases padded with zeros.  The two differ on
candidates that stop inside the prefix, where `contains` sees a match.
-/

namespace Uv.Pep440

open Uv.Core Uv.Core.Order

/-! ## Versions before a star -/

namespace Parser

/-- Nothing behind the release has been read. -/
structure Bare (parser : Parser) : Prop where
  pre : parser.pre = none
  post : parser.post = none
  dev : parser.dev = none
  localSegments : parser.localSegments = []
  wildcard : parser.wildcard = false

variable {parser parser' : Parser}

theorem Bare.advance (hbare : Bare parser) (count : ℕ) :
    Bare (parser.advance count) :=
  ⟨hbare.pre, hbare.post, hbare.dev, hbare.localSegments, hbare.wildcard⟩

theorem Bare.withRelease (hbare : Bare parser) (epoch : ℕ) (release : List ℕ) :
    Bare { parser with epoch, release } :=
  ⟨hbare.pre, hbare.post, hbare.dev, hbare.localSegments, hbare.wildcard⟩

theorem bumpIf_eq_some {literal : List Byte}
    (hbump : parser.bumpIf literal = some parser') :
    parser' = parser.advance literal.length := by
  unfold bumpIf at hbump
  split at hbump
  · cases hbump
  · split at hbump
    · exact (Option.some.inj hbump).symm
    · cases hbump

theorem exists_advance_of_parseNumber {number : Option ℕ}
    (hnumber : parser.parseNumber = .ok (number, parser')) :
    ∃ count, parser' = parser.advance count := by
  unfold parseNumber bumpWhile at hnumber
  simp only at hnumber
  split at hnumber
  · cases hnumber
    exact ⟨_, rfl⟩
  · split at hnumber
    · cases hnumber
      exact ⟨_, rfl⟩
    · cases hnumber

theorem Bare.parseNumber {number : Option ℕ} (hbare : Bare parser)
    (hnumber : parser.parseNumber = .ok (number, parser')) : Bare parser' := by
  obtain ⟨count, rfl⟩ := exists_advance_of_parseNumber hnumber
  exact hbare.advance count

theorem Bare.bumpIf {literal : List Byte} (hbare : Bare parser)
    (hbump : parser.bumpIf literal = some parser') : Bare parser' := by
  rw [bumpIf_eq_some hbump]
  exact hbare.advance _

theorem Bare.parseEpochAndInitialRelease (hbare : Bare parser)
    (hparse : parser.parseEpochAndInitialRelease = .ok parser') :
    Bare parser' ∧ parser'.release ≠ [] := by
  unfold Parser.parseEpochAndInitialRelease at hparse
  split at hparse
  · cases hparse
  · cases hparse
  rename_i hfirst
  have hbare := hbare.parseNumber hfirst
  split at hparse
  · cases hparse
    exact ⟨hbare.withRelease _ _, by simp⟩
  rename_i hbump
  have hbare := hbare.bumpIf hbump
  split at hparse
  · cases hparse
  · cases hparse
  rename_i hnumber
  cases hparse
  exact ⟨(hbare.parseNumber hnumber).withRelease _ _, by simp⟩

theorem Bare.parseRestOfReleaseLoop {fuel : ℕ} (hbare : Bare parser)
    (hrelease : parser.release ≠ [])
    (hparse : Parser.parseRestOfReleaseLoop fuel parser = .ok parser') :
    Bare parser' ∧ parser'.release ≠ [] := by
  induction fuel generalizing parser with
  | zero =>
      cases hparse
      exact ⟨hbare, hrelease⟩
  | succ fuel ih =>
      unfold Parser.parseRestOfReleaseLoop at hparse
      split at hparse
      · cases hparse
        exact ⟨hbare, hrelease⟩
      rename_i hbump
      rw [bumpIf_eq_some hbump] at hparse
      split at hparse
      · cases hparse
      · rename_i hnumber
        obtain ⟨count, rfl⟩ := exists_advance_of_parseNumber hnumber
        cases hparse
        exact ⟨⟨hbare.pre, hbare.post, hbare.dev, hbare.localSegments,
          hbare.wildcard⟩, hrelease⟩
      · rename_i hnumber
        refine ih ((hbare.advance _).parseNumber hnumber |>.withRelease _ _) ?_
          hparse
        simp

/-! The suffixes leave the wildcard alone. -/

theorem wildcard_skipByteSet (parser : Parser) (set : List Byte) :
    (parser.skipByteSet set).wildcard = parser.wildcard := by
  unfold skipByteSet bumpIfByteSet
  cases parser.rest with
  | nil => rfl
  | cons byte rest =>
      simp only
      cases set.contains byte <;> rfl

theorem wildcard_bumpIfStringSet {strings : List (List Byte)} {index : ℕ}
    (hbump : parser.bumpIfStringSet strings = some (index, parser')) :
    parser'.wildcard = parser.wildcard := by
  unfold bumpIfStringSet at hbump
  split at hbump
  · cases hbump
    rfl
  · cases hbump

theorem wildcard_parseNumber {number : Option ℕ}
    (hnumber : parser.parseNumber = .ok (number, parser')) :
    parser'.wildcard = parser.wildcard := by
  obtain ⟨count, rfl⟩ := exists_advance_of_parseNumber hnumber
  rfl

theorem wildcard_bumpIf {literal : List Byte}
    (hbump : parser.bumpIf literal = some parser') :
    parser'.wildcard = parser.wildcard := by
  rw [bumpIf_eq_some hbump]
  rfl

theorem wildcard_parseSuffixNumber {number : ℕ}
    (hnumber : parser.parseSuffixNumber = .ok (number, parser')) :
    parser'.wildcard = parser.wildcard := by
  unfold parseSuffixNumber at hnumber
  split at hnumber
  · cases hnumber
  rename_i hparse
  cases hnumber
  rw [wildcard_parseNumber hparse, wildcard_skipByteSet]

theorem wildcard_parsePre (hparse : parser.parsePre = .ok parser') :
    parser'.wildcard = parser.wildcard := by
  unfold parsePre at hparse
  simp only at hparse
  split at hparse
  · cases hparse
    exact wildcard_skipByteSet _ _
  rename_i hbump
  split at hparse
  · cases hparse
  rename_i hnumber
  cases hparse
  exact (wildcard_parseSuffixNumber hnumber).trans
    ((wildcard_bumpIfStringSet hbump).trans (wildcard_skipByteSet _ _))

theorem wildcard_parseSpelledPost
    (hparse : parser.parseSpelledPost = .ok parser') :
    parser'.wildcard = parser.wildcard := by
  unfold parseSpelledPost at hparse
  simp only at hparse
  split at hparse
  · cases hparse
    exact wildcard_skipByteSet _ _
  rename_i hbump
  split at hparse
  · cases hparse
  rename_i hnumber
  cases hparse
  exact (wildcard_parseSuffixNumber hnumber).trans
    ((wildcard_bumpIfStringSet hbump).trans (wildcard_skipByteSet _ _))

theorem wildcard_parsePost (hparse : parser.parsePost = .ok parser') :
    parser'.wildcard = parser.wildcard := by
  unfold parsePost at hparse
  simp only at hparse
  split at hparse
  · exact wildcard_parseSpelledPost hparse
  rename_i hbump
  split at hparse
  · cases hparse
  · rename_i hnumber
    cases hparse
    exact (wildcard_parseNumber hnumber).trans (wildcard_bumpIf hbump)
  · rename_i hnumber
    exact (wildcard_parseSpelledPost hparse).trans
      ((wildcard_parseNumber hnumber).trans (wildcard_bumpIf hbump))

theorem wildcard_parseDev (hparse : parser.parseDev = .ok parser') :
    parser'.wildcard = parser.wildcard := by
  unfold parseDev at hparse
  simp only at hparse
  split at hparse
  · cases hparse
    exact wildcard_skipByteSet _ _
  rename_i hbump
  split at hparse
  · cases hparse
  rename_i hnumber
  cases hparse
  exact (wildcard_parseSuffixNumber hnumber).trans
    ((wildcard_bumpIf hbump).trans (wildcard_skipByteSet _ _))

theorem wildcard_parseLocalLoop {fuel : ℕ} {precursor : Byte}
    (hparse : parseLocalLoop fuel precursor parser = .ok parser') :
    parser'.wildcard = parser.wildcard := by
  induction fuel generalizing precursor parser with
  | zero =>
      cases hparse
      rfl
  | succ fuel ih =>
      unfold parseLocalLoop bumpWhile bumpIfByteSet at hparse
      simp only at hparse
      split at hparse
      · cases hparse
      split at hparse
      · cases hparse
        rfl
      rename_i hbump
      rw [ih hparse]
      split at hbump
      · split at hbump
        · cases hbump
          rfl
        · cases hbump
      · cases hbump

theorem wildcard_parseLocal (hparse : parser.parseLocal = .ok parser') :
    parser'.wildcard = parser.wildcard := by
  unfold parseLocal at hparse
  split at hparse
  · cases hparse
    rfl
  rename_i hbump
  exact (wildcard_parseLocalLoop hparse).trans (wildcard_bumpIf hbump)

theorem wildcard_parseSuffixes {vpat : VersionPattern}
    (hparse : parser.parseSuffixes = .ok vpat) :
    vpat.wildcard = parser.wildcard := by
  obtain ⟨_, hpre, hparse⟩ := bind_eq_ok hparse
  obtain ⟨_, hpost, hparse⟩ := bind_eq_ok hparse
  obtain ⟨_, hdev, hparse⟩ := bind_eq_ok hparse
  obtain ⟨_, hlocal, hparse⟩ := bind_eq_ok hparse
  rw [← wildcard_parsePre hpre, ← wildcard_parsePost hpost,
    ← wildcard_parseDev hdev, ← wildcard_parseLocal hlocal]
  unfold parseEnd bumpWhile at hparse
  simp only at hparse
  split at hparse
  · cases hparse
    rfl
  · cases hparse

/-- A version that ends in a star is a bare release. -/
theorem makeFull_of_wildcard {v : List Byte} {vpat : VersionPattern}
    (hparse : (Parser.new v).parsePattern = .ok vpat)
    (hwildcard : vpat.wildcard = true) :
    ∃ epoch release, release ≠ [] ∧ vpat.version.makeFull =
      { epoch, release, pre := none, post := none, dev := none,
        localVersion := .empty, min := none, max := none } := by
  unfold parsePattern at hparse
  split at hparse
  · rename_i hfast
    unfold parseFast at hfast
    split at hfast
    · cases hfast
    · cases hfast
      cases hparse
      cases hwildcard
  unfold parseSlow bumpWhile at hparse
  simp only at hparse
  obtain ⟨first, hfirst, hparse⟩ := bind_eq_ok hparse
  obtain ⟨whole, hrest, hparse⟩ := bind_eq_ok hparse
  obtain ⟨⟨wildcard, parser⟩, hstar, hparse⟩ := bind_eq_ok hparse
  have hnew : Bare (Parser.new v) := ⟨rfl, rfl, rfl, rfl, rfl⟩
  have hfirst : Bare first ∧ first.release ≠ [] := by
    refine Bare.parseEpochAndInitialRelease ?_ hfirst
    cases hbump : ((Parser.new v).advance _).bumpIf (ascii "v") with
    | none => exact hnew.advance _
    | some parser => exact (hnew.advance _).bumpIf hbump
  obtain ⟨hbare, hrelease⟩ :=
    Bare.parseRestOfReleaseLoop hfirst.1 hfirst.2 hrest
  unfold parseWildcard at hstar
  split at hstar
  · cases hstar
    have hsame := wildcard_parseSuffixes hparse
    rw [hbare.wildcard, hwildcard] at hsame
    cases hsame
  rename_i hbump
  rw [bumpIf_eq_some hbump] at hstar
  split at hstar
  · cases hstar
    cases hparse
    refine ⟨whole.epoch, whole.release, hrelease, ?_⟩
    rw [makeFull_intoPattern]
    simp [Parser.advance, hbare.pre, hbare.post, hbare.dev, hbare.localSegments,
      LocalVersion.empty]
  · cases hstar

end Parser

/-! ## The first version of a release -/

/-- `dev0` is the least suffix. -/
theorem SuffixRank.dev_zero_le {rank : SuffixRank} (hsegment : 0 < rank.segment)
    (localKey : LocalKey) :
    (suffixRank none none (some 0)).key emptyKey ≤ rank.key localKey :=
  Prod.Lex.toLex_mono ⟨hsegment, Prod.Lex.toLex_mono ⟨Nat.zero_le _,
    Prod.Lex.toLex_mono ⟨bot_le, Prod.Lex.toLex_mono
      ⟨Nat.zero_le _, emptyKey_le localKey⟩⟩⟩⟩

/-- The components of `dev0` of a release. -/
def firstOf (epoch : ℕ) (release : List ℕ) : VersionFull where
  epoch := epoch
  release := release
  pre := none
  post := none
  dev := some 0
  localVersion := .empty
  min := none
  max := none

/-- Everything below the first version of a release has a lower release. -/
theorem key_lt_firstOf {bound version : Version} {epoch : ℕ} {release : List ℕ}
    (hbound : bound.makeFull = firstOf epoch release)
    (hversion : Version.NoBounds version) :
    version.key < bound.key ↔
      version.prefixKey < toLex (epoch, trimZeros release) := by
  have hbounds : Version.NoBounds bound := by
    refine ⟨?_, ?_⟩
    · rw [Version.min_eq, hbound, firstOf]
    · rw [Version.max_eq, hbound, firstOf]
  have hpadded : bound.prefixKey = toLex (epoch, trimZeros release) := by
    rw [Version.prefixKey, Version.epoch_eq, Version.release_eq, hbound, firstOf]
  have hrank : bound.rank = suffixRank none none (some 0) := by
    rw [Version.rank, Version.pre_eq, Version.post_eq, Version.dev_eq, hbound,
      firstOf]
  have hlocal : bound.localVersion.key = emptyKey := by
    rw [Version.localVersion_eq, hbound, firstOf, emptyKey]
  rw [Version.key_lt_key, Version.sortableTuple_key hversion,
    Version.sortableTuple_key hbounds, hpadded, hrank, hlocal, or_iff_left]
  rintro ⟨-, hlt⟩
  exact hlt.not_ge (SuffixRank.dev_zero_le
    (VersionSpecifier.segment_pos version) _)

theorem Version.prefixKey_le_of_key_le {left right : Version}
    (hle : left.key ≤ right.key) : left.prefixKey ≤ right.prefixKey :=
  not_lt.mp fun hlt => hle.not_gt (Version.key_lt_key.mpr (.inl hlt))

theorem trimZeros_dropLast_le (numbers : List ℕ) :
    trimZeros numbers.dropLast ≤ trimZeros numbers := by
  rcases List.eq_nil_or_concat numbers with rfl | ⟨start, last, rfl⟩
  · exact le_rfl
  rw [List.concat_eq_append, List.dropLast_concat]
  by_cases hzero : last = 0
  · unfold trimZeros
    simp [hzero]
  · exact Truncates.trimZeros_lt ⟨[last], rfl, last, by simp, hzero⟩ |>.le

theorem bumpLast_concat (start : List ℕ) {last : ℕ} (hlast : last < u64Max) :
    bumpLast (start ++ [last]) = some (start ++ [last + 1]) := by
  have hsucc := u64Succ_of_lt hlast
  simp [bumpLast, hsucc]

/-- A release between a prefix and the next one, in the same epoch. -/
theorem prefixKey_between {version : Version} {epoch last : ℕ} {start : List ℕ} :
    toLex (epoch, trimZeros (start ++ [last])) ≤ version.prefixKey ∧
        version.prefixKey < toLex (epoch, trimZeros (start ++ [last + 1])) ↔
      version.epoch = epoch ∧ PaddedPrefix (start ++ [last]) version.release := by
  rw [paddedPrefix_iff, Version.prefixKey, Prod.Lex.toLex_le_toLex,
    Prod.Lex.toLex_lt_toLex]
  constructor
  · rintro ⟨hle | ⟨heq, hle⟩, hlt | ⟨heq', hlt⟩⟩
    · exact (hle.asymm hlt).elim
    · exact (hle.ne' heq').elim
    · exact (hlt.ne heq.symm).elim
    · exact ⟨heq', hle, hlt⟩
  · rintro ⟨heq, hle, hlt⟩
    exact ⟨.inr ⟨heq.symm, hle⟩, .inr ⟨heq, hlt⟩⟩

/-! ## Where the two differ -/

namespace VersionSpecifier

variable {specifier : VersionSpecifier} {version : ValidVersion}

/-- The release segment the upper end of the range increments. -/
def incremented (specifier : VersionSpecifier) : Option ℕ :=
  match specifier.operator with
  | .tildeEqual => specifier.version.val.release.dropLast.getLast?
  | _ => specifier.version.val.release.getLast?

/-- The candidate stops inside the prefix, before a segment that is not zero. -/
def StopsShort (specifier : VersionSpecifier) (version : Version) : Prop :=
  specifier.operator.isStar = true ∧
    version.epoch = specifier.version.val.epoch ∧
    Truncates version.release specifier.version.val.release

section Star

variable {epoch last : ℕ} {start : List ℕ}
  (hthis : specifier.version.val.makeFull =
    { epoch, release := start ++ [last], pre := none, post := none, dev := none,
      localVersion := .empty, min := none, max := none })

include hthis

theorem equalStarRange_contains [RangeOps ValidVersion] (hlast : last < u64Max)
    (hversion : Version.NoBounds version.val) :
    ∃ range, equalStarRange specifier.version = some range ∧ range.Valid ∧
      (range.contains version = true ↔ version.val.epoch = epoch ∧
        PaddedPrefix (start ++ [last]) version.val.release) := by
  have hlow : (specifier.version.withDev (some 0)).val.makeFull =
      firstOf epoch (start ++ [last]) := by
    simp [ValidVersion.withDev, hthis, firstOf]
  have hhigh : ((specifier.version.withDev (some 0)).withRelease
      (start ++ [last + 1])).val.makeFull = firstOf epoch (start ++ [last + 1]) := by
    rw [ValidVersion.withRelease, Version.makeFull_withRelease, hlow, firstOf,
      firstOf]
  have hupper : starUpper (specifier.version.withDev (some 0)) =
      some ((specifier.version.withDev (some 0)).withRelease
        (start ++ [last + 1])) := by
    unfold starUpper
    rw [Version.post_eq, Version.pre_eq, Version.release_eq, hlow, firstOf]
    simp [bumpLast_concat start hlast]
  refine ⟨.fromRangeBounds (.included (specifier.version.withDev (some 0)))
    (.excluded ((specifier.version.withDev (some 0)).withRelease
      (start ++ [last + 1]))), ?_, Ranges.valid_fromRangeBounds _ _, ?_⟩
  · simp [equalStarRange, hupper]
  rw [Ranges.contains_fromRangeBounds, ← prefixKey_between, ← not_lt, ← not_lt]
  exact and_congr (not_congr (key_lt_firstOf hlow hversion))
    (key_lt_firstOf hhigh hversion)

theorem contains_equalStar (hoperator : specifier.operator = .equalStar) :
    specifier.contains version = true ↔ version.val.epoch = epoch ∧
      (PaddedPrefix (start ++ [last]) version.val.release ∨
        Truncates version.val.release (start ++ [last])) := by
  have hcandidate := @candidate version
    specifier.version.val.localVersion.isEmpty
    (by rw [Version.localVersion_eq, hthis]; rfl)
  unfold contains
  simp only [hoperator]
  rw [hcandidate.epoch_eq, hcandidate.release_eq, releaseMatches,
    Bool.and_eq_true, beq_iff_eq, zip_all_iff,
    Version.epoch_eq specifier.version.val,
    Version.release_eq specifier.version.val, hthis, eq_comm]

theorem contains_notEqualStar (hoperator : specifier.operator = .notEqualStar) :
    specifier.contains version = true ↔ ¬ (version.val.epoch = epoch ∧
      (PaddedPrefix (start ++ [last]) version.val.release ∨
        Truncates version.val.release (start ++ [last]))) := by
  have hcandidate := @candidate version
    specifier.version.val.localVersion.isEmpty
    (by rw [Version.localVersion_eq, hthis]; rfl)
  unfold contains
  simp only [hoperator]
  rw [hcandidate.epoch_eq, releaseMatches, bne, ← Bool.not_and, Bool.not_eq_true',
    ← Bool.not_eq_true, Bool.and_eq_true, beq_iff_eq, zip_all_iff,
    Version.epoch_eq specifier.version.val,
    Version.release_eq specifier.version.val, hthis, eq_comm]

theorem star_agrees_iff [RangeOps ValidVersion] (hlast : last < u64Max)
    (hversion : Version.NoBounds version.val)
    (hstar : specifier.operator.isStar = true) :
    specifier.toRange.map (·.contains version) =
        some (specifier.contains version) ↔ ¬ StopsShort specifier version.val := by
  obtain ⟨range, hrange, hvalid, hcontains⟩ :=
    equalStarRange_contains hthis hlast hversion
  have hshort : StopsShort specifier version.val ↔
      version.val.epoch = epoch ∧
        Truncates version.val.release (start ++ [last]) := by
    rw [StopsShort, Version.epoch_eq specifier.version.val,
      Version.release_eq specifier.version.val, hthis]
    simp [hstar]
  have hdisjoint : PaddedPrefix (start ++ [last]) version.val.release →
      ¬ Truncates version.val.release (start ++ [last]) := by
    intro hpadded htruncates
    exact htruncates.trimZeros_lt.not_ge ((paddedPrefix_iff _ _ _).mp hpadded).1
  have hagree : (version.val.epoch = epoch ∧
        PaddedPrefix (start ++ [last]) version.val.release ↔
      version.val.epoch = epoch ∧
        (PaddedPrefix (start ++ [last]) version.val.release ∨
          Truncates version.val.release (start ++ [last]))) ↔
        ¬ StopsShort specifier version.val := by
    rw [hshort]
    constructor
    · rintro hsame ⟨hepoch, htruncates⟩
      exact hdisjoint (hsame.mpr ⟨hepoch, .inr htruncates⟩).2 htruncates
    · intro hnone
      refine and_congr_right fun hepoch => ⟨.inl, ?_⟩
      rintro (hpadded | htruncates)
      · exact hpadded
      · exact (hnone ⟨hepoch, htruncates⟩).elim
  cases hoperator : specifier.operator with
  | equalStar =>
      have hsome : specifier.toRange = some range := by
        simp only [toRange, hoperator, hrange]
      rw [hsome, Option.map_some, Option.some_inj, Bool.eq_iff_iff, hcontains,
        contains_equalStar hthis hoperator, hagree]
  | notEqualStar =>
      have hsome : specifier.toRange = some (RangeOps.complement range) := by
        simp only [toRange, hoperator, hrange, Option.map_some]
      have hcomplement : (RangeOps.complement range).contains version = true ↔
          ¬ range.contains version = true := by
        simp only [Ranges.contains_iff]
        exact RangeOps.mem_complement hvalid _
      rw [hsome, Option.map_some, Option.some_inj, Bool.eq_iff_iff, hcomplement,
        hcontains, contains_notEqualStar hthis hoperator, not_iff_not, hagree]
  | _ =>
      rw [hoperator] at hstar
      cases hstar

end Star

section Tilde

variable [RangeOps ValidVersion]
  (hlocal : specifier.version.val.localVersion.isEmpty = true)
  (hthis : Version.NoBounds specifier.version.val)
  (hversion : Version.NoBounds version.val)

include hlocal hthis hversion

omit [RangeOps ValidVersion] in
theorem contains_tildeEqual (hoperator : specifier.operator = .tildeEqual) :
    specifier.contains version = true ↔
      version.val.epoch = specifier.version.val.epoch ∧
      (PaddedPrefix specifier.version.val.release.dropLast version.val.release ∨
        Truncates version.val.release specifier.version.val.release.dropLast) ∧
      specifier.version.val.key ≤ version.val.key := by
  obtain ⟨other, hcandidate, hother⟩ := @exists_candidate specifier version hlocal
  unfold contains
  simp only [hoperator, hother]
  obtain ⟨hlt, -⟩ := candidate_plainKey hcandidate hlocal hthis hversion
  rw [hcandidate.epoch_eq, hcandidate.release_eq, ← zip_all_iff]
  have hge : other.val.ge specifier.version.val = true ↔
      specifier.version.val.key ≤ version.val.key := by
    rw [Version.ge_iff other.valid specifier.version.valid, ← not_lt, hlt,
      ← key_lt_iff_plainKey hlocal hthis hversion, not_lt]
  unfold releaseMatches
  split
  · rename_i hepoch
    simp [Ne.symm hepoch]
  · rename_i hepoch
    rw [not_not] at hepoch
    split
    · rename_i hmatches
      rw [Bool.not_eq_true'] at hmatches
      simp [hmatches]
    · rename_i hmatches
      rw [Bool.not_eq_true', Bool.not_eq_false] at hmatches
      rw [hge, hmatches]
      exact ⟨fun hle => ⟨hepoch.symm, rfl, hle⟩, fun hall => hall.2.2⟩

/-- `~=V` agrees on every version: a candidate that stops inside the prefix is
below `V`. -/
theorem tildeEqual_agrees (hoperator : specifier.operator = .tildeEqual)
    (hsmall : ∀ segment, specifier.incremented = some segment →
      segment < u64Max) :
    specifier.toRange.map (·.contains version) =
      some (specifier.contains version) := by
  have hne : specifier.version.val.release.dropLast ≠ [] := by
    have hlength := specifier.tildeEqual_release hoperator
    intro hnil
    have hlength' := congrArg List.length hnil
    rw [List.length_dropLast, List.length_nil] at hlength'
    omega
  obtain ⟨start, last, hdrop⟩ :
      ∃ start last, specifier.version.val.release.dropLast = start ++ [last] :=
    ⟨_, _, (List.dropLast_append_getLast hne).symm⟩
  have hlast : last < u64Max := by
    apply hsmall
    simp [incremented, hoperator, hdrop]
  have hupper : tildeUpper specifier.version =
      some (.new (start ++ [last + 1])) := by
    rw [tildeUpper, hdrop, bumpLast_concat start hlast, Option.map_some]
  have hfull : (((ValidVersion.new (start ++ [last + 1])).withEpoch
      specifier.version.val.epoch).withDev (some 0)).val.makeFull =
        firstOf specifier.version.val.epoch (start ++ [last + 1]) := by
    simp [ValidVersion.withDev, ValidVersion.withEpoch, ValidVersion.new,
      Version.releaseOnly, firstOf]
  have hsome : specifier.toRange = some (.fromRangeBounds
      (.included specifier.version)
      (.excluded (((ValidVersion.new (start ++ [last + 1])).withEpoch
        specifier.version.val.epoch).withDev (some 0)))) := by
    simp only [toRange, hoperator, hupper, Option.map_some]
  rw [hsome, Option.map_some, Option.some_inj, Bool.eq_iff_iff,
    Ranges.contains_fromRangeBounds, contains_tildeEqual hlocal hthis hversion
      hoperator, hdrop, ← and_assoc, and_comm]
  refine and_congr_left fun hle => (key_lt_firstOf hfull hversion).trans ?_
  -- What starts below the prefix is below `V`.
  have hpadded : toLex (specifier.version.val.epoch, trimZeros (start ++ [last])) ≤
      version.val.prefixKey := by
    refine le_trans ?_ (Version.prefixKey_le_of_key_le hle)
    rw [Version.prefixKey, Prod.Lex.toLex_le_toLex]
    refine .inr ⟨rfl, ?_⟩
    rw [← hdrop]
    exact trimZeros_dropLast_le _
  rw [← and_iff_right hpadded (b := _ < _), prefixKey_between]
  refine and_congr_right fun hepoch => (or_iff_left fun htruncates => ?_).symm
  rw [Version.prefixKey, hepoch, Prod.Lex.toLex_le_toLex] at hpadded
  rcases hpadded with hlt | ⟨-, hle⟩
  · exact hlt.false
  · exact htruncates.trimZeros_lt.not_ge hle

end Tilde

/-- For every prefix specifier and every version, both parsed, the range and the
specifier agree exactly when the candidate does not stop short. -/
theorem prefix_toRange_contains_iff [RangeOps ValidVersion] {spec : List Char}
    {specifier : VersionSpecifier} {s : List Byte} {version : Version}
    (hspec : fromStr spec = .ok specifier)
    (hparse : Version.fromStr s = .ok version)
    (hoperator : specifier.operator = .equalStar ∨
      specifier.operator = .notEqualStar ∨ specifier.operator = .tildeEqual)
    (hsmall : ∀ segment, specifier.incremented = some segment →
      segment < u64Max) :
    specifier.toRange.map (·.contains (.ofFromStr hparse)) =
        some (specifier.contains (.ofFromStr hparse)) ↔
      ¬ (specifier.operator.isStar = true ∧
        version.epoch = specifier.version.val.epoch ∧
        Truncates version.release specifier.version.val.release) := by
  have hversion : Version.NoBounds (ValidVersion.ofFromStr hparse).val :=
    Version.noBounds_of_fromStr hparse
  cases hstar : specifier.operator.isStar with
  | true =>
      obtain ⟨source, vpat, hpattern, hwildcard, hsame⟩ :=
        exists_wildcard_of_fromStr hspec hstar
      obtain ⟨epoch, release, hne, hfull⟩ :=
        Parser.makeFull_of_wildcard hpattern hwildcard
      rw [← hsame, ← List.dropLast_append_getLast hne] at hfull
      have hlast : release.getLast hne < u64Max := by
        apply hsmall
        unfold incremented
        rw [Version.release_eq, hfull]
        cases hcase : specifier.operator with
        | tildeEqual =>
            rw [hcase] at hstar
            cases hstar
        | _ => simp
      rw [star_agrees_iff hfull hlast hversion hstar, StopsShort, hstar]
      rfl
  | false =>
      have htilde : specifier.operator = .tildeEqual := by
        rcases hoperator with hoperator | hoperator | hoperator
        · rw [hoperator] at hstar
          cases hstar
        · rw [hoperator] at hstar
          cases hstar
        · exact hoperator
      obtain ⟨⟨source, hsource⟩, hlocal⟩ := exists_of_fromStr hspec hstar
      have hagrees := tildeEqual_agrees (hlocal (by rw [htilde]; rfl))
        (Version.noBounds_of_fromStr hsource) hversion htilde hsmall
      simpa using hagrees

private theorem fromStr_equalStar :
    fromStr "==1.2.*".toList =
      .ok (equalsStarVersion (ValidVersion.new [1, 2])) := by
  decide +kernel

private theorem version_fromStr_one :
    Version.fromStr (ascii "1") = .ok (ValidVersion.new [1]).val := by
  decide +kernel

private theorem version_fromStr_minor :
    Version.fromStr (ascii "1.2.3") = .ok (ValidVersion.new [1, 2, 3]).val := by
  decide +kernel

/-- `==1.2.*` contains `1`, the range does not. -/
theorem toRange_equalStar_excludes_short :
    ∃ specifier version, fromStr "==1.2.*".toList = .ok specifier ∧
      ∃ hparse : Version.fromStr (ascii "1") = .ok version,
        specifier.contains (.ofFromStr hparse) = true ∧
        specifier.toRange.map (·.contains (.ofFromStr hparse)) = some false :=
  ⟨_, _, fromStr_equalStar, version_fromStr_one, by decide +kernel,
    by decide +kernel⟩

/-- `==1.2.*` and `1.2.3`: the candidate is long enough, and both match. -/
theorem prefix_toRange_contains_iff_long :
    ∃ specifier version, fromStr "==1.2.*".toList = .ok specifier ∧
      ∃ hparse : Version.fromStr (ascii "1.2.3") = .ok version,
        specifier.toRange.map (·.contains (.ofFromStr hparse)) =
          some (specifier.contains (.ofFromStr hparse)) := by
  refine ⟨_, _, fromStr_equalStar, version_fromStr_minor, ?_⟩
  refine (prefix_toRange_contains_iff fromStr_equalStar version_fromStr_minor
    (.inl rfl) ?_).mpr ?_
  · intro segment hsegment
    have htwo : some 2 = some segment := by
      rw [← hsegment]
      decide +kernel
    cases htwo
    decide
  · rintro ⟨-, -, rest, hrest, -⟩
    have hlength : 2 = 3 + rest.length := by
      have hsame := congrArg List.length hrest
      rw [List.length_append] at hsame
      exact hsame
    omega

end VersionSpecifier

end Uv.Pep440
