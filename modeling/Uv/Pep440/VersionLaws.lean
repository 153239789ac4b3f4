import Uv.Pep440.ParserSpec
import Uv.Core.Failing

/-!
# Order and hash laws of versions

Versions come from the parser or from the public builders.  All of them are
valid, so comparing packed words and comparing components is the same total
preorder on any mix of the two forms.  Hashing reads the raw components and
agrees with equality everywhere but at one boundary value.
-/

namespace Uv.Pep440

open Uv.Core Uv.Core.Order

/-! ## Versions that can be built -/

namespace Parser

theorem valid_intoPattern (parser : Parser) :
    parser.intoPattern.version.Valid := by
  have hnew := Version.valid_new parser.release
  have hpre := Version.valid_withPre (Version.valid_withEpoch hnew parser.epoch)
    parser.pre
  have hdev := Version.valid_withDev (Version.valid_withPost hpre parser.post)
    parser.dev
  exact Version.valid_withLocal hdev (.segments parser.localSegments)

/-- Every successful path of the general parser ends in `into_pattern`. -/
theorem exists_of_parseEnd {parser : Parser} {vpat : VersionPattern}
    (hparse : parser.parseEnd = .ok vpat) :
    ∃ parser' : Parser, vpat = parser'.intoPattern := by
  unfold parseEnd at hparse
  simp only at hparse
  split at hparse
  · exact ⟨_, (Except.ok.inj hparse).symm⟩
  · simp at hparse

theorem exists_of_parseSlow {parser : Parser} {vpat : VersionPattern}
    (hparse : parser.parseSlow = .ok vpat) :
    ∃ parser' : Parser, vpat = parser'.intoPattern := by
  unfold parseSlow at hparse
  obtain ⟨_, -, hparse⟩ := bind_eq_ok hparse
  obtain ⟨_, -, hparse⟩ := bind_eq_ok hparse
  obtain ⟨⟨wildcard, parser'⟩, -, hparse⟩ := bind_eq_ok hparse
  simp only at hparse
  split at hparse
  · exact ⟨parser', (Except.ok.inj hparse).symm⟩
  · unfold parseSuffixes at hparse
    obtain ⟨_, -, hparse⟩ := bind_eq_ok hparse
    obtain ⟨_, -, hparse⟩ := bind_eq_ok hparse
    obtain ⟨_, -, hparse⟩ := bind_eq_ok hparse
    obtain ⟨_, -, hparse⟩ := bind_eq_ok hparse
    exact exists_of_parseEnd hparse

theorem valid_of_parsePattern {v : List Byte} {vpat : VersionPattern}
    (hparse : (Parser.new v).parsePattern = .ok vpat) : vpat.version.Valid := by
  unfold parsePattern at hparse
  cases hfast : (Parser.new v).parseFast with
  | none =>
      rw [hfast] at hparse
      obtain ⟨parser', rfl⟩ := exists_of_parseSlow hparse
      exact valid_intoPattern parser'
  | some fast =>
      rw [hfast] at hparse
      obtain rfl := Except.ok.inj hparse
      unfold parseFast at hfast
      cases hloop : parseFastLoop (Parser.new v).v false 0 [] with
      | none => simp [hloop] at hfast
      | some numbers =>
          simp only [hloop, Option.some.injEq] at hfast
          obtain ⟨hlength, texts, hdotted, hnumbers⟩ :=
            parseFastLoop_spec _ [] (by simp) (by simp [decimal]) hloop
          rw [List.nil_append] at hnumbers
          obtain ⟨-, -, hbound⟩ := hdotted.splitOnP
          have hne : numbers ≠ [] := by
            rw [hnumbers]
            cases hdotted <;> simp
          rw [← hfast, small_eq_new hne hlength (by rw [hnumbers]; exact hbound)]
          exact Version.valid_new numbers

end Parser

namespace Version

theorem valid_of_fromStr {s : List Byte} {version : Version}
    (hparse : fromStr s = .ok version) : version.Valid := by
  unfold fromStr Parser.parse at hparse
  cases hpattern : (Parser.new s).parsePattern with
  | error err => cases err <;> simp [hpattern] at hparse
  | ok vpat =>
      rw [hpattern] at hparse
      simp only at hparse
      split at hparse
      · simp at hparse
      · rw [← Except.ok.inj hparse]
        exact Parser.valid_of_parsePattern hpattern

/-- Versions from the parser and the public builders; the internal `min` and
`max` components are only ever `None` or `Some(0)`. -/
inductive Built : Version → Prop where
  | fromStr {s : List Byte} {version : Version}
      (hparse : Version.fromStr s = .ok version) : Built version
  | new (releaseNumbers : List ℕ) : Built (new releaseNumbers)
  | withRelease {version : Version} (hbuilt : Built version)
      (releaseNumbers : List ℕ) : Built (version.withRelease releaseNumbers)
  | withEpoch {version : Version} (hbuilt : Built version) (value : ℕ) :
      Built (version.withEpoch value)
  | withPre {version : Version} (hbuilt : Built version)
      (value : Option Prerelease) : Built (version.withPre value)
  | withPost {version : Version} (hbuilt : Built version) (value : Option ℕ) :
      Built (version.withPost value)
  | withDev {version : Version} (hbuilt : Built version) (value : Option ℕ) :
      Built (version.withDev value)
  | withLocalSegments {version : Version} (hbuilt : Built version)
      (value : List LocalSegment) : Built (version.withLocalSegments value)
  | withLocal {version : Version} (hbuilt : Built version)
      (value : LocalVersion) : Built (version.withLocal value)
  | withoutLocal {version : Version} (hbuilt : Built version) :
      Built version.withoutLocal
  | withMin {version : Version} (hbuilt : Built version) {value : Option ℕ}
      (hvalue : value = none ∨ value = some 0) : Built (version.withMin value)
  | withMax {version : Version} (hbuilt : Built version) {value : Option ℕ}
      (hvalue : value = none ∨ value = some 0) : Built (version.withMax value)
  | onlyRelease {version : Version} (hbuilt : Built version) :
      Built version.onlyRelease
  | onlyMinorRelease {version : Version} (hbuilt : Built version) :
      Built version.onlyMinorRelease
  | onlyReleaseTrimmed {version : Version} (hbuilt : Built version) :
      Built version.onlyReleaseTrimmed
  | withoutTrailingZeros {version : Version} (hbuilt : Built version) :
      Built version.withoutTrailingZeros
  | bump {version : Version} (hbuilt : Built version) (command : BumpCommand) :
      Built (version.bump command)

theorem Built.valid {version : Version} (hbuilt : Built version) :
    version.Valid := by
  induction hbuilt with
  | fromStr hparse => exact valid_of_fromStr hparse
  | new numbers => exact valid_new numbers
  | withRelease _ numbers ih => exact valid_withRelease ih numbers
  | withEpoch _ value ih => exact valid_withEpoch ih value
  | withPre _ value ih => exact valid_withPre ih value
  | withPost _ value ih => exact valid_withPost ih value
  | withDev _ value ih => exact valid_withDev ih value
  | withLocalSegments _ value ih => exact valid_withLocal ih (.segments value)
  | withLocal _ value ih => exact valid_withLocal ih value
  | withoutLocal _ ih => exact valid_withoutLocal ih
  | withMin _ hvalue ih => exact valid_withMin ih hvalue
  | withMax _ hvalue ih => exact valid_withMax ih hvalue
  | onlyRelease => exact valid_new _
  | onlyMinorRelease => exact valid_new _
  | onlyReleaseTrimmed => exact valid_onlyReleaseTrimmed _
  | withoutTrailingZeros _ ih => exact valid_withRelease ih _
  | bump => trivial

/-! ## The order does not depend on the form -/

theorem linearCmp_swap {α : Type*} [LinearOrder α] (left right : α) :
    linearCmp left right = (linearCmp right left).swap := by
  rcases lt_trichotomy left right with hlt | rfl | hgt
  · rw [linearCmp_eq_lt.mpr hlt, linearCmp_eq_gt.mpr hlt]
    rfl
  · rw [linearCmp_self]
    rfl
  · rw [linearCmp_eq_gt.mpr hgt, linearCmp_eq_lt.mpr hgt]
    rfl

/-- On built versions `cmp` is `cmp_slow`, whichever forms the two versions
have, and it is a total preorder. -/
theorem cmp_eq_cmpSlow_of_built {a b c : Version} (ha : Built a) (hb : Built b)
    (hc : Built c) :
    a.cmp b = a.cmpSlow b ∧ a.cmp a = .eq ∧ a.cmp b = (b.cmp a).swap ∧
      ((a.cmp b).isLE = true ∨ (b.cmp a).isLE = true) ∧
      ((a.cmp b).isLE = true → (b.cmp c).isLE = true →
        (a.cmp c).isLE = true) := by
  have hle : ∀ {x y : Version}, Built x → Built y →
      ((x.cmp y).isLE = true ↔ x.key ≤ y.key) := fun hx hy =>
    le_iff hx.valid hy.valid
  refine ⟨?_, ?_, ?_, ?_, ?_⟩
  · rw [cmp_eq ha.valid hb.valid, cmpSlow_eq]
  · rw [cmp_eq ha.valid ha.valid, linearCmp_self]
  · rw [cmp_eq ha.valid hb.valid, cmp_eq hb.valid ha.valid, linearCmp_swap]
  · rw [hle ha hb, hle hb ha]
    exact le_total a.key b.key
  · rw [hle ha hb, hle hb hc, hle ha hc]
    exact le_trans

/-- A packed version, its full form and the internal maximum of its release. -/
theorem cmp_eq_cmpSlow_of_built_one :
    (new [1]).cmp ((new [1]).withMax (some 0)) =
      (new [1]).cmpSlow ((new [1]).withMax (some 0)) :=
  (cmp_eq_cmpSlow_of_built (.new [1]) (.withMax (.new [1]) (.inr rfl))
    (.bump (.new [1]) .makeStable)).1

end Version

/-! ## Hashing -/

/-- One write to the hasher. -/
inductive HashToken where
  | u64 (value : ℕ)
  | discriminant (value : ℕ)
  | length (value : ℕ)
  | str (text : List Byte)
  deriving DecidableEq

/-- The derived `Hash` of an `Option`. -/
def hashOption {α : Type} (hash : α → List HashToken) :
    Option α → List HashToken
  | none => [.discriminant 0]
  | some value => .discriminant 1 :: hash value

def PrereleaseKind.discriminant : PrereleaseKind → ℕ
  | .alpha => 0
  | .beta => 1
  | .rc => 2

def Prerelease.hash (pre : Prerelease) : List HashToken :=
  [.discriminant pre.kind.discriminant, .u64 pre.number]

def LocalSegment.hash : LocalSegment → List HashToken
  | .string text => [.discriminant 0, .str text]
  | .number value => [.discriminant 1, .u64 value]

/-- The derived `Hash` of a `LocalVersionSlice`. -/
def LocalVersion.hash : LocalVersion → List HashToken
  | .segments parts =>
      .discriminant 0 :: .length parts.length :: parts.flatMap LocalSegment.hash
  | .max => [.discriminant 1]

namespace Version

/-- `Hash for Version`: trailing zeros of the release are skipped. -/
def hash (version : Version) : List HashToken :=
  [.u64 version.epoch] ++
    (version.release.reverse.dropWhile (· == 0)).map .u64 ++
    hashOption Prerelease.hash version.pre ++
    hashOption (fun n => [.u64 n]) version.dev ++
    hashOption (fun n => [.u64 n]) version.post ++
    version.localVersion.hash

/-- What the parser never sets. -/
structure NoBounds (version : Version) : Prop where
  min_eq : version.min = none
  max_eq : version.max = none

/-- A parsed version holds the components of a match. -/
theorem exists_components_of_fromStr {s : List Byte} {version : Version}
    (hparse : fromStr s = .ok version) :
    ∃ groups : Groups, groups.components = some version.makeFull := by
  have hfull := makeFull_fromStr s
  rw [hparse] at hfull
  cases hmatch : Grammar.version.firstMatch Grammar.start (Grammar.strip s) with
  | none =>
      rw [hmatch] at hfull
      cases hfull
  | some groups =>
      rw [hmatch] at hfull
      exact ⟨groups, hfull.symm⟩

/-- The parser sets no sentinel. -/
theorem noSentinel_of_fromStr {s : List Byte} {version : Version}
    (hparse : fromStr s = .ok version) : NoBounds version ∧ version.localVersion ≠ .max := by
  obtain ⟨groups, hcomponents⟩ := exists_components_of_fromStr hparse
  unfold Groups.components at hcomponents
  simp only [Option.bind_eq_bind, Option.bind_eq_some_iff, Option.pure_def,
    Option.some.injEq] at hcomponents
  obtain ⟨_, -, _, -, _, -, _, -, _, -, hparts⟩ := hcomponents
  refine ⟨⟨?_, ?_⟩, ?_⟩
  · rw [Version.min_eq, ← hparts]
  · rw [Version.max_eq, ← hparts]
  · rw [Version.localVersion_eq, ← hparts]
    simp

theorem noBounds_of_fromStr {s : List Byte} {version : Version}
    (hparse : fromStr s = .ok version) : NoBounds version :=
  (noSentinel_of_fromStr hparse).1

/-- The sentinels of the order: where a pre- or post-release is present, a
missing dev-release counts as number `u64::MAX`. -/
def devKey (version : Version) : Option ℕ :=
  if version.pre.isSome ∨ version.post.isSome then
    some (version.dev.getD u64Max)
  else version.dev

theorem LocalVersion.key_injective : Function.Injective LocalVersion.key := by
  have hsegment : Function.Injective LocalSegment.key := by
    intro left right heq
    cases left <;> cases right <;> simp_all [LocalSegment.key]
  intro left right heq
  cases left with
  | max => cases right <;> simp_all [LocalVersion.key]
  | segments parts =>
      cases right with
      | max => simp [LocalVersion.key] at heq
      | segments parts' =>
          simp only [LocalVersion.key, WithTop.coe_inj] at heq
          rw [List.map_injective_iff.mpr hsegment heq]

theorem optionKey_injective : Function.Injective optionKey := by
  intro left right heq
  cases left <;> cases right <;> simp_all [optionKey]

theorem SortableTuple.key_inj {left right : SortableTuple} :
    left.key = right.key ↔ left = right := by
  constructor
  · intro heq
    unfold SortableTuple.key at heq
    simp only [toLex_inj, Prod.mk.injEq] at heq
    obtain ⟨hsegment, hnumber, hpost, hdev, hlocal⟩ := heq
    have hpost' := optionKey_injective hpost
    have hlocal' := LocalVersion.key_injective hlocal
    cases left
    cases right
    simp_all
  · rintro rfl
    rfl

theorem PrereleaseKind.segment_inj {left right : PrereleaseKind} :
    left.segment = right.segment ↔ left = right := by
  cases left <;> cases right <;> decide

/-- Equality of versions without internal bounds, component by component. -/
theorem key_eq_iff {a b : Version} (ha : NoBounds a) (hb : NoBounds b) :
    a.key = b.key ↔ a.epoch = b.epoch ∧
      trimZeros a.release = trimZeros b.release ∧ a.pre = b.pre ∧
      a.post = b.post ∧ a.devKey = b.devKey ∧
      a.localVersion = b.localVersion := by
  obtain ⟨haMin, haMax⟩ := ha
  obtain ⟨hbMin, hbMax⟩ := hb
  rw [min_eq] at haMin hbMin
  rw [max_eq] at haMax hbMax
  unfold devKey
  simp only [epoch_eq, release_eq, pre_eq, post_eq, dev_eq, localVersion_eq]
  unfold key VersionFull.key
  simp only [toLex_inj, Prod.mk.injEq, SortableTuple.key_inj]
  refine and_congr_right fun _ => and_congr_right fun _ => ?_
  unfold VersionFull.sortableTuple
  simp only [haMin, haMax, hbMin, hbMax]
  have hsegment : ∀ kind : PrereleaseKind, kind.segment ≠ 1 ∧
      kind.segment ≠ 5 ∧ kind.segment ≠ 6 ∧ 1 ≠ kind.segment ∧
      5 ≠ kind.segment ∧ 6 ≠ kind.segment := by
    intro kind
    cases kind <;> decide
  rcases a.makeFull.pre with _ | ⟨kind, number⟩ <;>
    rcases b.makeFull.pre with _ | ⟨kind', number'⟩ <;>
    cases a.makeFull.post <;> cases b.makeFull.post <;>
    cases a.makeFull.dev <;> cases b.makeFull.dev <;>
    simp [hsegment, PrereleaseKind.segment_inj, and_assoc]

/-- Equal versions whose hashes may differ: a pre- or post-release is present
and one version has no dev-release where the other has number `u64::MAX`. -/
structure DevBoundary (a b : Version) : Prop where
  epoch_eq : a.epoch = b.epoch
  release_eq : trimZeros a.release = trimZeros b.release
  pre_eq : a.pre = b.pre
  post_eq : a.post = b.post
  local_eq : a.localVersion = b.localVersion
  suffix : a.pre.isSome ∨ a.post.isSome
  dev : (a.dev = none ∧ b.dev = some u64Max) ∨
    (a.dev = some u64Max ∧ b.dev = none)

theorem reverse_dropWhile_eq_trimZeros (release : List ℕ) :
    release.reverse.dropWhile (· == 0) = (trimZeros release).reverse := by
  unfold trimZeros List.rdropWhile
  rw [List.reverse_reverse]

/-- The parts of the hash around the dev-release. -/
theorem hash_eq_of_dev {a b : Version} (hepoch : a.epoch = b.epoch)
    (hrelease : trimZeros a.release = trimZeros b.release) (hpre : a.pre = b.pre)
    (hpost : a.post = b.post) (hlocal : a.localVersion = b.localVersion) :
    a.hash = b.hash ↔ a.dev = b.dev := by
  unfold hash
  rw [reverse_dropWhile_eq_trimZeros, reverse_dropWhile_eq_trimZeros, hepoch,
    hrelease, hpre, hpost, hlocal]
  simp only [List.append_assoc, List.append_cancel_left_eq]
  cases a.dev <;> cases b.dev <;> simp [hashOption]

/-- Equality and hashing of parsed versions agree exactly away from the
dev-release boundary. -/
theorem hash_eq_iff_not_devBoundary {s t : List Byte} {a b : Version}
    (ha : fromStr s = .ok a) (hb : fromStr t = .ok b) :
    (a.beq b = true → a.hash = b.hash) ↔ ¬ DevBoundary a b := by
  have hkey := key_eq_iff (noBounds_of_fromStr ha) (noBounds_of_fromStr hb)
  rw [beq_iff (valid_of_fromStr ha) (valid_of_fromStr hb), hkey]
  constructor
  · rintro hhash hboundary
    have hdevKey : a.devKey = b.devKey := by
      unfold devKey
      rw [← hboundary.pre_eq, ← hboundary.post_eq, if_pos hboundary.suffix,
        if_pos hboundary.suffix]
      rcases hboundary.dev with ⟨hleft, hright⟩ | ⟨hleft, hright⟩ <;>
        simp [hleft, hright]
    have hsame := hhash ⟨hboundary.epoch_eq, hboundary.release_eq,
      hboundary.pre_eq, hboundary.post_eq, hdevKey, hboundary.local_eq⟩
    rw [hash_eq_of_dev hboundary.epoch_eq hboundary.release_eq hboundary.pre_eq
      hboundary.post_eq hboundary.local_eq] at hsame
    rcases hboundary.dev with ⟨hleft, hright⟩ | ⟨hleft, hright⟩ <;>
      simp [hleft, hright] at hsame
  · rintro hboundary ⟨hepoch, hrelease, hpre, hpost, hdev, hlocal⟩
    rw [hash_eq_of_dev hepoch hrelease hpre hpost hlocal]
    unfold devKey at hdev
    rw [← hpre, ← hpost] at hdev
    split at hdev
    · rename_i hsuffix
      by_contra hne
      apply hboundary
      refine ⟨hepoch, hrelease, hpre, hpost, hlocal, hsuffix, ?_⟩
      cases hleft : a.dev <;> cases hright : b.dev <;> simp_all
    · exact hdev

/-- `1.0a1` and `1.0a1.dev18446744073709551615` are equal and hash
differently. -/
theorem hash_ne_of_beq :
    ∃ a b, fromStr (ascii "1.0a1") = .ok a ∧
      fromStr (ascii "1.0a1.dev18446744073709551615") = .ok b ∧
      a.beq b = true ∧ a.hash ≠ b.hash :=
  ⟨_, _, rfl, rfl, by decide +kernel, by decide +kernel⟩

/-- `1.0` and `1.0.0` are away from the boundary. -/
theorem hash_eq_of_beq_one :
    ∃ a b, fromStr (ascii "1.0") = .ok a ∧ fromStr (ascii "1.0.0") = .ok b ∧
      a.beq b = true ∧ a.hash = b.hash := by
  have hone : fromStr (ascii "1.0") = .ok (new [1, 0]) := by decide +kernel
  have htwo : fromStr (ascii "1.0.0") = .ok (new [1, 0, 0]) := by decide +kernel
  have hbeq : (new [1, 0]).beq (new [1, 0, 0]) = true := by decide +kernel
  refine ⟨_, _, hone, htwo, hbeq, ?_⟩
  refine (hash_eq_iff_not_devBoundary hone htwo).mpr ?_ hbeq
  intro hboundary
  exact absurd hboundary.suffix (by decide +kernel)

end Version

end Uv.Pep440
