import Mathlib.Data.List.DropRight
import Uv.DistributionFilename.WheelDisplay

/-!
# Cache keys of wheels

The key of a wheel is its version and its tags where these fit, and else the start of the version
and a digest of the tags.  The hash of the digest is a parameter.
-/

namespace Uv.DistributionFilename

open Uv.Pep440 Uv.Pep508 Uv.PlatformTags
open Uv.DistributionTypes (BuildTag)

/-! ## Digests -/

/-- One of the digits of `hex::encode`. -/
def hexDigit (n : ℕ) : Char :=
  if n < 10 then Char.ofNat (48 + n) else Char.ofNat (87 + n)

/-- The lowest bytes of a number, the lowest first. -/
def hexBytes : ℕ → ℕ → Text
  | 0, _ => []
  | count + 1, n => hexDigit (n / 16 % 16) :: hexDigit (n % 16) :: hexBytes count (n / 256)

/-- Convert a number to a hex string. -/
def toHex (num : UInt64) : Text := hexBytes 8 num.toNat

theorem hexDigit_facts {n : ℕ} (hn : n < 16) :
    (hexDigit n).utf8Size = 1 ∧ hexDigit n ≠ '-' ∧
      ∀ m, m < 16 → hexDigit n = hexDigit m → n = m := by
  have hall : ∀ n : Fin 16, (hexDigit n).utf8Size = 1 ∧ hexDigit n ≠ '-' ∧
      ∀ m : Fin 16, hexDigit n = hexDigit m → n = m := by
    decide +kernel
  obtain ⟨hsize, hdash, hinjective⟩ := hall ⟨n, hn⟩
  refine ⟨hsize, hdash, ?_⟩
  intro m hm heq
  exact congrArg Fin.val (hinjective ⟨m, hm⟩ heq)

theorem mem_hexBytes {count n : ℕ} {c : Char} (hc : c ∈ hexBytes count n) :
    ∃ digit, digit < 16 ∧ c = hexDigit digit := by
  induction count generalizing n with
  | zero => cases hc
  | succ count ih =>
      rcases List.mem_cons.mp hc with rfl | hc
      · exact ⟨_, Nat.mod_lt _ (by decide), rfl⟩
      rcases List.mem_cons.mp hc with rfl | hc
      · exact ⟨_, Nat.mod_lt _ (by decide), rfl⟩
      · exact ih hc

theorem length_hexBytes (count n : ℕ) : (hexBytes count n).length = 2 * count := by
  induction count generalizing n with
  | zero => rfl
  | succ count ih =>
      rw [hexBytes, List.length_cons, List.length_cons, ih]
      omega

theorem hexBytes_injective {count left right : ℕ}
    (heq : hexBytes count left = hexBytes count right) :
    left % 256 ^ count = right % 256 ^ count := by
  induction count generalizing left right with
  | zero => rw [pow_zero, Nat.mod_one, Nat.mod_one]
  | succ count ih =>
      obtain ⟨hhigh, heq⟩ := List.cons.inj heq
      obtain ⟨hlow, hrest⟩ := List.cons.inj heq
      have hhigh := (hexDigit_facts (Nat.mod_lt _ (by decide))).2.2 _
        (Nat.mod_lt _ (by decide)) hhigh
      have hlow := (hexDigit_facts (Nat.mod_lt _ (by decide))).2.2 _
        (Nat.mod_lt _ (by decide)) hlow
      have hbyte : left % 256 = right % 256 := by omega
      rw [pow_succ', Nat.mod_mul, Nat.mod_mul, hbyte, ih hrest]

theorem toHex_injective {left right : UInt64} (heq : toHex left = toHex right) :
    left = right := by
  have hmod := hexBytes_injective heq
  have hpow : 256 ^ 8 = 2 ^ 64 := by norm_num
  rw [hpow, Nat.mod_eq_of_lt left.toNat_lt, Nat.mod_eq_of_lt right.toNat_lt] at hmod
  exact UInt64.toNat_inj.mp hmod

theorem dash_notMem_toHex (num : UInt64) : '-' ∉ toHex num := by
  intro hmem
  obtain ⟨digit, hdigit, heq⟩ := mem_hexBytes hmem
  exact (hexDigit_facts hdigit).2.1 heq.symm

theorem oneByte_toHex (num : UInt64) : OneByte (toHex num) := by
  intro c hc
  obtain ⟨digit, hdigit, rfl⟩ := mem_hexBytes hc
  exact (hexDigit_facts hdigit).1

/-! ## Keys -/

/-- `String::truncate`. -/
def truncate (text : Text) (n : ℕ) : Option Text :=
  if n ≤ byteLength text then takeBytes text n else some text

/-- `trim_end_matches(['.', '+'])`. -/
def trimEnd (text : Text) : Text := text.rdropWhile fun c => c = '.' || c = '+'

def cacheKeyMaxLen : ℕ := 64

namespace WheelFilename

/-- The version and the tags. -/
def full (filename : WheelFilename) : Text :=
  versionText filename.version ++ '-' :: filename.tags.display

/-- The start of the version, without trailing dots and plus signs. -/
def shortVersion (filename : WheelFilename) : Option Text :=
  (truncate (versionText filename.version) (cacheKeyMaxLen - 1 - 16)).map trimEnd

/-- A key of no more than 64 characters. -/
def cacheKey (cacheKeyU64 : Text → UInt64) (filename : WheelFilename) : Option Text :=
  if byteLength filename.full ≤ cacheKeyMaxLen then some filename.full
  else
    filename.shortVersion.map fun version =>
      version ++ '-' :: toHex (cacheKeyU64 filename.tags.display)

/-- File names are parsed, with or without the extension, or put together from their parts. -/
inductive Built : WheelFilename → Prop
  | parse {stem filename : Text} {wheel : WheelFilename}
      (hparse : parse stem filename = some (.ok wheel)) : Built wheel
  | new {s : List Byte} {version : Version} (name : PackageName)
      (hversion : Version.fromStr s = .ok version) (pythonTag : LanguageTag) (abiTag : AbiTag)
      (platformTag : PlatformTag) : Built (new name version pythonTag abiTag platformTag)

theorem Built.version {filename : WheelFilename} (hbuilt : filename.Built) :
    ∃ s, Version.fromStr s = .ok filename.version := by
  cases hbuilt with
  | parse hparse =>
      rcases parse_eq_ok hparse with ⟨_, _, _, _, _, -, -, -, -, -, -, hparts⟩ |
        ⟨_, _, _, _, _, _, -, -, -, -, -, -, -, hparts⟩
      · exact ⟨_, (parseParts_eq_ok hparts).2.1⟩
      · exact ⟨_, (parseParts_eq_ok hparts).2.1⟩
  | new name hversion pythonTag abiTag platformTag => exact ⟨_, hversion⟩

theorem twoDashes_small (small : WheelTagSmall) : TwoDashes (WheelTag.small small).display :=
  ⟨_, _, _, rfl⟩

theorem twoDashes_parseTags {buildTag : Option BuildTag}
    {pythonTag abiTag platformTag repr : Text} {isSmall : Bool} {tags : WheelTag}
    (hparse : parseTags buildTag pythonTag abiTag platformTag isSmall (some repr) = some tags)
    (hrepr : TwoDashes repr) : TwoDashes tags.display := by
  rcases parseTags_eq_some hparse with ⟨-, small, rfl, -⟩ | ⟨large, rfl, rfl⟩
  · exact twoDashes_small small
  · exact hrepr

theorem Built.twoDashes {filename : WheelFilename} (hbuilt : filename.Built) :
    TwoDashes filename.tags.display := by
  cases hbuilt with
  | parse hparse =>
      rcases parse_eq_ok hparse with ⟨_, _, _, _, _, -, -, -, -, -, -, hparts⟩ |
        ⟨_, _, _, _, _, _, -, -, -, -, -, -, -, hparts⟩
      · obtain ⟨-, -, build, -, htags⟩ := parseParts_eq_ok hparts
        exact twoDashes_parseTags htags ⟨_, _, _, rfl⟩
      · obtain ⟨-, -, build, -, htags⟩ := parseParts_eq_ok hparts
        exact twoDashes_parseTags htags ⟨_, _, _, rfl⟩
  | new name hversion pythonTag abiTag platformTag => exact twoDashes_small _

theorem Built.dash_mem_tags {filename : WheelFilename} (hbuilt : filename.Built) :
    '-' ∈ filename.tags.display := by
  obtain ⟨first, second, third, heq⟩ := hbuilt.twoDashes
  rw [heq]
  simp

/-! ## Collisions -/

/-- A version is never cut within a character, and what is left of it is short. -/
theorem exists_shortVersion {filename : WheelFilename} (hbuilt : filename.Built) :
    ∃ version, filename.shortVersion = some version ∧ version.length ≤ 47 ∧
      version ⊆ versionText filename.version := by
  obtain ⟨s, hversion⟩ := hbuilt.version
  have hone := oneByte_versionText hversion
  have htruncate : truncate (versionText filename.version) (cacheKeyMaxLen - 1 - 16) =
      some ((versionText filename.version).take 47) := by
    unfold truncate
    split
    · rename_i hle
      rw [hone.byteLength_eq] at hle
      have htakeOne : OneByte ((versionText filename.version).take 47) :=
        fun c hc => hone c (List.mem_of_mem_take hc)
      have htake : byteLength ((versionText filename.version).take 47) = 47 := by
        rw [htakeOne.byteLength_eq, List.length_take]
        exact min_eq_left hle
      have happend := takeBytes_append ((versionText filename.version).take 47)
        ((versionText filename.version).drop 47)
      rwa [List.take_append_drop, htake] at happend
    · rename_i hlt
      rw [hone.byteLength_eq, not_le] at hlt
      exact congrArg some (List.take_of_length_le hlt.le).symm
  have hstart : trimEnd ((versionText filename.version).take 47) <+:
      (versionText filename.version).take 47 := List.rdropWhile_prefix ..
  refine ⟨trimEnd ((versionText filename.version).take 47), ?_, ?_, ?_⟩
  · rw [shortVersion, htruncate, Option.map_some]
  · exact hstart.length_le.trans (List.length_take_le ..)
  · exact fun c hc => List.mem_of_mem_take (hstart.subset hc)

variable {cacheKeyU64 : Text → UInt64} {left right : WheelFilename}

/-- A short key is the full text; a long one has one dash. -/
theorem cacheKey_cases (hleft : left.Built) :
    (byteLength left.full ≤ cacheKeyMaxLen ∧ left.cacheKey cacheKeyU64 = some left.full) ∨
    ∃ version, cacheKeyMaxLen < byteLength left.full ∧ left.shortVersion = some version ∧
      '-' ∉ version ∧ left.cacheKey cacheKeyU64 =
        some (version ++ '-' :: toHex (cacheKeyU64 left.tags.display)) := by
  unfold cacheKey
  split
  · rename_i hle
    exact .inl ⟨hle, rfl⟩
  · rename_i hlt
    obtain ⟨version, hshort, -, hsubset⟩ := exists_shortVersion hleft
    obtain ⟨s, hversion⟩ := hleft.version
    refine .inr ⟨version, not_le.mp hlt, hshort, ?_, by rw [hshort, Option.map_some]⟩
    exact fun hmem => dash_notMem_versionText hversion (hsubset hmem)

theorem byteLength_cacheKey (hleft : left.Built) :
    ∃ key, left.cacheKey cacheKeyU64 = some key ∧ byteLength key ≤ cacheKeyMaxLen := by
  rcases cacheKey_cases hleft with ⟨hle, hkey⟩ | ⟨version, -, hshort, -, hkey⟩
  · exact ⟨_, hkey, hle⟩
  · obtain ⟨version', hshort', hlength, hsubset⟩ := exists_shortVersion hleft
    obtain rfl := Option.some.inj (hshort.symm.trans hshort')
    obtain ⟨s, hversion⟩ := hleft.version
    have hone : OneByte version := fun c hc => oneByte_versionText hversion c (hsubset hc)
    refine ⟨_, hkey, ?_⟩
    rw [byteLength_append, byteLength_cons, hone.byteLength_eq, (oneByte_toHex _).byteLength_eq,
      toHex, length_hexBytes]
    have hdash : Char.utf8Size '-' = 1 := by decide
    rw [hdash, cacheKeyMaxLen]
    omega

/-- The full text of one wheel is no digest of another. -/
theorem full_ne_digest (hleft : left.Built) {version : Text} (hversion : '-' ∉ version)
    (num : UInt64) : left.full ≠ version ++ '-' :: toHex num := by
  intro heq
  obtain ⟨s, hparse⟩ := hleft.version
  obtain ⟨-, htags⟩ := dash_unique (dash_notMem_versionText hparse) hversion heq
  exact dash_notMem_toHex num (htags ▸ hleft.dash_mem_tags)

theorem full_eq_iff (hleft : left.Built) (hright : right.Built) :
    left.full = right.full ↔ left.tags.display = right.tags.display ∧
      versionText left.version = versionText right.version := by
  obtain ⟨s, hversionLeft⟩ := hleft.version
  obtain ⟨t, hversionRight⟩ := hright.version
  constructor
  · intro heq
    exact (dash_unique (dash_notMem_versionText hversionLeft)
      (dash_notMem_versionText hversionRight) heq).symm
  · rintro ⟨htags, hversion⟩
    rw [full, full, htags, hversion]

/-- A short key is no long one. -/
theorem cacheKey_ne (cacheKeyU64 : Text → UInt64) (hleft : left.Built)
    (hright : right.Built) (hle : byteLength left.full ≤ cacheKeyMaxLen)
    (hlt : cacheKeyMaxLen < byteLength right.full) :
    left.cacheKey cacheKeyU64 ≠ right.cacheKey cacheKeyU64 ∧
      ¬ (left.tags.display = right.tags.display ∧
        versionText left.version = versionText right.version) := by
  have hne : left.full ≠ right.full := fun heq => absurd hle (not_le.mpr (heq ▸ hlt))
  rw [Ne, full_eq_iff hleft hright] at hne
  refine ⟨?_, hne⟩
  rcases cacheKey_cases hright with ⟨hle', -⟩ | ⟨version, -, -, hdash, hkey⟩
  · exact absurd hle' (not_le.mpr hlt)
  · rw [hkey, cacheKey, if_pos hle, Ne, Option.some.injEq]
    exact full_ne_digest hleft hdash _

/-- Keys are at most 64 bytes long.  Two wheels share a key where they have the same tags and
version, or the same tags and the same start of the version and neither text fits. -/
theorem cacheKey_eq_iff (hleft : left.Built) (hright : right.Built)
    (hdigest : cacheKeyU64 left.tags.display = cacheKeyU64 right.tags.display →
      left.tags.display = right.tags.display) :
    (∃ key, left.cacheKey cacheKeyU64 = some key ∧ byteLength key ≤ cacheKeyMaxLen) ∧
    (left.cacheKey cacheKeyU64 = right.cacheKey cacheKeyU64 ↔
      left.tags.display = right.tags.display ∧
        (versionText left.version = versionText right.version ∨
          cacheKeyMaxLen < byteLength left.full ∧ cacheKeyMaxLen < byteLength right.full ∧
            left.shortVersion = right.shortVersion)) := by
  refine ⟨byteLength_cacheKey hleft, ?_⟩
  rcases cacheKey_cases hleft with ⟨hle, hkey⟩ |
    ⟨version, hlt, hshort, hdash, hkey⟩
  · rcases cacheKey_cases hright with ⟨hle', hkey'⟩ |
      ⟨version', hlt', hshort', hdash', hkey'⟩
    · rw [hkey, hkey', Option.some.injEq, full_eq_iff hleft hright]
      simp [not_lt.mpr hle]
    · obtain ⟨hkeys, hsame⟩ := cacheKey_ne cacheKeyU64 hleft hright hle hlt'
      simp only [hkeys, not_lt.mpr hle, false_and, or_false, hsame]
  · rcases cacheKey_cases hright with ⟨hle', hkey'⟩ |
      ⟨version', hlt', hshort', hdash', hkey'⟩
    · obtain ⟨hkeys, hsame⟩ := cacheKey_ne cacheKeyU64 hright hleft hle' hlt
      rw [eq_comm (a := right.tags.display), eq_comm (a := versionText right.version)] at hsame
      simp only [hkeys.symm, not_lt.mpr hle', false_and, and_false, or_false, hsame]
    · rw [hkey, hkey', Option.some.injEq, hshort, hshort', Option.some.injEq]
      constructor
      · intro heq
        obtain ⟨hversion, hhex⟩ := dash_unique hdash hdash' heq
        exact ⟨hdigest (toHex_injective hhex), .inr ⟨hlt, hlt', hversion⟩⟩
      · rintro ⟨htags, hversion | ⟨-, -, hversion⟩⟩
        · have hsame : left.shortVersion = right.shortVersion := by
            rw [shortVersion, shortVersion, hversion]
          rw [htags, Option.some.inj (hshort.symm.trans (hsame.trans hshort'))]
        · rw [htags, hversion]

/-- The tags of two wheels and their hashes. -/
def numpyTags : Text :=
  "cp311-cp311-manylinux_2_17_x86_64.manylinux2014_x86_64.musllinux_1_2".toList

def exampleTags : Text := "cp311-cp311-manylinux_2_17_x86_64.manylinux2014_x86_64".toList

def hashes (text : Text) : UInt64 :=
  if text = numpyTags then 0x14c22d9b37dc2a5a else 0xf77c64e99885bf80

/-- The two long names have different keys. -/
theorem cacheKey_eq_numpy : ∃ left right,
    parse ("numpy-1.26.2-".toList ++ numpyTags) ("numpy-1.26.2-".toList ++ numpyTags) =
      some (.ok left) ∧
    parse ("numpy-1.26.2-".toList ++ exampleTags) ("numpy-1.26.2-".toList ++ exampleTags) =
      some (.ok right) ∧
    (∃ key, left.cacheKey hashes = some key ∧ byteLength key ≤ cacheKeyMaxLen) ∧
    (left.cacheKey hashes = right.cacheKey hashes ↔
      left.tags.display = right.tags.display ∧
        (versionText left.version = versionText right.version ∨
          cacheKeyMaxLen < byteLength left.full ∧ cacheKeyMaxLen < byteLength right.full ∧
            left.shortVersion = right.shortVersion)) := by
  have hnumpy : ((parse ("numpy-1.26.2-".toList ++ numpyTags)
      ("numpy-1.26.2-".toList ++ numpyTags)).bind Except.toOption).map
        (fun wheel => wheel.tags.display) = some numpyTags := by
    decide +kernel
  have hexample : ((parse ("numpy-1.26.2-".toList ++ exampleTags)
      ("numpy-1.26.2-".toList ++ exampleTags)).bind Except.toOption).map
        (fun wheel => wheel.tags.display) = some exampleTags := by
    decide +kernel
  obtain ⟨left, hleft, htags⟩ := exists_ok _ hnumpy
  obtain ⟨right, hright, htags'⟩ := exists_ok _ hexample
  refine ⟨left, right, hleft, hright, cacheKey_eq_iff (.parse hleft) (.parse hright) ?_⟩
  intro hhash
  rw [htags, htags'] at hhash
  exact absurd hhash (by decide +kernel)

/-- The start of two long versions. -/
def longVersion : Text :=
  "1.2.3.4.5.6.7.8.9.0.1.2.3.4.5.6.7.8.9.0.1.2.1.2.3.4.5.6.7.8.9.0.1.1.".toList

def longStem (last : Char) : Text :=
  "example-".toList ++ longVersion ++ last :: '-' :: exampleTags

/-- What the key of a long name is made of. -/
def keyParts (filename : WheelFilename) : Text × Text × Bool × Option Text × Text :=
  (filename.name.text, versionText filename.version, byteLength filename.full ≤ cacheKeyMaxLen,
    filename.shortVersion, filename.tags.display)

theorem keyParts_longStem {last : Char} (hlast : last = '2' ∨ last = '3') :
    ((parse (longStem last) (longStem last)).bind Except.toOption).map keyParts =
      some ("example".toList, longVersion ++ [last], false,
        some "1.2.3.4.5.6.7.8.9.0.1.2.3.4.5.6.7.8.9.0.1.2.1.2".toList, exampleTags) := by
  rcases hlast with rfl | rfl <;> decide +kernel

/-- Two versions with the same start have the same key. -/
theorem not_cacheKey_injective : ∃ left right,
    parse (longStem '2') (longStem '2') = some (.ok left) ∧
    parse (longStem '3') (longStem '3') = some (.ok right) ∧
    left.name.text = right.name.text ∧ versionText left.version ≠ versionText right.version ∧
    ∀ cacheKeyU64, left.cacheKey cacheKeyU64 = right.cacheKey cacheKeyU64 := by
  obtain ⟨left, hleft, hparts⟩ := exists_ok _ (keyParts_longStem (.inl rfl))
  obtain ⟨right, hright, hparts'⟩ := exists_ok _ (keyParts_longStem (.inr rfl))
  simp only [keyParts, Prod.mk.injEq, decide_eq_false_iff_not] at hparts hparts'
  obtain ⟨hname, hversion, hfull, hshort, htags⟩ := hparts
  obtain ⟨hname', hversion', hfull', hshort', htags'⟩ := hparts'
  refine ⟨left, right, hleft, hright, hname.trans hname'.symm, ?_, ?_⟩
  · rw [hversion, hversion']
    simp
  · intro cacheKeyU64
    rw [cacheKey, cacheKey, if_neg hfull, if_neg hfull', hshort, hshort', htags, htags']

end WheelFilename

end Uv.DistributionFilename
