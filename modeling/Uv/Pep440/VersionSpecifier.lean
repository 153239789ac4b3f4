import Uv.Core.Ranges
import Uv.Pep440.VersionLaws

/-!
# Version specifiers

An operator with a version, such as `>= 2.0.0` or `== 1.1.*`: how it is read,
which combinations are refused, and which versions it contains.

From here on versions are valid ones, as every version of the program is.
-/

namespace Uv.Pep440

open Uv.Core Uv.Core.Order

/-- A version whose packed word, if it has one, is well formed. -/
structure ValidVersion where
  val : Version
  valid : val.Valid
  deriving DecidableEq

namespace ValidVersion

/-- `Ord for Version`. -/
instance : OrdKey ValidVersion where
  compare this other := this.val.cmp other.val
  Key := VersionKey
  key version := version.val.key
  compare_eq this other := Version.cmp_eq this.valid other.valid

def ofFromStr {s : List Byte} {version : Version}
    (hparse : Version.fromStr s = .ok version) : ValidVersion :=
  ⟨version, Version.valid_of_fromStr hparse⟩

def new (releaseNumbers : List ℕ) : ValidVersion :=
  ⟨.new releaseNumbers, Version.valid_new _⟩

def onlyRelease (version : ValidVersion) : ValidVersion :=
  ⟨version.val.onlyRelease, Version.valid_new _⟩

def onlyMinorRelease (version : ValidVersion) : ValidVersion :=
  ⟨version.val.onlyMinorRelease, Version.valid_new _⟩

def onlyReleaseTrimmed (version : ValidVersion) : ValidVersion :=
  ⟨version.val.onlyReleaseTrimmed, Version.valid_onlyReleaseTrimmed _⟩

def withRelease (version : ValidVersion) (numbers : List ℕ) : ValidVersion :=
  ⟨version.val.withRelease numbers, Version.valid_withRelease version.valid _⟩

def withEpoch (version : ValidVersion) (value : ℕ) : ValidVersion :=
  ⟨version.val.withEpoch value, Version.valid_withEpoch version.valid _⟩

def withPre (version : ValidVersion) (value : Option Prerelease) :
    ValidVersion :=
  ⟨version.val.withPre value, Version.valid_withPre version.valid _⟩

def withPost (version : ValidVersion) (value : Option ℕ) : ValidVersion :=
  ⟨version.val.withPost value, Version.valid_withPost version.valid _⟩

def withDev (version : ValidVersion) (value : Option ℕ) : ValidVersion :=
  ⟨version.val.withDev value, Version.valid_withDev version.valid _⟩

def withLocal (version : ValidVersion) (value : LocalVersion) : ValidVersion :=
  ⟨version.val.withLocal value, Version.valid_withLocal version.valid _⟩

def withoutLocal (version : ValidVersion) : ValidVersion :=
  ⟨version.val.withoutLocal, Version.valid_withoutLocal version.valid⟩

/-- `with_min(Some(0))`. -/
def withMinZero (version : ValidVersion) : ValidVersion :=
  ⟨version.val.withMin (some 0), Version.valid_withMin version.valid (.inr rfl)⟩

/-- `with_max(Some(0))`. -/
def withMaxZero (version : ValidVersion) : ValidVersion :=
  ⟨version.val.withMax (some 0), Version.valid_withMax version.valid (.inr rfl)⟩

end ValidVersion

/-! ## Displaying a version -/

/-- The digits of a number. -/
def displayNat (n : ℕ) : List Byte := ascii (toString n)

def PrereleaseKind.display : PrereleaseKind → List Byte
  | .alpha => ascii "a"
  | .beta => ascii "b"
  | .rc => ascii "rc"

def Prerelease.display (pre : Prerelease) : List Byte :=
  pre.kind.display ++ displayNat pre.number

def LocalSegment.display : LocalSegment → List Byte
  | .string text => text
  | .number value => displayNat value

/-- `Display for LocalVersionSlice`. -/
def LocalVersion.display : LocalVersion → List Byte
  | .segments parts => (ascii ".").intercalate (parts.map LocalSegment.display)
  | .max => ascii "[max]"

/-- `Display for Version`: the normalized version. -/
def Version.display (version : Version) : List Byte :=
  (if version.epoch ≠ 0 then displayNat version.epoch ++ ascii "!" else []) ++
    (ascii ".").intercalate (version.release.map displayNat) ++
    (version.pre.map Prerelease.display).getD [] ++
    (version.post.map fun post => ascii ".post" ++ displayNat post).getD [] ++
    (version.dev.map fun dev => ascii ".dev" ++ displayNat dev).getD [] ++
    if version.localVersion.isEmpty then []
    else
      match version.localVersion with
      | .segments _ => ascii "+" ++ version.localVersion.display
      | .max => ascii "+"

/-! ## Operators -/

/-- One of `~=`, `==`, `!=`, `<=`, `>=`, `<`, `>` and `===`; `==` and `!=` have
a second form for versions that end in a star. -/
inductive Operator where
  | equal
  | equalStar
  | exactEqual
  | notEqual
  | notEqualStar
  | tildeEqual
  | lessThan
  | lessThanEqual
  | greaterThan
  | greaterThanEqual
  deriving DecidableEq

namespace Operator

/-- The operator of opposite meaning; `~=` has none. -/
def negate : Operator → Option Operator
  | .equal => some .notEqual
  | .equalStar => some .notEqualStar
  | .exactEqual => some .notEqual
  | .notEqual => some .equal
  | .notEqualStar => some .equalStar
  | .tildeEqual => none
  | .lessThan => some .greaterThanEqual
  | .lessThanEqual => some .greaterThan
  | .greaterThan => some .lessThanEqual
  | .greaterThanEqual => some .lessThan

/-- Whether the operator may be used with a version that has local segments. -/
def isLocalCompatible : Operator → Bool
  | .greaterThan | .greaterThanEqual | .lessThan | .lessThanEqual
  | .tildeEqual | .equalStar | .notEqualStar => false
  | .equal | .exactEqual | .notEqual => true

/-- The wildcard version of the operator, if it has one. -/
def toStar : Operator → Option Operator
  | .equal => some .equalStar
  | .notEqual => some .notEqualStar
  | _ => none

def isStar : Operator → Bool
  | .equalStar | .notEqualStar => true
  | _ => false

/-- `FromStr for Operator`; the error holds the text. -/
def fromStr (s : List Char) : Except (List Char) Operator :=
  if s = "==".toList then .ok .equal
  else if s = "===".toList then .ok .exactEqual
  else if s = "!=".toList then .ok .notEqual
  else if s = "~=".toList then .ok .tildeEqual
  else if s = "<".toList then .ok .lessThan
  else if s = "<=".toList then .ok .lessThanEqual
  else if s = ">".toList then .ok .greaterThan
  else if s = ">=".toList then .ok .greaterThanEqual
  else .error s

theorem isStar_of_fromStr {s : List Char} {operator : Operator}
    (hparse : fromStr s = .ok operator) : operator.isStar = false := by
  unfold fromStr at hparse
  split_ifs at hparse <;> cases hparse <;> rfl

end Operator

/-! ## Specifiers -/

/-- The kind of error when a specifier is built from its parts. -/
inductive BuildErrorKind where
  | operatorLocalCombo (operator : Operator) (version : ValidVersion)
  | operatorWithStar (operator : Operator)
  | compatibleRelease
  deriving DecidableEq

/-- The kind of error when a specifier is parsed. -/
inductive ParseErrorKind where
  | invalidOperator (got : List Char)
  | invalidVersion (err : PatternErrorKind)
  | invalidSpecifier (err : BuildErrorKind)
  | missingOperator (versionPattern : Option VersionPattern)
  | missingVersion
  | invalidTrailing (rest : List Char)
  deriving DecidableEq

/-- A version range such as `>1.2.3` or `==1.*`.  With `~=` there are always at
least two release segments. -/
structure VersionSpecifier where
  operator : Operator
  version : ValidVersion
  tildeEqual_release : operator = .tildeEqual → 2 ≤ version.val.release.length
  deriving DecidableEq

namespace VersionSpecifier

/-- A specifier from an operator and a version. -/
def fromVersion (operator : Operator) (version : ValidVersion) :
    Except BuildErrorKind VersionSpecifier :=
  if version.val.isLocal && !operator.isLocalCompatible then
    .error (.operatorLocalCombo operator version)
  else if hrelease : operator = .tildeEqual ∧ version.val.release.length < 2 then
    .error .compatibleRelease
  else
    .ok ⟨operator, version, fun htilde =>
      not_lt.mp fun hlength => hrelease ⟨htilde, hlength⟩⟩

/-- A specifier from an operator and a version that may end in a star. -/
def fromPattern (operator : Operator) (version : ValidVersion)
    (wildcard : Bool) : Except BuildErrorKind VersionSpecifier :=
  if wildcard then
    match operator.toStar with
    | some starop => fromVersion starop version
    | none => .error (.operatorWithStar operator)
  else fromVersion operator version

/-- Remove all parts of the version but the release. -/
def onlyRelease (specifier : VersionSpecifier) : VersionSpecifier where
  operator := specifier.operator
  version := specifier.version.onlyRelease
  tildeEqual_release htilde := by
    have hrelease := specifier.tildeEqual_release htilde
    simpa [ValidVersion.onlyRelease, Version.onlyRelease, Version.release_eq,
      Version.releaseOnly] using hrelease

def equalsVersion (version : ValidVersion) : VersionSpecifier :=
  ⟨.equal, version, by simp⟩

def equalsStarVersion (version : ValidVersion) : VersionSpecifier :=
  ⟨.equalStar, version, by simp⟩

def notEqualsStarVersion (version : ValidVersion) : VersionSpecifier :=
  ⟨.notEqualStar, version, by simp⟩

def notEqualsVersion (version : ValidVersion) : VersionSpecifier :=
  ⟨.notEqual, version, by simp⟩

def greaterThanEqualVersion (version : ValidVersion) : VersionSpecifier :=
  ⟨.greaterThanEqual, version, by simp⟩

def greaterThanVersion (version : ValidVersion) : VersionSpecifier :=
  ⟨.greaterThan, version, by simp⟩

def lessThanEqualVersion (version : ValidVersion) : VersionSpecifier :=
  ⟨.lessThanEqual, version, by simp⟩

def lessThanVersion (version : ValidVersion) : VersionSpecifier :=
  ⟨.lessThan, version, by simp⟩

/-- Every release segment both versions have is the same. -/
def releaseMatches (this other : List ℕ) : Bool :=
  (this.zip other).all fun (this, other) => this == other

/-- Whether the given version satisfies the specifier.  Local segments of the
candidate are ignored unless the specifier has some. -/
def contains (specifier : VersionSpecifier) (version : ValidVersion) : Bool :=
  let this := specifier.version
  let other :=
    if this.val.localVersion.isEmpty && !version.val.localVersion.isEmpty then
      version.withoutLocal
    else version
  match specifier.operator with
  | .equal => other.val.beq this.val
  | .equalStar =>
      this.val.epoch == other.val.epoch &&
        releaseMatches this.val.release other.val.release
  | .exactEqual => this.val.display == version.val.display
  | .notEqual => !this.val.beq other.val
  | .notEqualStar =>
      this.val.epoch != other.val.epoch ||
        !releaseMatches this.val.release version.val.release
  | .tildeEqual =>
      if this.val.epoch ≠ other.val.epoch then false
      else if !releaseMatches this.val.release.dropLast other.val.release then
        false
      else other.val.ge this.val
  | .greaterThan =>
      if other.val.epoch > this.val.epoch then true
      else if compareRelease this.val.release other.val.release = .eq ∧
          ((!this.val.isPost && other.val.isPost) || other.val.isLocal) then
        false
      else other.val.gt this.val
  | .greaterThanEqual => other.val.ge this.val
  | .lessThan =>
      if other.val.epoch < this.val.epoch then true
      else if compareRelease this.val.release other.val.release = .eq ∧
          (!this.val.anyPrerelease && other.val.anyPrerelease) then
        false
      else other.val.lt this.val
  | .lessThanEqual => other.val.le this.val

/-- `VersionSpecifiers::contains`: whether all specifiers match. -/
def containsAll (specifiers : List VersionSpecifier) (version : ValidVersion) :
    Bool :=
  specifiers.all (·.contains version)

/-! ## Reading a specifier -/

/-- `char::is_whitespace`: the Unicode property `White_Space`. -/
def isWhitespace (c : Char) : Bool :=
  let n := c.toNat
  (0x9 ≤ n && n ≤ 0xD) || n == 0x20 || n == 0x85 || n == 0xA0 ||
    n == 0x1680 || (0x2000 ≤ n && n ≤ 0x200A) || n == 0x2028 || n == 0x2029 ||
    n == 0x202F || n == 0x205F || n == 0x3000

/-- The bytes of a text. -/
def utf8 (text : List Char) : List Byte :=
  (text.flatMap String.utf8EncodeChar).map UInt8.toFin

/-- `FromStr for VersionSpecifier`. -/
def fromStr (spec : List Char) : Except ParseErrorKind VersionSpecifier :=
  let s := spec.dropWhile isWhitespace
  let (operator, s) := s.span ("=!~<>".toList.contains ·)
  let s := s.dropWhile isWhitespace
  let (version, s) := s.span (!isWhitespace ·)
  let s := s.dropWhile isWhitespace
  if operator.isEmpty then
    .error (.missingOperator (VersionPattern.fromStr (utf8 version)).toOption)
  else
    match Operator.fromStr operator with
    | .error got => .error (.invalidOperator got)
    | .ok operator =>
        if version.isEmpty then .error .missingVersion
        else
          match hparse : VersionPattern.fromStr (utf8 version) with
          | .error err => .error (.invalidVersion err)
          | .ok vpat =>
              match fromPattern operator
                  ⟨vpat.version, Parser.valid_of_parsePattern hparse⟩
                  vpat.wildcard with
              | .error err => .error (.invalidSpecifier err)
              | .ok specifier =>
                  if s.isEmpty then .ok specifier
                  else .error (.invalidTrailing s)

theorem fromVersion_eq_ok {operator : Operator} {version : ValidVersion}
    {specifier : VersionSpecifier}
    (hbuild : fromVersion operator version = .ok specifier) :
    specifier.operator = operator ∧ specifier.version = version ∧
      (operator.isLocalCompatible = false →
        version.val.localVersion.isEmpty = true) := by
  unfold fromVersion at hbuild
  split at hbuild
  · cases hbuild
  rename_i hlocal
  split at hbuild
  · cases hbuild
  cases hbuild
  refine ⟨rfl, rfl, fun hcompatible => ?_⟩
  simpa [Version.isLocal, hcompatible] using hlocal

theorem fromPattern_eq_ok {operator : Operator} {version : ValidVersion}
    {wildcard : Bool} {specifier : VersionSpecifier}
    (hbuild : fromPattern operator version wildcard = .ok specifier) :
    specifier.operator.isStar = wildcard ∨ wildcard = false := by
  cases wildcard with
  | false => exact .inr rfl
  | true =>
      unfold fromPattern at hbuild
      rw [if_pos rfl] at hbuild
      cases operator with
      | equal => exact .inl (by rw [(fromVersion_eq_ok hbuild).1]; rfl)
      | notEqual => exact .inl (by rw [(fromVersion_eq_ok hbuild).1]; rfl)
      | _ => cases hbuild

theorem version_fromStr_of_pattern {s : List Byte} {vpat : VersionPattern}
    (hparse : VersionPattern.fromStr s = .ok vpat)
    (hwildcard : vpat.wildcard = false) :
    Version.fromStr s = .ok vpat.version := by
  unfold VersionPattern.fromStr at hparse
  unfold Version.fromStr Parser.parse
  rw [hparse]
  simp [hwildcard]

/-- An accepted specifier is built from an operator and a version pattern. -/
theorem exists_pattern_of_fromStr {spec : List Char} {specifier : VersionSpecifier}
    (hparse : fromStr spec = .ok specifier) :
    ∃ operator s vpat, ∃ hpattern : VersionPattern.fromStr s = .ok vpat,
      operator.isStar = false ∧
        fromPattern operator ⟨vpat.version, Parser.valid_of_parsePattern hpattern⟩
          vpat.wildcard = .ok specifier := by
  unfold fromStr at hparse
  simp only at hparse
  split at hparse
  · cases hparse
  split at hparse
  · cases hparse
  rename_i operator hoperator
  split at hparse
  · cases hparse
  split at hparse
  · cases hparse
  rename_i vpat hpattern
  split at hparse
  · cases hparse
  rename_i built hbuild
  split at hparse
  swap
  · cases hparse
  cases hparse
  exact ⟨operator, _, vpat, hpattern, Operator.isStar_of_fromStr hoperator, hbuild⟩

/-- An accepted specifier without a star holds a parsed version, which has no
local segments where the operator does not permit them. -/
theorem exists_of_fromStr {spec : List Char} {specifier : VersionSpecifier}
    (hparse : fromStr spec = .ok specifier)
    (hstar : specifier.operator.isStar = false) :
    (∃ s, Version.fromStr s = .ok specifier.version.val) ∧
      (specifier.operator.isLocalCompatible = false →
        specifier.version.val.localVersion.isEmpty = true) := by
  obtain ⟨operator, s, vpat, hpattern, -, hbuild⟩ := exists_pattern_of_fromStr hparse
  have hwildcard : vpat.wildcard = false := by
    rcases fromPattern_eq_ok hbuild with hsame | hfalse
    · rw [← hsame, hstar]
    · exact hfalse
  unfold fromPattern at hbuild
  rw [if_neg (by simp [hwildcard])] at hbuild
  obtain ⟨hoperator, hversion, hlocal⟩ := fromVersion_eq_ok hbuild
  rw [hoperator, hversion]
  exact ⟨⟨_, version_fromStr_of_pattern hpattern hwildcard⟩, hlocal⟩

/-- An accepted specifier with a star holds the version of a wildcard pattern. -/
theorem exists_wildcard_of_fromStr {spec : List Char}
    {specifier : VersionSpecifier} (hparse : fromStr spec = .ok specifier)
    (hstar : specifier.operator.isStar = true) :
    ∃ s vpat, VersionPattern.fromStr s = .ok vpat ∧ vpat.wildcard = true ∧
      specifier.version.val = vpat.version := by
  obtain ⟨operator, s, vpat, hpattern, hplain, hbuild⟩ :=
    exists_pattern_of_fromStr hparse
  refine ⟨s, vpat, hpattern, ?_⟩
  unfold fromPattern at hbuild
  cases hwildcard : vpat.wildcard with
  | false =>
      rw [if_neg (by simp [hwildcard])] at hbuild
      rw [(fromVersion_eq_ok hbuild).1, hplain] at hstar
      cases hstar
  | true =>
      rw [if_pos hwildcard] at hbuild
      split at hbuild
      · exact ⟨rfl, by rw [(fromVersion_eq_ok hbuild).2.1]⟩
      · cases hbuild

end VersionSpecifier

end Uv.Pep440
