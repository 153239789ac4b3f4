import Uv.Core.BitField

/-!
# The packed representation of a version

Most versions have at most four small release segments and at most one suffix.
`VersionSmall` packs such a version into one `u64`: the first release segment
in bytes 6 and 7, the next three in bytes 5, 4 and 3, a four-bit suffix kind
and a twenty-bit suffix number.  The layout is chosen so that comparing two
packed versions is comparing two integers.

Scalars (`u64`) are natural numbers; only the packed word itself is a
`BitVec 64`.  A setter that returns `false` in the source leaves the value
unchanged, so the setters here return `none` in that case.
-/

namespace Uv.Pep440

open Uv.Core

/-- Alpha, beta or release candidate. -/
inductive PrereleaseKind where
  | alpha
  | beta
  | rc
  deriving DecidableEq

/-- An optional pre-release modifier and number applied to a version. -/
structure Prerelease where
  kind : PrereleaseKind
  number : ℕ
  deriving DecidableEq

abbrev Byte := Fin 256

/-- A part of the local version identifier. -/
inductive LocalSegment where
  | string (text : List Byte)
  | number (value : ℕ)
  deriving DecidableEq

/-- Either a sequence of local segments or an internal-only value that compares
greater than all other local versions. -/
inductive LocalVersion where
  | segments (parts : List LocalSegment)
  | max
  deriving DecidableEq

namespace LocalVersion

def empty : LocalVersion := .segments []

def isEmpty : LocalVersion → Bool
  | .segments parts => parts.isEmpty
  | .max => false

end LocalVersion

/-- The packed form: the number of release segments and the packed word. -/
structure VersionSmall where
  len : ℕ
  repr : BitVec 64
  deriving DecidableEq

namespace VersionSmall

def suffixMin : ℕ := 0
def suffixDev : ℕ := 1
def suffixPreAlpha : ℕ := 2
def suffixPreBeta : ℕ := 3
def suffixPreRc : ℕ := 4
def suffixNone : ℕ := 5
def suffixLocal : ℕ := 6
def suffixPost : ℕ := 7
def suffixMax : ℕ := 8

def suffixReleaseMask : BitVec 64 := 0xFFFFFFFFFF000000#64
def suffixVersionMask : BitVec 64 := 0x000FFFFF#64
def suffixVersionBitLen : ℕ := 20
def suffixKindMask : BitVec 64 := 0b1111#64

def new : VersionSmall where
  len := 0
  repr := BitVec.ofNat 64 suffixNone <<< suffixVersionBitLen

def epoch (_small : VersionSmall) : ℕ := 0

def setEpoch (small : VersionSmall) (value : ℕ) : Option VersionSmall :=
  if value ≠ 0 then none else some small

/-- The four release positions of the word, used or not. -/
def positions (small : VersionSmall) : List ℕ :=
  [((small.repr >>> 48) &&& 0xFFFF#64).toNat,
    ((small.repr >>> 40) &&& 0xFF#64).toNat,
    ((small.repr >>> 32) &&& 0xFF#64).toNat,
    ((small.repr >>> 24) &&& 0xFF#64).toNat]

/-- `Version::release` of a packed version: its first `len` positions. -/
def release (small : VersionSmall) : List ℕ :=
  small.positions.take small.len

def clearRelease (small : VersionSmall) : VersionSmall where
  len := 0
  repr := small.repr &&& ~~~suffixReleaseMask

def pushRelease (small : VersionSmall) (n : ℕ) : Option VersionSmall :=
  if small.len = 0 then
    if n > 65535 then none
    else some { len := 1, repr := small.repr ||| (BitVec.ofNat 64 n <<< 48) }
  else if n > 255 then none
  else if small.len ≥ 4 then none
  else
    some {
      len := small.len + 1
      repr := small.repr ||| (BitVec.ofNat 64 n <<< (48 - small.len * 8)) }

def suffixKind (small : VersionSmall) : ℕ :=
  ((small.repr >>> suffixVersionBitLen) &&& suffixKindMask).toNat

def suffixVersion (small : VersionSmall) : ℕ :=
  (small.repr &&& suffixVersionMask).toNat

def setSuffixVersion (small : VersionSmall) (value : ℕ) : VersionSmall :=
  { small with
    repr := (small.repr &&& ~~~suffixVersionMask) ||| BitVec.ofNat 64 value }

def setSuffixKind (small : VersionSmall) (kind : ℕ) : VersionSmall :=
  let cleared := small.repr &&& ~~~(suffixKindMask <<< suffixVersionBitLen)
  let replaced : VersionSmall := { small with
    repr := cleared ||| (BitVec.ofNat 64 kind <<< suffixVersionBitLen) }
  if kind = suffixNone ∨ kind = suffixLocal then replaced.setSuffixVersion 0
  else replaced

/-- The common shape of the getters `post`, `dev`, `min` and `max`. -/
def numbered (kind : ℕ) (small : VersionSmall) : Option ℕ :=
  if small.suffixKind = kind then some small.suffixVersion else none

/-- The common shape of the setters `set_post`, `set_dev`, `set_min` and
`set_max`. -/
def setNumbered (kind : ℕ) (small : VersionSmall) (value : Option ℕ) :
    Option VersionSmall :=
  if ¬ (small.suffixKind = suffixNone ∨ small.suffixKind = kind) then
    if value.isNone then some small else none
  else
    match value with
    | none => some (small.setSuffixKind suffixNone)
    | some number =>
        if number > suffixVersionMask.toNat then none
        else some ((small.setSuffixKind kind).setSuffixVersion number)

def post : VersionSmall → Option ℕ := numbered suffixPost
def setPost : VersionSmall → Option ℕ → Option VersionSmall :=
  setNumbered suffixPost

def dev : VersionSmall → Option ℕ := numbered suffixDev
def setDev : VersionSmall → Option ℕ → Option VersionSmall :=
  setNumbered suffixDev

def min : VersionSmall → Option ℕ := numbered suffixMin
def setMin : VersionSmall → Option ℕ → Option VersionSmall :=
  setNumbered suffixMin

def max : VersionSmall → Option ℕ := numbered suffixMax
def setMax : VersionSmall → Option ℕ → Option VersionSmall :=
  setNumbered suffixMax

def pre (small : VersionSmall) : Option Prerelease :=
  if small.suffixKind = suffixPreAlpha then
    some { kind := .alpha, number := small.suffixVersion }
  else if small.suffixKind = suffixPreBeta then
    some { kind := .beta, number := small.suffixVersion }
  else if small.suffixKind = suffixPreRc then
    some { kind := .rc, number := small.suffixVersion }
  else none

/-- The suffix kind that stores a pre-release of the given kind. -/
def preSuffix : PrereleaseKind → ℕ
  | .alpha => suffixPreAlpha
  | .beta => suffixPreBeta
  | .rc => suffixPreRc

def setPre (small : VersionSmall) (value : Option Prerelease) :
    Option VersionSmall :=
  let kind := small.suffixKind
  if ¬ (kind = suffixNone ∨ kind = suffixPreAlpha ∨ kind = suffixPreBeta ∨
      kind = suffixPreRc) then
    if value.isNone then some small else none
  else
    match value with
    | none => some (small.setSuffixKind suffixNone)
    | some value =>
        if value.number > suffixVersionMask.toNat then none
        else
          some ((small.setSuffixKind (preSuffix value.kind)).setSuffixVersion
            value.number)

def localVersion (small : VersionSmall) : LocalVersion :=
  if small.suffixKind = suffixLocal then .max else .empty

def setLocal (small : VersionSmall) (value : LocalVersion) :
    Option VersionSmall :=
  if ¬ (small.suffixKind = suffixNone ∨ small.suffixKind = suffixLocal) then
    if value.isEmpty then some small else none
  else
    match value with
    | .max => some (small.setSuffixKind suffixLocal)
    | .segments [] => some (small.setSuffixKind suffixNone)
    | .segments (_ :: _) => none

/-! ## Reading and writing the fields -/

theorem suffixKind_eq (small : VersionSmall) :
    small.suffixKind = small.repr.toNat / 2 ^ 20 % 2 ^ 4 :=
  BitField.toNat_getField small.repr 20 4 (by omega)

theorem suffixVersion_eq (small : VersionSmall) :
    small.suffixVersion = small.repr.toNat % 2 ^ 20 := by
  have hfield := BitField.toNat_getField small.repr 0 20 (by omega)
  rw [BitVec.ushiftRight_zero, pow_zero, Nat.div_one] at hfield
  exact hfield

theorem suffixVersion_lt (small : VersionSmall) :
    small.suffixVersion < 2 ^ 20 := by
  rw [suffixVersion_eq]
  exact Nat.mod_lt _ (by positivity)

theorem positions_eq (small : VersionSmall) :
    small.positions =
      [small.repr.toNat / 2 ^ 48 % 2 ^ 16, small.repr.toNat / 2 ^ 40 % 2 ^ 8,
        small.repr.toNat / 2 ^ 32 % 2 ^ 8, small.repr.toNat / 2 ^ 24 % 2 ^ 8] := by
  have hfirst := BitField.toNat_getField small.repr 48 16 (by omega)
  have hsecond := BitField.toNat_getField small.repr 40 8 (by omega)
  have hthird := BitField.toNat_getField small.repr 32 8 (by omega)
  have hfourth := BitField.toNat_getField small.repr 24 8 (by omega)
  unfold positions
  rw [← hfirst, ← hsecond, ← hthird, ← hfourth]
  rfl

/-- The release positions only depend on the five high bytes. -/
theorem positions_congr {left right : VersionSmall}
    (hhigh : left.repr.toNat / 2 ^ 24 = right.repr.toNat / 2 ^ 24) :
    left.positions = right.positions := by
  rw [positions_eq, positions_eq]
  congr 1
  · omega
  · congr 1
    · omega
    · congr 1
      · omega
      · rw [hhigh]

theorem repr_setSuffixVersion (small : VersionSmall) {value : ℕ}
    (hvalue : value < 2 ^ 20) :
    (small.setSuffixVersion value).repr.toNat =
      small.repr.toNat / 2 ^ 20 * 2 ^ 20 + value := by
  have hword : (BitVec.ofNat 64 value).toNat = value := by
    rw [BitVec.toNat_ofNat]
    exact Nat.mod_eq_of_lt (by omega)
  have hfield := BitField.toNat_setField small.repr (BitVec.ofNat 64 value) 0 20
    (by omega) (by omega)
  rw [hword, BitVec.shiftLeft_zero, BitVec.shiftLeft_zero, pow_zero,
    Nat.mod_one, mul_one, add_zero, zero_add] at hfield
  exact hfield

/-- Writing the suffix kind keeps the release; it keeps the suffix number too,
unless the new kind has none. -/
theorem repr_setSuffixKind (small : VersionSmall) {kind : ℕ}
    (hkind : kind < 2 ^ 4) :
    (small.setSuffixKind kind).repr.toNat =
      small.repr.toNat / 2 ^ 24 * 2 ^ 24 + kind * 2 ^ 20 +
        if kind = suffixNone ∨ kind = suffixLocal then 0
        else small.repr.toNat % 2 ^ 20 := by
  have hword : (BitVec.ofNat 64 kind).toNat = kind := by
    rw [BitVec.toNat_ofNat]
    exact Nat.mod_eq_of_lt (by omega)
  have hfield := BitField.toNat_setField small.repr (BitVec.ofNat 64 kind) 20 4
    (by omega) (by omega)
  rw [hword] at hfield
  unfold setSuffixKind
  split
  · rw [repr_setSuffixVersion _ (by omega)]
    simp only [suffixKindMask, suffixVersionBitLen]
    rw [show (15#64) = BitVec.ofNat 64 (2 ^ 4 - 1) from rfl, hfield]
    omega
  · simp only [suffixKindMask, suffixVersionBitLen]
    rw [show (15#64) = BitVec.ofNat 64 (2 ^ 4 - 1) from rfl, hfield]

@[simp]
theorem len_setSuffixVersion (small : VersionSmall) (value : ℕ) :
    (small.setSuffixVersion value).len = small.len := rfl

@[simp]
theorem len_setSuffixKind (small : VersionSmall) (kind : ℕ) :
    (small.setSuffixKind kind).len = small.len := by
  unfold setSuffixKind
  split <;> rfl

theorem suffixKind_setSuffixVersion (small : VersionSmall) {value : ℕ}
    (hvalue : value < 2 ^ 20) :
    (small.setSuffixVersion value).suffixKind = small.suffixKind := by
  rw [suffixKind_eq, suffixKind_eq, repr_setSuffixVersion small hvalue]
  omega

theorem suffixVersion_setSuffixVersion (small : VersionSmall) {value : ℕ}
    (hvalue : value < 2 ^ 20) :
    (small.setSuffixVersion value).suffixVersion = value := by
  rw [suffixVersion_eq, repr_setSuffixVersion small hvalue]
  omega

theorem positions_setSuffixVersion (small : VersionSmall) {value : ℕ}
    (hvalue : value < 2 ^ 20) :
    (small.setSuffixVersion value).positions = small.positions := by
  apply positions_congr
  rw [repr_setSuffixVersion small hvalue]
  omega

theorem suffixKind_setSuffixKind (small : VersionSmall) {kind : ℕ}
    (hkind : kind < 2 ^ 4) :
    (small.setSuffixKind kind).suffixKind = kind := by
  rw [suffixKind_eq, repr_setSuffixKind small hkind]
  split <;> omega

theorem suffixVersion_setSuffixKind (small : VersionSmall) {kind : ℕ}
    (hkind : kind < 2 ^ 4) :
    (small.setSuffixKind kind).suffixVersion =
      if kind = suffixNone ∨ kind = suffixLocal then 0
      else small.suffixVersion := by
  rw [suffixVersion_eq, suffixVersion_eq, repr_setSuffixKind small hkind]
  split <;> omega

theorem positions_setSuffixKind (small : VersionSmall) {kind : ℕ}
    (hkind : kind < 2 ^ 4) :
    (small.setSuffixKind kind).positions = small.positions := by
  apply positions_congr
  rw [repr_setSuffixKind small hkind]
  split <;> omega

/-! ## What the setters can do -/

/-- The two words agree on everything but the suffix. -/
def SameRelease (left right : VersionSmall) : Prop :=
  left.len = right.len ∧ left.positions = right.positions

theorem SameRelease.release_eq {left right : VersionSmall}
    (hsame : SameRelease left right) : left.release = right.release := by
  unfold release
  rw [hsame.1, hsame.2]

theorem sameRelease_setSuffixKind (small : VersionSmall) {kind : ℕ}
    (hkind : kind < 2 ^ 4) : SameRelease (small.setSuffixKind kind) small :=
  ⟨len_setSuffixKind small kind, positions_setSuffixKind small hkind⟩

theorem sameRelease_setSuffix (small : VersionSmall) {kind value : ℕ}
    (hkind : kind < 2 ^ 4) (hvalue : value < 2 ^ 20) :
    SameRelease ((small.setSuffixKind kind).setSuffixVersion value) small := by
  constructor
  · rw [len_setSuffixVersion, len_setSuffixKind]
  · rw [positions_setSuffixVersion _ hvalue, positions_setSuffixKind _ hkind]

/-- The suffix after a setter that stored a value with its own kind. -/
structure Stored (kind number : ℕ) (before after : VersionSmall) : Prop where
  same : SameRelease after before
  kind_eq : after.suffixKind = kind
  version_eq : after.suffixVersion = number

/-- The suffix after a setter that removed its value. -/
structure Removed (before after : VersionSmall) : Prop where
  same : SameRelease after before
  kind_eq : after.suffixKind = suffixNone
  version_eq : after.suffixVersion = 0

theorem stored_setSuffix (small : VersionSmall) {kind number : ℕ}
    (hkind : kind < 2 ^ 4) (hnumber : number < 2 ^ 20) :
    Stored kind number small
      ((small.setSuffixKind kind).setSuffixVersion number) where
  same := sameRelease_setSuffix small hkind hnumber
  kind_eq := by
    rw [suffixKind_setSuffixVersion _ hnumber, suffixKind_setSuffixKind _ hkind]
  version_eq := suffixVersion_setSuffixVersion _ hnumber

theorem removed_setSuffixKind (small : VersionSmall) :
    Removed small (small.setSuffixKind suffixNone) where
  same := sameRelease_setSuffixKind small (by decide)
  kind_eq := suffixKind_setSuffixKind small (by decide)
  version_eq := by
    rw [suffixVersion_setSuffixKind small (by decide)]
    simp

theorem suffixVersionMask_toNat : suffixVersionMask.toNat = 2 ^ 20 - 1 := rfl

/-- A successful `set_post`, `set_dev`, `set_min` or `set_max` leaves a foreign
suffix alone, removes its own, or stores the number under its own kind. -/
theorem setNumbered_cases {kind : ℕ} {small after : VersionSmall}
    {value : Option ℕ} (hkind : kind < 2 ^ 4)
    (hset : setNumbered kind small value = some after) :
    (value = none ∧ after = small ∧ small.suffixKind ≠ suffixNone ∧
        small.suffixKind ≠ kind) ∨
      (value = none ∧
        (small.suffixKind = suffixNone ∨ small.suffixKind = kind) ∧
        Removed small after) ∨
      (∃ number, value = some number ∧
        (small.suffixKind = suffixNone ∨ small.suffixKind = kind) ∧
        Stored kind number small after) := by
  unfold setNumbered at hset
  by_cases howned : small.suffixKind = suffixNone ∨ small.suffixKind = kind
  · rw [if_neg (not_not.mpr howned)] at hset
    cases value with
    | none =>
        obtain rfl := Option.some.inj hset
        exact .inr (.inl ⟨rfl, howned, removed_setSuffixKind small⟩)
    | some number =>
        by_cases hnumber : number > suffixVersionMask.toNat
        · simp [hnumber] at hset
        · simp only [hnumber, if_false, Option.some.injEq] at hset
          subst hset
          rw [suffixVersionMask_toNat] at hnumber
          exact .inr (.inr ⟨number, rfl, howned,
            stored_setSuffix small hkind (by omega)⟩)
  · rw [if_pos howned] at hset
    cases value with
    | none =>
        obtain rfl := Option.some.inj hset
        push Not at howned
        exact .inl ⟨rfl, rfl, howned⟩
    | some number => simp at hset

theorem setPre_cases {small after : VersionSmall} {value : Option Prerelease}
    (hset : setPre small value = some after) :
    (value = none ∧ after = small ∧ small.pre = none ∧
        small.suffixKind ≠ suffixNone) ∨
      (value = none ∧
        (small.suffixKind = suffixNone ∨ small.pre.isSome) ∧
        Removed small after) ∨
      (∃ pre, value = some pre ∧
        (small.suffixKind = suffixNone ∨ small.pre.isSome) ∧
        Stored (preSuffix pre.kind) pre.number small after) := by
  unfold setPre at hset
  simp only at hset
  by_cases hkind : small.suffixKind = suffixNone ∨
      small.suffixKind = suffixPreAlpha ∨ small.suffixKind = suffixPreBeta ∨
      small.suffixKind = suffixPreRc
  · rw [if_neg (not_not.mpr hkind)] at hset
    have howned : small.suffixKind = suffixNone ∨ small.pre.isSome := by
      rcases hkind with hkind | hkind | hkind | hkind
      · exact .inl hkind
      all_goals
        right
        simp [pre, hkind, suffixPreAlpha, suffixPreBeta, suffixPreRc]
    cases value with
    | none =>
        obtain rfl := Option.some.inj hset
        exact .inr (.inl ⟨rfl, howned, removed_setSuffixKind small⟩)
    | some value =>
        by_cases hnumber : value.number > suffixVersionMask.toNat
        · simp [hnumber] at hset
        · simp only [hnumber, if_false, Option.some.injEq] at hset
          subst hset
          rw [suffixVersionMask_toNat] at hnumber
          have hpre : preSuffix value.kind < 2 ^ 4 := by
            cases value.kind <;> decide
          exact .inr (.inr ⟨value, rfl, howned,
            stored_setSuffix small hpre (by omega)⟩)
  · rw [if_pos hkind] at hset
    cases value with
    | none =>
        obtain rfl := Option.some.inj hset
        push Not at hkind
        exact .inl ⟨rfl, rfl, by simp [pre, hkind], hkind.1⟩
    | some value => simp at hset

theorem setLocal_cases {small after : VersionSmall} {value : LocalVersion}
    (hset : setLocal small value = some after) :
    (value = .empty ∧ after = small ∧ small.suffixKind ≠ suffixNone ∧
        small.suffixKind ≠ suffixLocal) ∨
      (value = .empty ∧
        (small.suffixKind = suffixNone ∨ small.suffixKind = suffixLocal) ∧
        Removed small after) ∨
      (value = .max ∧
        (small.suffixKind = suffixNone ∨ small.suffixKind = suffixLocal) ∧
        Stored suffixLocal 0 small after) := by
  unfold setLocal at hset
  by_cases howned : small.suffixKind = suffixNone ∨ small.suffixKind = suffixLocal
  · rw [if_neg (not_not.mpr howned)] at hset
    match value, hset with
    | .max, hset =>
        obtain rfl := Option.some.inj hset
        refine .inr (.inr ⟨rfl, howned, ?_⟩)
        refine ⟨sameRelease_setSuffixKind small (by decide),
          suffixKind_setSuffixKind small (by decide), ?_⟩
        rw [suffixVersion_setSuffixKind small (by decide)]
        simp
    | .segments [], hset =>
        obtain rfl := Option.some.inj hset
        exact .inr (.inl ⟨rfl, howned, removed_setSuffixKind small⟩)
    | .segments (_ :: _), hset => simp at hset
  · rw [if_pos howned] at hset
    by_cases hempty : value.isEmpty = true
    · simp only [hempty, if_true, Option.some.injEq] at hset
      push Not at howned
      refine .inl ⟨?_, hset.symm, howned⟩
      match value, hempty with
      | .segments [], _ => rfl
    · simp [hempty] at hset

/-! ## Pushing a release segment -/

/-- What every operation keeps: at most four segments, the unused positions
zero, a known suffix kind, and no number on the kinds that have none.  The
`min` and `max` kinds are only ever stored with the number zero. -/
structure Valid (small : VersionSmall) : Prop where
  len_le : small.len ≤ 4
  unused_eq_zero : ∀ n ∈ small.positions.drop small.len, n = 0
  kind_le : small.suffixKind ≤ suffixMax
  version_eq_zero :
    small.suffixKind = suffixMin ∨ small.suffixKind = suffixNone ∨
      small.suffixKind = suffixLocal ∨ small.suffixKind = suffixMax →
    small.suffixVersion = 0

/-- The part of the invariant that is about the release alone. -/
structure Packed (small : VersionSmall) : Prop where
  len_le : small.len ≤ 4
  unused_eq_zero : ∀ n ∈ small.positions.drop small.len, n = 0

theorem Valid.packed {small : VersionSmall} (hvalid : small.Valid) : small.Packed :=
  ⟨hvalid.len_le, hvalid.unused_eq_zero⟩

theorem valid_new : Valid new where
  len_le := by decide
  unused_eq_zero := by decide
  kind_le := by decide
  version_eq_zero := by decide

/-- The release and the suffix of a packed word after its segments were
replaced. -/
structure Pushed (before after : VersionSmall) (release : List ℕ) : Prop where
  release_eq : after.release = release
  kind_eq : after.suffixKind = before.suffixKind
  version_eq : after.suffixVersion = before.suffixVersion

theorem repr_clearRelease (small : VersionSmall) :
    small.clearRelease.repr.toNat = small.repr.toNat % 2 ^ 24 := by
  have hclear := BitField.toNat_clearField small.repr 24 40 (by omega)
  have hbound := small.repr.isLt
  rw [Nat.div_eq_of_lt (by omega), zero_mul, zero_add] at hclear
  exact hclear

theorem pushed_clearRelease (small : VersionSmall) :
    Pushed small small.clearRelease [] where
  release_eq := rfl
  kind_eq := by
    rw [suffixKind_eq, suffixKind_eq, repr_clearRelease]
    omega
  version_eq := by
    rw [suffixVersion_eq, suffixVersion_eq, repr_clearRelease]
    omega

theorem packed_clearRelease (small : VersionSmall) : small.clearRelease.Packed where
  len_le := by simp [clearRelease]
  unused_eq_zero := by
    have hpositions : small.clearRelease.positions = [0, 0, 0, 0] := by
      rw [positions_eq, repr_clearRelease]
      congr 1
      · omega
      · congr 1
        · omega
        · congr 1
          · omega
          · congr 1
            omega
    rw [hpositions]
    simp [clearRelease]

theorem valid_clearRelease {small : VersionSmall} (hvalid : small.Valid) :
    small.clearRelease.Valid where
  len_le := (packed_clearRelease small).len_le
  unused_eq_zero := (packed_clearRelease small).unused_eq_zero
  kind_le := by
    rw [(pushed_clearRelease small).kind_eq]
    exact hvalid.kind_le
  version_eq_zero := by
    rw [(pushed_clearRelease small).kind_eq,
      (pushed_clearRelease small).version_eq]
    exact hvalid.version_eq_zero

private theorem repr_fill (small : VersionSmall) {offset length n : ℕ}
    (hwidth : offset + length ≤ 64) (hn : n < 2 ^ length)
    (hempty : small.repr.toNat / 2 ^ offset % 2 ^ length = 0) :
    (small.repr ||| (BitVec.ofNat 64 n <<< offset)).toNat =
      small.repr.toNat + n * 2 ^ offset := by
  have hsixtyfour : 2 ^ length ≤ 2 ^ 64 :=
    Nat.pow_le_pow_right (by omega) (by omega)
  have hword : (BitVec.ofNat 64 n).toNat = n := by
    rw [BitVec.toNat_ofNat]
    exact Nat.mod_eq_of_lt (by omega)
  have hfill := BitField.toNat_fillField small.repr (BitVec.ofNat 64 n) offset
    length hwidth (by omega) hempty
  rw [hword] at hfill
  exact hfill

/-- Writing into an unused position keeps the suffix and sets that position. -/
private theorem positions_fill (small after : VersionSmall) (index n : ℕ)
    (hindex : index < 4)
    (hrepr : after.repr.toNat = small.repr.toNat + n * 2 ^ (48 - index * 8))
    (hn : n < if index = 0 then 2 ^ 16 else 2 ^ 8)
    (hempty : small.positions[index]? = some 0) :
    after.positions = small.positions.set index n ∧
      after.suffixKind = small.suffixKind ∧
      after.suffixVersion = small.suffixVersion := by
  have hbound := after.repr.isLt
  rw [positions_eq] at hempty
  rw [positions_eq, positions_eq, suffixKind_eq, suffixKind_eq,
    suffixVersion_eq, suffixVersion_eq, hrepr]
  rw [hrepr] at hbound
  have hcases : index = 0 ∨ index = 1 ∨ index = 2 ∨ index = 3 := by omega
  rcases hcases with rfl | rfl | rfl | rfl <;>
    simp at hempty hrepr hn hbound ⊢ <;> omega

theorem pushed_pushRelease {small after : VersionSmall} {n : ℕ}
    (hpacked : small.Packed) (hpush : small.pushRelease n = some after) :
    Pushed small after (small.release ++ [n]) ∧ after.Packed := by
  have hstep : small.len < 4 ∧ after.len = small.len + 1 ∧
      (n < if small.len = 0 then 2 ^ 16 else 2 ^ 8) ∧
      after.repr = small.repr |||
        (BitVec.ofNat 64 n <<< (48 - small.len * 8)) := by
    unfold pushRelease at hpush
    split at hpush
    · rename_i hlen
      split at hpush
      · simp at hpush
      · obtain rfl := Option.some.inj hpush
        rw [hlen]
        refine ⟨by omega, rfl, ?_, rfl⟩
        rw [if_pos rfl]
        omega
    · rename_i hlen
      split at hpush
      · simp at hpush
      · split at hpush
        · simp at hpush
        · obtain rfl := Option.some.inj hpush
          refine ⟨by omega, rfl, ?_, rfl⟩
          rw [if_neg hlen]
          omega
  obtain ⟨hlen, hafter, hn, hrepr⟩ := hstep
  have hlength : small.positions.length = 4 := rfl
  have hzero : small.positions[small.len]? = some 0 := by
    rw [List.getElem?_eq_getElem (by omega)]
    congr 1
    apply hpacked.unused_eq_zero
    rw [List.mem_drop_iff_getElem]
    exact ⟨0, by omega, by simp⟩
  have hrepr' : after.repr.toNat =
      small.repr.toNat + n * 2 ^ (48 - small.len * 8) := by
    have hempty := hzero
    rw [positions_eq] at hempty
    rw [hrepr]
    by_cases hfirst : small.len = 0
    · rw [if_pos hfirst] at hn
      rw [hfirst] at hempty ⊢
      refine repr_fill small ?_ hn ?_
      · omega
      · simpa using hempty
    · rw [if_neg hfirst] at hn
      have hcases : small.len = 1 ∨ small.len = 2 ∨ small.len = 3 := by omega
      refine repr_fill small (by omega) hn ?_
      rcases hcases with hcase | hcase | hcase <;> rw [hcase] at hempty ⊢ <;>
        simpa using hempty
  obtain ⟨hpositions, hkind, hversion⟩ :=
    positions_fill small after small.len n hlen hrepr' hn hzero
  refine ⟨⟨?_, hkind, hversion⟩, ?_, ?_⟩
  · unfold release
    rw [hpositions, hafter, List.take_add_one, List.getElem?_set_self (by omega),
      List.take_set_of_le (le_refl _)]
    rfl
  · omega
  · intro m hm
    rw [hpositions, hafter, List.drop_set_of_lt (by omega)] at hm
    apply hpacked.unused_eq_zero
    rw [← List.drop_drop] at hm
    exact List.mem_of_mem_drop hm

theorem pushRelease_spec {small after : VersionSmall} {n : ℕ}
    (hvalid : small.Valid) (hpush : small.pushRelease n = some after) :
    Pushed small after (small.release ++ [n]) ∧ after.Valid := by
  obtain ⟨hpushed, hpacked⟩ := pushed_pushRelease hvalid.packed hpush
  refine ⟨hpushed, hpacked.len_le, hpacked.unused_eq_zero, ?_, ?_⟩
  · rw [hpushed.kind_eq]
    exact hvalid.kind_le
  · rw [hpushed.kind_eq, hpushed.version_eq]
    exact hvalid.version_eq_zero

theorem Pushed.valid_of_suffix {before after : VersionSmall}
    (hsame : SameRelease after before) (hvalid : before.Valid)
    (hkind : after.suffixKind ≤ suffixMax)
    (hversion : after.suffixKind = suffixMin ∨ after.suffixKind = suffixNone ∨
        after.suffixKind = suffixLocal ∨ after.suffixKind = suffixMax →
      after.suffixVersion = 0) :
    after.Valid where
  len_le := by
    rw [hsame.1]
    exact hvalid.len_le
  unused_eq_zero := by
    rw [hsame.1, hsame.2]
    exact hvalid.unused_eq_zero
  kind_le := hkind
  version_eq_zero := hversion

theorem Removed.valid {before after : VersionSmall}
    (hremoved : Removed before after) (hvalid : before.Valid) : after.Valid := by
  apply Pushed.valid_of_suffix hremoved.same hvalid
  · rw [hremoved.kind_eq]
    decide
  · intro _
    exact hremoved.version_eq

theorem Stored.valid {kind number : ℕ} {before after : VersionSmall}
    (hstored : Stored kind number before after) (hvalid : before.Valid)
    (hkind : kind ≤ suffixMax)
    (hnumber : kind = suffixMin ∨ kind = suffixNone ∨ kind = suffixLocal ∨
      kind = suffixMax → number = 0) : after.Valid := by
  apply Pushed.valid_of_suffix hstored.same hvalid
  · rw [hstored.kind_eq]
    exact hkind
  · rw [hstored.kind_eq, hstored.version_eq]
    exact hnumber

end VersionSmall

end Uv.Pep440
