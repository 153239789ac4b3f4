import Uv.Pep440.Version

/-!
# The order on versions

`cmpSlow` compares two versions component by component; `cmp` compares the
packed words when both versions are packed.  Both are the comparison of one
linear order: `key` reads a version as a tuple in which absent components take
the extreme values PEP 440 gives them, and trailing zeros of the release are
gone.
-/

namespace Uv.Pep440

open Uv.Core Uv.Core.Order

/-- `Ord for LocalSegment`: a numeric segment is greater than a lexicographic
one. -/
def LocalSegment.cmp : LocalSegment → LocalSegment → Ordering
  | .number n1, .number n2 => compare n1 n2
  | .string s1, .string s2 => List.compareLex compare s1 s2
  | .number _, .string _ => .gt
  | .string _, .number _ => .lt

/-- `Ord for LocalVersionSlice`. -/
def LocalVersion.cmp : LocalVersion → LocalVersion → Ordering
  | .segments lv1, .segments lv2 => List.compareLex LocalSegment.cmp lv1 lv2
  | .segments _, .max => .lt
  | .max, .segments _ => .gt
  | .max, .max => .eq

/-- Compare the release parts of two versions, the shorter one padded with
zeros. -/
def compareRelease (this other : List ℕ) : Ordering :=
  if this.length = other.length then List.compareLex compare this other
  else
    let length := Nat.max this.length other.length
    List.compareLex compare (this.rightpad length 0) (other.rightpad length 0)

/-- The parts attached after the release. -/
structure SortableTuple where
  segment : ℕ
  number : ℕ
  post : Option ℕ
  dev : ℕ
  localVersion : LocalVersion
  deriving DecidableEq

/-- `Ord for Option<u64>`: `None` is smallest. -/
def compareOption : Option ℕ → Option ℕ → Ordering
  | none, none => .eq
  | none, some _ => .lt
  | some _, none => .gt
  | some n1, some n2 => compare n1 n2

def SortableTuple.cmp (this other : SortableTuple) : Ordering :=
  (compare this.segment other.segment).then <|
    (compare this.number other.number).then <|
      (compareOption this.post other.post).then <|
        (compare this.dev other.dev).then <|
          this.localVersion.cmp other.localVersion

/-- The position of a pre-release kind in the order of suffixes. -/
def PrereleaseKind.segment : PrereleaseKind → ℕ
  | .alpha => 2
  | .beta => 3
  | .rc => 4

/-- `sortable_tuple`, on the components it reads. -/
def VersionFull.sortableTuple (parts : VersionFull) : SortableTuple :=
  let post := if parts.max.isSome then some u64Max else parts.post
  match parts.pre, post, parts.dev, parts.min with
  | _pre, post, _dev, some n => ⟨0, 0, post, n, parts.localVersion⟩
  | none, none, some n, none => ⟨1, 0, none, n, parts.localVersion⟩
  | some pre, post, dev, none =>
      ⟨pre.kind.segment, pre.number, post, dev.getD u64Max, parts.localVersion⟩
  | none, none, none, none => ⟨5, 0, none, 0, parts.localVersion⟩
  | none, some post, dev, none =>
      ⟨6, 0, some post, dev.getD u64Max, parts.localVersion⟩

namespace Version

def sortableTuple (version : Version) : SortableTuple :=
  version.makeFull.sortableTuple

def cmpSlow (version other : Version) : Ordering :=
  match compare version.epoch other.epoch with
  | .lt => .lt
  | .gt => .gt
  | .eq =>
      match compareRelease version.release other.release with
      | .lt => .lt
      | .gt => .gt
      | .eq => version.sortableTuple.cmp other.sortableTuple

/-- `Ord for Version`. -/
def cmp (version other : Version) : Ordering :=
  match version, other with
  | .small word, .small word' => compare word.repr.toNat word'.repr.toNat
  | _, _ => version.cmpSlow other

/-- `PartialEq for Version`. -/
def beq (version other : Version) : Bool := version.cmp other == .eq

def lt (version other : Version) : Bool := version.cmp other == .lt
def le (version other : Version) : Bool := (version.cmp other).isLE
def gt (version other : Version) : Bool := version.cmp other == .gt
def ge (version other : Version) : Bool := (version.cmp other).isGE

end Version

/-! ## The key of a version -/

abbrev LocalKey := WithTop (List (List Byte ⊕ₗ ℕ))

def LocalSegment.key : LocalSegment → List Byte ⊕ₗ ℕ
  | .string text => Sum.inlₗ text
  | .number value => Sum.inrₗ value

def LocalVersion.key : LocalVersion → LocalKey
  | .segments parts => ((parts.map LocalSegment.key : List _) : LocalKey)
  | .max => ⊤

abbrev SuffixKey := ℕ ×ₗ ℕ ×ₗ WithBot ℕ ×ₗ ℕ ×ₗ LocalKey

def optionKey : Option ℕ → WithBot ℕ
  | none => ⊥
  | some n => (n : WithBot ℕ)

def SortableTuple.key (tuple : SortableTuple) : SuffixKey :=
  toLex (tuple.segment, toLex (tuple.number, toLex (optionKey tuple.post,
    toLex (tuple.dev, tuple.localVersion.key))))

abbrev VersionKey := ℕ ×ₗ List ℕ ×ₗ SuffixKey

/-- The position of a version in the order: epoch, release without trailing
zeros, suffix. -/
def VersionFull.key (parts : VersionFull) : VersionKey :=
  toLex (parts.epoch, toLex (trimZeros parts.release, parts.sortableTuple.key))

def Version.key (version : Version) : VersionKey := version.makeFull.key

theorem LocalSegment.cmp_eq (left right : LocalSegment) :
    left.cmp right = linearCmp left.key right.key := by
  cases left with
  | number n =>
      cases right with
      | number m =>
          simp only [LocalSegment.cmp, LocalSegment.key]
          rw [← linearCmp_eq_compare]
          exact linearCmp_congr (by simp) (by simp) (by simp)
      | string text =>
          simp only [LocalSegment.cmp, LocalSegment.key]
          rw [eq_comm, linearCmp_eq_gt]
          exact Sum.Lex.inl_lt_inr _ _
  | string text =>
      cases right with
      | number m =>
          simp only [LocalSegment.cmp, LocalSegment.key]
          rw [eq_comm, linearCmp_eq_lt]
          exact Sum.Lex.inl_lt_inr _ _
      | string text' =>
          simp only [LocalSegment.cmp, LocalSegment.key]
          rw [compareLex_eq]
          exact linearCmp_congr (by simp) (by simp) (by simp)

private theorem compareLex_map {α β : Type} [LinearOrder β] (read : α → β)
    {comparison : α → α → Ordering}
    (hread : ∀ left right, comparison left right =
      linearCmp (read left) (read right)) (left right : List α) :
    List.compareLex comparison left right =
      linearCmp (left.map read) (right.map read) := by
  rw [← compareLex_eq]
  induction left generalizing right with
  | nil => cases right <;> simp [List.compareLex]
  | cons x xs ih =>
      cases right with
      | nil => simp [List.compareLex]
      | cons y ys =>
          rw [List.map_cons, List.map_cons, List.compareLex_cons_cons,
            List.compareLex_cons_cons, hread, ih, linearCmp_eq_compare]

theorem LocalVersion.cmp_eq (left right : LocalVersion) :
    left.cmp right = linearCmp left.key right.key := by
  cases left with
  | max =>
      cases right with
      | max => simp [LocalVersion.cmp, LocalVersion.key]
      | segments parts =>
          simp only [LocalVersion.cmp, LocalVersion.key]
          rw [eq_comm, linearCmp_eq_gt]
          exact WithTop.coe_lt_top _
  | segments parts =>
      cases right with
      | max =>
          simp only [LocalVersion.cmp, LocalVersion.key]
          rw [eq_comm, linearCmp_eq_lt]
          exact WithTop.coe_lt_top _
      | segments parts' =>
          simp only [LocalVersion.cmp, LocalVersion.key]
          rw [compareLex_map LocalSegment.key LocalSegment.cmp_eq]
          exact linearCmp_congr WithTop.coe_lt_coe.mpr
            (congrArg WithTop.some) WithTop.coe_lt_coe.mpr

theorem compareOption_eq (left right : Option ℕ) :
    compareOption left right = linearCmp (optionKey left) (optionKey right) := by
  cases left with
  | none =>
      cases right with
      | none => exact (linearCmp_self (⊥ : WithBot ℕ)).symm
      | some m => exact (linearCmp_eq_lt.mpr (WithBot.bot_lt_coe m)).symm
  | some n =>
      cases right with
      | none => exact (linearCmp_eq_gt.mpr (WithBot.bot_lt_coe n)).symm
      | some m =>
          simp only [compareOption, optionKey]
          rw [← linearCmp_eq_compare]
          exact linearCmp_congr WithBot.coe_lt_coe.mpr
            (congrArg WithBot.some) WithBot.coe_lt_coe.mpr

theorem SortableTuple.cmp_eq (left right : SortableTuple) :
    left.cmp right = linearCmp left.key right.key := by
  unfold SortableTuple.cmp SortableTuple.key
  rw [linearCmp_toLex, linearCmp_toLex, linearCmp_toLex, linearCmp_toLex,
    linearCmp_eq_compare, linearCmp_eq_compare, ← compareOption_eq,
    linearCmp_eq_compare, LocalVersion.cmp_eq]

theorem compareRelease_eq (left right : List ℕ) :
    compareRelease left right =
      linearCmp (trimZeros left) (trimZeros right) := by
  unfold compareRelease
  split
  · rename_i hlength
    have hpad := compareLex_rightpad left right (le_refl _) hlength.ge
    unfold List.rightpad at hpad
    rw [← hpad, hlength, Nat.sub_self]
    simp
  · exact compareLex_rightpad left right (Nat.le_max_left _ _)
      (Nat.le_max_right _ _)

namespace Version

/-- `cmp_slow` is the order of the keys. -/
theorem cmpSlow_eq (version other : Version) :
    version.cmpSlow other = linearCmp version.key other.key := by
  unfold cmpSlow key VersionFull.key
  rw [linearCmp_toLex, linearCmp_toLex, epoch_eq, epoch_eq,
    ← linearCmp_eq_compare, compareRelease_eq, SortableTuple.cmp_eq, release_eq,
    release_eq]
  cases linearCmp version.makeFull.epoch other.makeFull.epoch with
  | lt => rfl
  | gt => rfl
  | eq =>
      cases linearCmp (trimZeros version.makeFull.release)
          (trimZeros other.makeFull.release) <;> rfl

end Version

/-! ## The packed order -/

namespace VersionSmall

/-- The packed word is the positional number of its release, its suffix kind
and its suffix number. -/
theorem linearCmp_repr (left right : VersionSmall) :
    linearCmp left.repr.toNat right.repr.toNat =
      (List.compareLex compare left.positions right.positions).then
        ((linearCmp left.suffixKind right.suffixKind).then
          (linearCmp left.suffixVersion right.suffixVersion)) := by
  have hsplit : ∀ small : VersionSmall, small.repr.toNat =
      ((((small.repr.toNat / 2 ^ 48 % 2 ^ 16 * 2 ^ 8 +
        small.repr.toNat / 2 ^ 40 % 2 ^ 8) * 2 ^ 8 +
        small.repr.toNat / 2 ^ 32 % 2 ^ 8) * 2 ^ 8 +
        small.repr.toNat / 2 ^ 24 % 2 ^ 8) * 2 ^ 4 +
        small.repr.toNat / 2 ^ 20 % 2 ^ 4) * 2 ^ 20 +
        small.repr.toNat % 2 ^ 20 := by
    intro small
    have hbound := small.repr.isLt
    omega
  have hmod : ∀ n k : ℕ, n % 2 ^ k < 2 ^ k := fun n k =>
    Nat.mod_lt _ (by positivity)
  rw [hsplit left, hsplit right, linearCmp_mul_add (hmod _ _) (hmod _ _),
    linearCmp_mul_add (hmod _ _) (hmod _ _),
    linearCmp_mul_add (hmod _ _) (hmod _ _),
    linearCmp_mul_add (hmod _ _) (hmod _ _),
    linearCmp_mul_add (hmod _ _) (hmod _ _)]
  simp only [positions_eq, suffixKind_eq, suffixVersion_eq,
    List.compareLex_cons_cons, List.compareLex_nil_nil, Ordering.then_assoc,
    Ordering.eq_then, linearCmp_eq_compare]

/-- The unused positions of a valid word are the padding of its release. -/
theorem Valid.positions_eq_rightpad {small : VersionSmall}
    (hvalid : small.Valid) : small.positions = small.release.rightpad 4 0 := by
  have hlength : small.positions.length = 4 := rfl
  have hdrop : small.positions.drop small.len =
      List.replicate (4 - small.len) 0 := by
    rw [List.eq_replicate_iff]
    refine ⟨?_, hvalid.unused_eq_zero⟩
    rw [List.length_drop, hlength]
  have hrelease : small.release.length = small.len := by
    unfold release
    rw [List.length_take, hlength]
    exact Nat.min_eq_left hvalid.len_le
  unfold List.rightpad
  rw [hrelease, ← hdrop]
  exact (List.take_append_drop small.len small.positions).symm

section Suffix

attribute [local simp] suffixMin suffixDev suffixPreAlpha suffixPreBeta
  suffixPreRc suffixNone suffixLocal suffixPost suffixMax

/-- The suffix components a packed kind and number stand for, as the order
reads them. -/
def suffixKey (kind number : ℕ) : SuffixKey :=
  (Version.ofSuffix [] kind number).sortableTuple.key

private theorem suffixKey_lt {kind number kind' number' : ℕ}
    (hkind : kind ≤ suffixMax) (hkind' : kind' ≤ suffixMax)
    (hnumber : number < 2 ^ 20)
    (hzero : kind = suffixMin ∨ kind = suffixNone ∨ kind = suffixLocal ∨
      kind = suffixMax → number = 0)
    (hzero' : kind' = suffixMin ∨ kind' = suffixNone ∨ kind' = suffixLocal ∨
      kind' = suffixMax → number' = 0)
    (hlt : kind < kind' ∨ kind = kind' ∧ number < number') :
    suffixKey kind number < suffixKey kind' number' := by
  simp only [suffixMax] at hkind hkind'
  rcases hlt with hlt | ⟨rfl, hlt⟩
  · interval_cases kind' <;> interval_cases kind <;>
      simp [suffixKey, Version.ofSuffix, VersionFull.sortableTuple,
        SortableTuple.key, Prod.Lex.toLex_lt_toLex, PrereleaseKind.segment,
        optionKey, LocalVersion.key, LocalVersion.empty, u64Max]
    omega
  · interval_cases kind <;>
      simp_all [suffixKey, Version.ofSuffix, VersionFull.sortableTuple,
        SortableTuple.key, Prod.Lex.toLex_lt_toLex, PrereleaseKind.segment,
        optionKey]

end Suffix

theorem linearCmp_suffix {left right : VersionSmall} (hleft : left.Valid)
    (hright : right.Valid) :
    (linearCmp left.suffixKind right.suffixKind).then
        (linearCmp left.suffixVersion right.suffixVersion) =
      linearCmp (suffixKey left.suffixKind left.suffixVersion)
        (suffixKey right.suffixKind right.suffixVersion) := by
  rw [← linearCmp_toLex]
  apply linearCmp_congr
  · intro hlt
    exact suffixKey_lt hleft.kind_le hright.kind_le left.suffixVersion_lt
      hleft.version_eq_zero hright.version_eq_zero
      (Prod.Lex.toLex_lt_toLex.mp hlt)
  · intro heq
    obtain ⟨hkind, hversion⟩ := Prod.mk.inj (toLex.injective heq)
    rw [hkind, hversion]
  · intro hlt
    exact suffixKey_lt hright.kind_le hleft.kind_le right.suffixVersion_lt
      hright.version_eq_zero hleft.version_eq_zero
      (Prod.Lex.toLex_lt_toLex.mp hlt)

/-- Comparing the words is comparing the versions. -/
theorem linearCmp_repr_eq {left right : VersionSmall} (hleft : left.Valid)
    (hright : right.Valid) :
    linearCmp left.repr.toNat right.repr.toNat =
      linearCmp (Version.small left).key (Version.small right).key := by
  have hlength : ∀ small : VersionSmall, small.release.length ≤ 4 := by
    intro small
    unfold release
    rw [List.length_take]
    exact Nat.min_le_right _ _
  rw [linearCmp_repr, hleft.positions_eq_rightpad, hright.positions_eq_rightpad,
    compareLex_rightpad _ _ (hlength left) (hlength right),
    linearCmp_suffix hleft hright]
  unfold Version.key VersionFull.key
  rw [linearCmp_toLex, linearCmp_toLex]
  exact (Ordering.eq_then ..).symm

end VersionSmall

namespace Version

/-- On valid versions, `cmp` is the order of the keys whichever form the two
versions have. -/
theorem cmp_eq {version other : Version} (hversion : version.Valid)
    (hother : other.Valid) :
    version.cmp other = linearCmp version.key other.key := by
  cases version with
  | full parts => exact cmpSlow_eq _ _
  | small word =>
      cases other with
      | full parts => exact cmpSlow_eq _ _
      | small word' =>
          show compare word.repr.toNat word'.repr.toNat = _
          rw [← linearCmp_eq_compare]
          exact VersionSmall.linearCmp_repr_eq hversion hother

section Valid

variable {version other : Version} (hversion : version.Valid)
  (hother : other.Valid)

include hversion hother

theorem beq_iff : version.beq other = true ↔ version.key = other.key := by
  unfold beq
  rw [beq_iff_eq, cmp_eq hversion hother, linearCmp_eq_eq]

theorem lt_iff : version.lt other = true ↔ version.key < other.key := by
  unfold lt
  rw [beq_iff_eq, cmp_eq hversion hother, linearCmp_eq_lt]

theorem gt_iff : version.gt other = true ↔ other.key < version.key := by
  unfold gt
  rw [beq_iff_eq, cmp_eq hversion hother, linearCmp_eq_gt]

theorem le_iff : version.le other = true ↔ version.key ≤ other.key := by
  unfold le
  rw [cmp_eq hversion hother, ← not_lt, ← linearCmp_eq_gt]
  cases linearCmp version.key other.key <;> simp

theorem ge_iff : version.ge other = true ↔ other.key ≤ version.key := by
  unfold ge
  rw [cmp_eq hversion hother, ← not_lt, ← linearCmp_eq_lt]
  cases linearCmp version.key other.key <;> simp

end Valid

end Version

end Uv.Pep440
