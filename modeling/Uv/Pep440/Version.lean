import Uv.Core.Order
import Uv.Pep440.VersionSmall

/-!
# Versions and their builders

A `Version` is either packed (`VersionSmall`) or stored component by component
(`VersionFull`).  Every builder first tries the packed form and falls back to
the full one, so the two forms of one version exist side by side.

`makeFull` reads any version as its components.  Each builder is specified by
what it does to those components: `makeFull (withPost v x)` is `makeFull v` with
its `post` replaced, whichever form `v` has.
-/

namespace Uv.Pep440

open Uv.Core.Order

/-- `u64::MAX`. -/
def u64Max : ℕ := 2 ^ 64 - 1

/-- `n + 1` on `u64`, as the release profile computes it. -/
def u64Succ (n : ℕ) : ℕ := (n + 1) % 2 ^ 64

theorem u64Succ_of_lt {n : ℕ} (hn : n < u64Max) : u64Succ n = n + 1 := by
  unfold u64Max at hn
  exact Nat.mod_eq_of_lt (by omega)

/-- The full representation of a version. -/
structure VersionFull where
  epoch : ℕ
  release : List ℕ
  pre : Option Prerelease
  post : Option ℕ
  dev : Option ℕ
  localVersion : LocalVersion
  min : Option ℕ
  max : Option ℕ
  deriving DecidableEq

/-- A version number such as `1.2.3` or `4!5.6.7-a8.post9.dev0`. -/
inductive Version where
  | small (word : VersionSmall)
  | full (parts : VersionFull)
  deriving DecidableEq

/-- Various ways to bump a version. -/
inductive BumpCommand where
  | bumpRelease (index : ℕ) (value : Option ℕ)
  | bumpPrerelease (kind : PrereleaseKind) (value : Option ℕ)
  | makeStable
  | bumpPost (value : Option ℕ)
  | bumpDev (value : Option ℕ)

namespace Version

def epoch : Version → ℕ
  | .small word => word.epoch
  | .full parts => parts.epoch

def release : Version → List ℕ
  | .small word => word.release
  | .full parts => parts.release

def pre : Version → Option Prerelease
  | .small word => word.pre
  | .full parts => parts.pre

def post : Version → Option ℕ
  | .small word => word.post
  | .full parts => parts.post

def dev : Version → Option ℕ
  | .small word => word.dev
  | .full parts => parts.dev

def localVersion : Version → LocalVersion
  | .small word => word.localVersion
  | .full parts => parts.localVersion

def min : Version → Option ℕ
  | .small word => word.min
  | .full parts => parts.min

def max : Version → Option ℕ
  | .small word => word.max
  | .full parts => parts.max

def isPre (version : Version) : Bool := version.pre.isSome
def isDev (version : Version) : Bool := version.dev.isSome
def isPost (version : Version) : Bool := version.post.isSome
def isLocal (version : Version) : Bool := !version.localVersion.isEmpty
def anyPrerelease (version : Version) : Bool := version.isPre || version.isDev
def isStable (version : Version) : Bool := !version.isPre && !version.isDev

/-- `make_full`: the components of a version. -/
def makeFull : Version → VersionFull
  | .small word => {
      epoch := word.epoch
      release := word.release
      pre := word.pre
      post := word.post
      dev := word.dev
      localVersion := word.localVersion
      min := word.min
      max := word.max }
  | .full parts => parts

/-- Try a packed setter; where it does not apply, update the full form. -/
def update (version : Version) (packed : VersionSmall → Option VersionSmall)
    (unpacked : VersionFull → VersionFull) : Version :=
  match version with
  | .small word =>
      match packed word with
      | some word => .small word
      | none => .full (unpacked version.makeFull)
  | .full parts => .full (unpacked parts)

def pushRelease (version : Version) (n : ℕ) : Version :=
  version.update (·.pushRelease n)
    fun parts => { parts with release := parts.release ++ [n] }

def clearRelease : Version → Version
  | .small word => .small word.clearRelease
  | .full parts => .full { parts with release := [] }

/-- Set the release numbers.  The source panics when the list is empty. -/
def withRelease (version : Version) (releaseNumbers : List ℕ) : Version :=
  releaseNumbers.foldl pushRelease version.clearRelease

/-- A new version from the segments in the release part. -/
def new (releaseNumbers : List ℕ) : Version :=
  (Version.small .new).withRelease releaseNumbers

def withEpoch (version : Version) (value : ℕ) : Version :=
  version.update (·.setEpoch value) fun parts => { parts with epoch := value }

def withPre (version : Version) (value : Option Prerelease) : Version :=
  version.update (·.setPre value) fun parts => { parts with pre := value }

def withPost (version : Version) (value : Option ℕ) : Version :=
  version.update (·.setPost value) fun parts => { parts with post := value }

def withDev (version : Version) (value : Option ℕ) : Version :=
  version.update (·.setDev value) fun parts => { parts with dev := value }

def withMin (version : Version) (value : Option ℕ) : Version :=
  version.update (·.setMin value) fun parts => { parts with min := value }

def withMax (version : Version) (value : Option ℕ) : Version :=
  version.update (·.setMax value) fun parts => { parts with max := value }

def withoutLocal (version : Version) : Version :=
  version.update (·.setLocal .empty)
    fun parts => { parts with localVersion := .empty }

def withLocalSegments (version : Version) (value : List LocalSegment) :
    Version :=
  if value.isEmpty then version.withoutLocal
  else .full { version.makeFull with localVersion := .segments value }

def withLocal (version : Version) : LocalVersion → Version
  | .segments segments => version.withLocalSegments segments
  | .max => version.update (·.setLocal .max)
      fun parts => { parts with localVersion := .max }

def onlyRelease (version : Version) : Version := new version.release

def onlyMinorRelease (version : Version) : Version :=
  new (version.release.take 2)

/-- The release with trailing zeros trimmed; `0` is a valid version.  In the
source, `last_non_zero == release.len()` never holds, so a version is always
rebuilt from its release. -/
def onlyReleaseTrimmed (version : Version) : Version :=
  if version.release.any (· != 0) then new (trimZeros version.release)
  else new [0]

/-- The version with trailing `.0` release segments removed.  The source panics
when the release is all zero. -/
def withoutTrailingZeros (version : Version) : Version :=
  version.withRelease (trimZeros version.release)

/-- The release after bumping position `index`. -/
def bumpedRelease (old : List ℕ) (index : ℕ) (value : Option ℕ) : List ℕ :=
  (List.range (Nat.max old.length (index + 1))).map fun i =>
    match compare i index with
    | .lt => old.getD i 0
    | .eq => value.getD (u64Succ (old.getD i 0))
    | .gt => 0

def bumpFull (parts : VersionFull) : BumpCommand → VersionFull
  | .bumpRelease index value => { parts with
      pre := none
      post := none
      dev := none
      release := bumpedRelease parts.release index value }
  | .makeStable => { parts with pre := none, post := none, dev := none }
  | .bumpPrerelease kind value => { parts with
      post := none
      dev := none
      pre :=
        match value, parts.pre with
        | some value, _ => some { kind, number := value }
        | none, some pre =>
            if pre.kind = kind then some { kind, number := u64Succ pre.number }
            else some { kind, number := 1 }
        | none, none => some { kind, number := 1 } }
  | .bumpPost value => { parts with
      dev := none
      post :=
        match value, parts.post with
        | some value, _ => some value
        | none, some post => some (u64Succ post)
        | none, none => some 1 }
  | .bumpDev value => { parts with
      dev :=
        match value, parts.dev with
        | some value, _ => some value
        | none, some dev => some (u64Succ dev)
        | none, none => some 1 }

def bump (version : Version) (command : BumpCommand) : Version :=
  .full (bumpFull version.makeFull command)

/-! ## The accessors read the components -/

theorem epoch_eq (version : Version) :
    version.epoch = version.makeFull.epoch := by
  cases version <;> rfl

theorem release_eq (version : Version) :
    version.release = version.makeFull.release := by
  cases version <;> rfl

theorem pre_eq (version : Version) : version.pre = version.makeFull.pre := by
  cases version <;> rfl

theorem post_eq (version : Version) : version.post = version.makeFull.post := by
  cases version <;> rfl

theorem dev_eq (version : Version) : version.dev = version.makeFull.dev := by
  cases version <;> rfl

theorem localVersion_eq (version : Version) :
    version.localVersion = version.makeFull.localVersion := by
  cases version <;> rfl

theorem min_eq (version : Version) : version.min = version.makeFull.min := by
  cases version <;> rfl

theorem max_eq (version : Version) : version.max = version.makeFull.max := by
  cases version <;> rfl

/-! ## The invariant, and what each builder does to the components -/

/-- A version whose packed word, if it has one, is well formed. -/
def Valid : Version → Prop
  | .small word => word.Valid
  | .full _ => True

theorem update_spec {version : Version}
    {packed : VersionSmall → Option VersionSmall}
    {unpacked : VersionFull → VersionFull}
    (hpacked : ∀ word after, version = .small word →
      packed word = some after →
        (Version.small after).makeFull = unpacked (Version.small word).makeFull) :
    (version.update packed unpacked).makeFull = unpacked version.makeFull := by
  cases version with
  | full parts => rfl
  | small word =>
      cases hafter : packed word with
      | none =>
          simp only [update, hafter]
          rfl
      | some after =>
          simp only [update, hafter]
          exact hpacked word after rfl hafter

theorem update_valid {version : Version}
    {packed : VersionSmall → Option VersionSmall}
    {unpacked : VersionFull → VersionFull}
    (hvalid : version.Valid)
    (hpacked : ∀ word after, word.Valid → packed word = some after →
      after.Valid) :
    (version.update packed unpacked).Valid := by
  cases version with
  | full parts => trivial
  | small word =>
      cases hafter : packed word with
      | none =>
          simp only [update, hafter]
          trivial
      | some after =>
          simp only [update, hafter]
          exact hpacked word after hvalid hafter

/-- A version whose packed word, if it has one, has a well-formed release. -/
def Packed : Version → Prop
  | .small word => word.Packed
  | .full _ => True

@[simp]
theorem makeFull_pushRelease {version : Version} (hpacked : version.Packed)
    (n : ℕ) :
    (version.pushRelease n).makeFull =
      { version.makeFull with release := version.release ++ [n] } := by
  rw [release_eq]
  apply update_spec
  intro word after hword hpush
  subst hword
  obtain ⟨hpushed, -⟩ := VersionSmall.pushed_pushRelease hpacked hpush
  simp only [makeFull, VersionSmall.epoch, VersionSmall.pre, VersionSmall.post,
    VersionSmall.dev, VersionSmall.min, VersionSmall.max,
    VersionSmall.localVersion, VersionSmall.numbered, hpushed.release_eq,
    hpushed.kind_eq, hpushed.version_eq]

theorem packed_pushRelease {version : Version} (hpacked : version.Packed) (n : ℕ) :
    (version.pushRelease n).Packed := by
  cases version with
  | full parts => trivial
  | small word =>
      cases hpush : word.pushRelease n with
      | none =>
          simp only [pushRelease, update, hpush]
          trivial
      | some after =>
          simp only [pushRelease, update, hpush]
          exact (VersionSmall.pushed_pushRelease hpacked hpush).2

theorem valid_pushRelease {version : Version} (hvalid : version.Valid) (n : ℕ) :
    (version.pushRelease n).Valid :=
  update_valid hvalid fun _ _ hword hpush =>
    (VersionSmall.pushRelease_spec hword hpush).2

@[simp]
theorem makeFull_clearRelease (version : Version) :
    version.clearRelease.makeFull = { version.makeFull with release := [] } := by
  cases version with
  | full parts => rfl
  | small word =>
      have hpushed := VersionSmall.pushed_clearRelease word
      simp only [clearRelease, makeFull, VersionSmall.epoch, VersionSmall.pre,
        VersionSmall.post, VersionSmall.dev, VersionSmall.min, VersionSmall.max,
        VersionSmall.localVersion, VersionSmall.numbered, hpushed.release_eq,
        hpushed.kind_eq, hpushed.version_eq]

theorem packed_clearRelease (version : Version) : version.clearRelease.Packed := by
  cases version with
  | full parts => trivial
  | small word => exact VersionSmall.packed_clearRelease word

theorem valid_clearRelease {version : Version} (hvalid : version.Valid) :
    version.clearRelease.Valid := by
  cases version with
  | full parts => trivial
  | small word => exact VersionSmall.valid_clearRelease hvalid

theorem foldl_pushRelease_spec (numbers : List ℕ) {version : Version}
    (hpacked : version.Packed) :
    (numbers.foldl pushRelease version).makeFull =
      { version.makeFull with release := version.release ++ numbers } := by
  induction numbers generalizing version with
  | nil =>
      rw [List.append_nil, release_eq]
      rfl
  | cons n numbers ih =>
      rw [List.foldl_cons, ih (packed_pushRelease hpacked n), release_eq,
        makeFull_pushRelease hpacked]
      simp

theorem valid_foldl_pushRelease (numbers : List ℕ) {version : Version}
    (hvalid : version.Valid) : (numbers.foldl pushRelease version).Valid := by
  induction numbers generalizing version with
  | nil => exact hvalid
  | cons n numbers ih => exact ih (valid_pushRelease hvalid n)

/-- Clearing leaves a well-formed release, whatever the word was. -/
@[simp]
theorem makeFull_withRelease (version : Version) (numbers : List ℕ) :
    (version.withRelease numbers).makeFull =
      { version.makeFull with release := numbers } := by
  unfold withRelease
  rw [foldl_pushRelease_spec numbers (packed_clearRelease version), release_eq]
  simp

theorem valid_withRelease {version : Version} (hvalid : version.Valid)
    (numbers : List ℕ) : (version.withRelease numbers).Valid :=
  valid_foldl_pushRelease numbers (valid_clearRelease hvalid)

theorem valid_new (numbers : List ℕ) : (new numbers).Valid :=
  valid_withRelease (show (Version.small .new).Valid from VersionSmall.valid_new)
    numbers

/-- The components of a version that has only a release. -/
def releaseOnly (numbers : List ℕ) : VersionFull where
  epoch := 0
  release := numbers
  pre := none
  post := none
  dev := none
  localVersion := .empty
  min := none
  max := none

@[simp]
theorem makeFull_new (numbers : List ℕ) :
    (new numbers).makeFull = releaseOnly numbers := by
  unfold new
  rw [makeFull_withRelease]
  rfl

@[simp]
theorem makeFull_withEpoch (version : Version) (value : ℕ) :
    (version.withEpoch value).makeFull =
      { version.makeFull with epoch := value } := by
  apply update_spec
  intro word after _ hset
  unfold VersionSmall.setEpoch at hset
  by_cases hvalue : value = 0
  · simp only [hvalue, ne_eq, not_true_eq_false, if_false,
      Option.some.injEq] at hset
    rw [hvalue, hset]
    rfl
  · simp [hvalue] at hset

/-- The components of a packed version with the given release and suffix. -/
def ofSuffix (release : List ℕ) (kind number : ℕ) : VersionFull :=
  { releaseOnly release with
    pre :=
      if kind = VersionSmall.suffixPreAlpha then some ⟨.alpha, number⟩
      else if kind = VersionSmall.suffixPreBeta then some ⟨.beta, number⟩
      else if kind = VersionSmall.suffixPreRc then some ⟨.rc, number⟩
      else none
    post := if kind = VersionSmall.suffixPost then some number else none
    dev := if kind = VersionSmall.suffixDev then some number else none
    localVersion := if kind = VersionSmall.suffixLocal then .max else .empty
    min := if kind = VersionSmall.suffixMin then some number else none
    max := if kind = VersionSmall.suffixMax then some number else none }

theorem makeFull_small (word : VersionSmall) :
    (Version.small word).makeFull =
      ofSuffix word.release word.suffixKind word.suffixVersion := rfl

theorem makeFull_stored {kind number : ℕ} {word after : VersionSmall}
    (hstored : VersionSmall.Stored kind number word after) :
    (Version.small after).makeFull = ofSuffix word.release kind number := by
  rw [makeFull_small, hstored.kind_eq, hstored.version_eq,
    hstored.same.release_eq]

theorem makeFull_removed {word after : VersionSmall}
    (hremoved : VersionSmall.Removed word after) :
    (Version.small after).makeFull =
      ofSuffix word.release VersionSmall.suffixNone 0 := by
  rw [makeFull_small, hremoved.kind_eq, hremoved.version_eq,
    hremoved.same.release_eq]

/-- The numbered setters replace one component, given what that component is
for each suffix kind. -/
private theorem makeFull_setNumbered (kind : ℕ) (hkind : kind < 2 ^ 4)
    (set : VersionFull → Option ℕ → VersionFull)
    (hforeign : ∀ release other number, other ≠ VersionSmall.suffixNone →
      other ≠ kind →
        ofSuffix release other number = set (ofSuffix release other number) none)
    (hremove : ∀ release other number,
      other = VersionSmall.suffixNone ∨ other = kind →
        ofSuffix release VersionSmall.suffixNone 0 =
          set (ofSuffix release other number) none)
    (hstore : ∀ release other number value,
      other = VersionSmall.suffixNone ∨ other = kind →
        ofSuffix release kind value =
          set (ofSuffix release other number) (some value))
    (version : Version) (value : Option ℕ) :
    (version.update (·.setNumbered kind value) (set · value)).makeFull =
      set version.makeFull value := by
  apply update_spec
  intro word after _ hset
  rw [makeFull_small word]
  rcases VersionSmall.setNumbered_cases hkind hset with
    ⟨rfl, rfl, hnone, hother⟩ | ⟨rfl, howned, hremoved⟩ |
      ⟨number, rfl, howned, hstored⟩
  · exact hforeign _ _ _ hnone hother
  · rw [makeFull_removed hremoved]
    exact hremove _ _ _ howned
  · rw [makeFull_stored hstored]
    exact hstore _ _ _ _ howned

section Setters

attribute [local simp] ofSuffix releaseOnly VersionSmall.suffixMin
  VersionSmall.suffixDev VersionSmall.suffixPreAlpha VersionSmall.suffixPreBeta
  VersionSmall.suffixPreRc VersionSmall.suffixNone VersionSmall.suffixLocal
  VersionSmall.suffixPost VersionSmall.suffixMax

@[simp]
theorem makeFull_withPost (version : Version) (value : Option ℕ) :
    (version.withPost value).makeFull =
      { version.makeFull with post := value } := by
  refine makeFull_setNumbered VersionSmall.suffixPost (by decide)
    (fun parts value => { parts with post := value }) ?_ ?_ ?_ version value
  · intro release other number hnone hother
    simp_all
  · rintro release other number (rfl | rfl) <;> simp
  · rintro release other number value (rfl | rfl) <;> simp

@[simp]
theorem makeFull_withDev (version : Version) (value : Option ℕ) :
    (version.withDev value).makeFull =
      { version.makeFull with dev := value } := by
  refine makeFull_setNumbered VersionSmall.suffixDev (by decide)
    (fun parts value => { parts with dev := value }) ?_ ?_ ?_ version value
  · intro release other number hnone hother
    simp_all
  · rintro release other number (rfl | rfl) <;> simp
  · rintro release other number value (rfl | rfl) <;> simp

@[simp]
theorem makeFull_withMin (version : Version) (value : Option ℕ) :
    (version.withMin value).makeFull =
      { version.makeFull with min := value } := by
  refine makeFull_setNumbered VersionSmall.suffixMin (by decide)
    (fun parts value => { parts with min := value }) ?_ ?_ ?_ version value
  · intro release other number hnone hother
    simp_all
  · rintro release other number (rfl | rfl) <;> simp
  · rintro release other number value (rfl | rfl) <;> simp

@[simp]
theorem makeFull_withMax (version : Version) (value : Option ℕ) :
    (version.withMax value).makeFull =
      { version.makeFull with max := value } := by
  refine makeFull_setNumbered VersionSmall.suffixMax (by decide)
    (fun parts value => { parts with max := value }) ?_ ?_ ?_ version value
  · intro release other number hnone hother
    simp_all
  · rintro release other number (rfl | rfl) <;> simp
  · rintro release other number value (rfl | rfl) <;> simp

@[simp]
theorem makeFull_withPre (version : Version) (value : Option Prerelease) :
    (version.withPre value).makeFull =
      { version.makeFull with pre := value } := by
  apply update_spec
  intro word after _ hset
  have howned : word.suffixKind = VersionSmall.suffixNone ∨ word.pre.isSome →
      ∀ pre : Option Prerelease, { ofSuffix word.release word.suffixKind
          word.suffixVersion with pre := pre } =
        { releaseOnly word.release with pre := pre } := by
    intro hcases pre
    rcases hcases with hnone | hsome
    · simp [hnone]
    · unfold VersionSmall.pre at hsome
      split at hsome
      · simp_all
      · split at hsome
        · simp_all
        · split at hsome
          · simp_all
          · simp at hsome
  rcases VersionSmall.setPre_cases hset with
    ⟨rfl, rfl, hpre, -⟩ | ⟨rfl, hcases, hremoved⟩ |
      ⟨pre, rfl, hcases, hstored⟩
  · simp only [makeFull, hpre]
  · rw [makeFull_removed hremoved, makeFull_small, howned hcases]
    simp
  · rw [makeFull_stored hstored, makeFull_small, howned hcases]
    obtain ⟨kind, number⟩ := pre
    cases kind <;> simp [VersionSmall.preSuffix]

private theorem makeFull_setLocal {word after : VersionSmall}
    {value : LocalVersion} (hset : word.setLocal value = some after) :
    (Version.small after).makeFull =
      { (Version.small word).makeFull with localVersion := value } := by
  rw [makeFull_small word]
  rcases VersionSmall.setLocal_cases hset with
    ⟨rfl, rfl, hnone, hother⟩ | ⟨rfl, howned, hremoved⟩ |
      ⟨rfl, howned, hstored⟩
  · rw [makeFull_small]
    simp_all
  · rw [makeFull_removed hremoved]
    rcases howned with hkind | hkind <;> simp [hkind]
  · rw [makeFull_stored hstored]
    rcases howned with hkind | hkind <;> simp [hkind]

@[simp]
theorem makeFull_withoutLocal (version : Version) :
    version.withoutLocal.makeFull =
      { version.makeFull with localVersion := .empty } :=
  update_spec fun _ _ _ hset => makeFull_setLocal hset

@[simp]
theorem makeFull_withLocal (version : Version) (value : LocalVersion) :
    (version.withLocal value).makeFull =
      { version.makeFull with localVersion := value } := by
  match value with
  | .max =>
      unfold withLocal
      apply update_spec
      intro word after _ hset
      exact makeFull_setLocal hset
  | .segments [] => exact makeFull_withoutLocal version
  | .segments (_ :: _) => rfl

end Setters

private theorem valid_setNumbered (kind : ℕ) (hkind : kind ≤ VersionSmall.suffixMax)
    {version : Version} {value : Option ℕ} {set : VersionFull → VersionFull}
    (hvalid : version.Valid)
    (hvalue : kind = VersionSmall.suffixMin ∨ kind = VersionSmall.suffixNone ∨
        kind = VersionSmall.suffixLocal ∨ kind = VersionSmall.suffixMax →
      ∀ number, value = some number → number = 0) :
    (version.update (·.setNumbered kind value) set).Valid := by
  refine update_valid hvalid fun word after hword hset => ?_
  have hsmall : kind < 2 ^ 4 := lt_of_le_of_lt hkind (by decide)
  rcases VersionSmall.setNumbered_cases hsmall hset with
    ⟨-, rfl, -, -⟩ | ⟨-, -, hremoved⟩ | ⟨number, hnumber, -, hstored⟩
  · exact hword
  · exact hremoved.valid hword
  · exact hstored.valid hword hkind fun hcases => hvalue hcases number hnumber

theorem valid_withPost {version : Version} (hvalid : version.Valid)
    (value : Option ℕ) : (version.withPost value).Valid :=
  valid_setNumbered VersionSmall.suffixPost (by decide) hvalid
    (fun hcases => absurd hcases (by decide))

theorem valid_withDev {version : Version} (hvalid : version.Valid)
    (value : Option ℕ) : (version.withDev value).Valid :=
  valid_setNumbered VersionSmall.suffixDev (by decide) hvalid
    (fun hcases => absurd hcases (by decide))

theorem valid_withMin {version : Version} (hvalid : version.Valid)
    {value : Option ℕ} (hvalue : value = none ∨ value = some 0) :
    (version.withMin value).Valid :=
  valid_setNumbered VersionSmall.suffixMin (by decide) hvalid
    (by rintro - number rfl; simpa using hvalue)

theorem valid_withMax {version : Version} (hvalid : version.Valid)
    {value : Option ℕ} (hvalue : value = none ∨ value = some 0) :
    (version.withMax value).Valid :=
  valid_setNumbered VersionSmall.suffixMax (by decide) hvalid
    (by rintro - number rfl; simpa using hvalue)

theorem valid_withEpoch {version : Version} (hvalid : version.Valid)
    (value : ℕ) : (version.withEpoch value).Valid := by
  refine update_valid hvalid fun word after hword hset => ?_
  unfold VersionSmall.setEpoch at hset
  split at hset
  · simp at hset
  · exact Option.some.inj hset ▸ hword

theorem valid_withPre {version : Version} (hvalid : version.Valid)
    (value : Option Prerelease) : (version.withPre value).Valid := by
  refine update_valid hvalid fun word after hword hset => ?_
  rcases VersionSmall.setPre_cases hset with
    ⟨-, rfl, -, -⟩ | ⟨-, -, hremoved⟩ | ⟨pre, -, -, hstored⟩
  · exact hword
  · exact hremoved.valid hword
  · apply hstored.valid hword
    · cases pre.kind <;> decide
    · intro hcases
      exact absurd hcases (by cases pre.kind <;> decide)

private theorem valid_setLocal {word after : VersionSmall}
    {value : LocalVersion} (hword : word.Valid)
    (hset : word.setLocal value = some after) : after.Valid := by
  rcases VersionSmall.setLocal_cases hset with
    ⟨-, rfl, -, -⟩ | ⟨-, -, hremoved⟩ | ⟨-, -, hstored⟩
  · exact hword
  · exact hremoved.valid hword
  · exact hstored.valid hword (by decide) fun _ => rfl

theorem valid_withoutLocal {version : Version} (hvalid : version.Valid) :
    version.withoutLocal.Valid :=
  update_valid hvalid fun _ _ hword hset => valid_setLocal hword hset

theorem valid_withLocal {version : Version} (hvalid : version.Valid)
    (value : LocalVersion) : (version.withLocal value).Valid := by
  match value with
  | .max =>
      unfold withLocal
      apply update_valid hvalid
      intro word after hword hset
      exact valid_setLocal hword hset
  | .segments [] => exact valid_withoutLocal hvalid
  | .segments (_ :: _) => trivial

theorem valid_onlyReleaseTrimmed (version : Version) :
    version.onlyReleaseTrimmed.Valid := by
  unfold onlyReleaseTrimmed
  split <;> exact valid_new _

end Version

end Uv.Pep440
