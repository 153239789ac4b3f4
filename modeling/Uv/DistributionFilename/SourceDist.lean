import Uv.DistributionFilename.Wheel

/-!
# Source distribution names

The name of a source distribution starts with the name of its package, which has to be known to
find the version.  The extension comes from the path; paths are those of Unix.
-/

namespace Uv.DistributionFilename

open Uv.Pep440 Uv.Pep508 Uv.PlatformTags

/-! ## Paths -/

/-- The last component, unless it is `..`. -/
def fileName (path : Text) : Option Text :=
  match (path.splitOn '/').reverse.dropWhile fun part => part = [] || part = ['.'] with
  | [] => none
  | part :: _ => if part = ['.', '.'] then none else some part

/-- Before and after the last such character. -/
def rsplitOnce (c : Char) (text : Text) : Option (Text × Text) :=
  (splitOnce c text.reverse).map fun parts => (parts.2.reverse, parts.1.reverse)

/-- A file name before and after its last dot; a dot at the start does not count. -/
def rsplitFileAtDot (file : Text) : Option Text × Option Text :=
  if file = ['.', '.'] then (some file, none)
  else
    match rsplitOnce '.' file with
    | none => (none, some file)
    | some (before, after) =>
        if before = [] then (some file, none) else (some before, some after)

def pathExtension (path : Text) : Option Text :=
  (fileName path).bind fun file =>
    let parts := rsplitFileAtDot file
    parts.1.bind fun _ => parts.2

def fileStem (path : Text) : Option Text :=
  (fileName path).bind fun file =>
    let parts := rsplitFileAtDot file
    parts.1.or parts.2

/-! ## Extensions -/

inductive SourceDistExtension where
  | tar
  | tarBz2
  | tarGz
  | tarLz
  | tarLzma
  | tarXz
  | tarZst
  | tbz
  | tgz
  | tlz
  | txz
  | zip
  deriving DecidableEq

inductive DistExtension where
  | wheel
  | source (extension : SourceDistExtension)
  deriving DecidableEq

inductive ExtensionError where
  | dist
  | sourceDist
  deriving DecidableEq

namespace SourceDistExtension

def name : SourceDistExtension → String
  | .tar => "tar"
  | .tarBz2 => "tar.bz2"
  | .tarGz => "tar.gz"
  | .tarLz => "tar.lz"
  | .tarLzma => "tar.lzma"
  | .tarXz => "tar.xz"
  | .tarZst => "tar.zst"
  | .tbz => "tbz"
  | .tgz => "tgz"
  | .tlz => "tlz"
  | .txz => "txz"
  | .zip => "zip"

/-- The path is a tar file. -/
def isTar (path : Text) : Bool :=
  (fileStem path).any fun stem =>
    (pathExtension stem).any fun ext => ext.map Char.toLower = "tar".toList

/-- The extensions on their own. -/
def ofExtension (ext : Text) : Option SourceDistExtension :=
  if ext = "zip".toList then some .zip
  else if ext = "tar".toList then some .tar
  else if ext = "tgz".toList then some .tgz
  else if ext = "tbz".toList then some .tbz
  else if ext = "txz".toList then some .txz
  else if ext = "tlz".toList then some .tlz
  else none

/-- The extensions after `.tar`. -/
def ofTarExtension (ext : Text) : Option SourceDistExtension :=
  if ext = "gz".toList then some .tarGz
  else if ext = "bz2".toList then some .tarBz2
  else if ext = "xz".toList then some .tarXz
  else if ext = "lz".toList then some .tarLz
  else if ext = "lzma".toList then some .tarLzma
  else if ext = "zst".toList then some .tarZst
  else none

def fromPath (path : Text) : Except ExtensionError SourceDistExtension :=
  match pathExtension path with
  | none => .error .sourceDist
  | some ext =>
      match ofExtension ext with
      | some extension => .ok extension
      | none =>
          match ofTarExtension ext with
          | some extension => if isTar path then .ok extension else .error .sourceDist
          | none => .error .sourceDist

end SourceDistExtension

def DistExtension.fromPath (path : Text) : Except ExtensionError DistExtension :=
  match pathExtension path with
  | none => .error .dist
  | some ext =>
      if ext = "whl".toList then .ok .wheel
      else
        match SourceDistExtension.fromPath path with
        | .ok extension => .ok (.source extension)
        | .error _ => .error .dist

/-! ## File names -/

structure SourceDistFilename where
  name : PackageName
  version : Version
  extension : SourceDistExtension

inductive SourceDistFilenameErrorKind where
  | extension
  | filename (name : PackageName)
  | packageName (name : Text)
  | version (err : ErrorKind)

structure SourceDistFilenameError where
  filename : Text
  kind : SourceDistFilenameErrorKind

namespace SourceDistFilename

/-- The file name without the extension, by its length. -/
def stem (filename : Text) (extension : SourceDistExtension) : Option Text :=
  takeBytes filename (byteLength filename - (byteLength extension.name.toList + 1))

/-- `SourceDistFilename::parse`. -/
def parse (filename : Text) (extension : SourceDistExtension) (packageName : PackageName) :
    Option (Except SourceDistFilenameError SourceDistFilename) :=
  if byteLength filename ≤ byteLength extension.name.toList + 1 then
    some (.error ⟨filename, .extension⟩)
  else
    (stem filename extension).bind fun stem =>
      if byteLength stem ≤ byteLength packageName.text + 1 then
        some (.error ⟨filename, .filename packageName⟩)
      else
        (takeBytes stem (byteLength packageName.text)).bind fun start =>
          match Name.fromStr start with
          | none => some (.error ⟨filename, .packageName start⟩)
          | some actualPackageName =>
              if actualPackageName ≠ packageName then
                some (.error ⟨filename, .filename packageName⟩)
              else
                (dropBytes stem (byteLength packageName.text + 1)).map fun versionText =>
                  match Version.fromStr (VersionSpecifier.utf8 versionText) with
                  | .error err => .error ⟨filename, .version err⟩
                  | .ok version => .ok ⟨packageName, version, extension⟩

end SourceDistFilename

inductive DistFilename where
  | sourceDistFilename (filename : SourceDistFilename)
  | wheelFilename (filename : WheelFilename)

/-- Parse a file name as the name of a wheel or source distribution. -/
def DistFilename.tryFromFilename (filename : Text) (packageName : PackageName) :
    Option (Option DistFilename) :=
  match DistExtension.fromPath filename with
  | .ok .wheel =>
      (WheelFilename.fromStr filename).map fun result => result.toOption.map .wheelFilename
  | .ok (.source extension) =>
      (SourceDistFilename.parse filename extension packageName).map fun result =>
        result.toOption.map .sourceDistFilename
  | .error _ => some none

/-! ## Boundaries -/

/-- The byte offset is between two characters. -/
def AtBoundary (text : Text) (n : ℕ) : Prop :=
  ∃ before after, text = before ++ after ∧ byteLength before = n

theorem isSome_takeBytes_iff {text : Text} {n : ℕ} :
    (takeBytes text n).isSome = true ↔ AtBoundary text n := by
  constructor
  · intro hsome
    obtain ⟨before, htake⟩ := Option.isSome_iff_exists.mp hsome
    obtain ⟨hlength, after, heq⟩ := takeBytes_eq_some htake
    exact ⟨before, after, heq.symm, hlength⟩
  · rintro ⟨before, after, rfl, rfl⟩
    rw [takeBytes_append]
    rfl

theorem dropBytes_eq_some {text rest : Text} {n : ℕ} (hdrop : dropBytes text n = some rest) :
    ∃ before, text = before ++ rest ∧ byteLength before = n := by
  induction text generalizing n with
  | nil =>
      cases n with
      | zero => exact ⟨[], by simpa [dropBytes] using hdrop, rfl⟩
      | succ n => cases hdrop
  | cons c text ih =>
      cases n with
      | zero => exact ⟨[], by simpa [dropBytes] using hdrop, rfl⟩
      | succ n =>
          rw [dropBytes] at hdrop
          split at hdrop
          · rename_i hle
            obtain ⟨before, rfl, hlength⟩ := ih hdrop
            refine ⟨c :: before, rfl, ?_⟩
            rw [byteLength_cons, hlength]
            omega
          · cases hdrop

theorem isSome_dropBytes_iff {text : Text} {n : ℕ} :
    (dropBytes text n).isSome = true ↔ AtBoundary text n := by
  constructor
  · intro hsome
    obtain ⟨after, hdrop⟩ := Option.isSome_iff_exists.mp hsome
    obtain ⟨before, heq, hlength⟩ := dropBytes_eq_some hdrop
    exact ⟨before, after, heq, hlength⟩
  · rintro ⟨before, after, rfl, rfl⟩
    rw [dropBytes_append]
    rfl

/-- A text has one prefix of a length. -/
theorem prefix_unique {before after other rest : Text} (heq : before ++ after = other ++ rest)
    (hlength : byteLength before = byteLength other) : before = other := by
  have htake := takeBytes_append before after
  rw [heq, hlength, takeBytes_append] at htake
  exact (Option.some.inj htake).symm

/-! ## The separator -/

namespace SourceDistFilename

variable {filename : Text} {extension : SourceDistExtension} {packageName : PackageName}

/-- What a successful run has read: a name of the right length, one byte and a version. -/
theorem parse_eq_ok {dist : SourceDistFilename}
    (hparse : parse filename extension packageName = some (.ok dist)) :
    ∃ start versionText c, stem filename extension = some (start ++ c :: versionText) ∧
      byteLength start = byteLength packageName.text ∧ Name.fromStr start = some packageName ∧
      Version.fromStr (VersionSpecifier.utf8 versionText) = .ok dist.version := by
  unfold parse at hparse
  split at hparse
  · cases hparse
  obtain ⟨stem, hstem, hparse⟩ := Option.bind_eq_some_iff.mp hparse
  split at hparse
  · cases hparse
  obtain ⟨start, hstart, hparse⟩ := Option.bind_eq_some_iff.mp hparse
  split at hparse
  · cases hparse
  rename_i actual hname
  split at hparse
  · cases hparse
  rename_i hactual
  obtain ⟨versionText, hdrop, hparse⟩ := Option.map_eq_some_iff.mp hparse
  split at hparse
  · cases hparse
  rename_i version hversion
  obtain rfl := Except.ok.inj hparse
  obtain ⟨hlength, after, rfl⟩ := takeBytes_eq_some hstart
  obtain ⟨before, heq, hbefore⟩ := dropBytes_eq_some hdrop
  rw [not_not] at hactual
  -- the name is followed by one byte
  have hprefix : start <+: before := by
    refine List.prefix_of_prefix_length_le (List.prefix_append start after)
      ⟨versionText, heq.symm⟩ ?_
    by_contra hlong
    obtain ⟨rest, hrest⟩ := List.prefix_of_prefix_length_le ⟨versionText, heq.symm⟩
      (List.prefix_append start after) (not_le.mp hlong).le
    rw [← hrest, byteLength_append] at hlength
    omega
  obtain ⟨separator, rfl⟩ := hprefix
  rw [byteLength_append, hlength] at hbefore
  cases separator with
  | nil => simp at hbefore
  | cons c separator =>
      cases separator with
      | nil =>
          refine ⟨start, versionText, c, ?_, hlength, hactual ▸ hname, hversion⟩
          rw [hstem, heq]
          simp
      | cons d separator =>
          have hc := c.utf8Size_pos
          have hd := d.utf8Size_pos
          simp only [byteLength_cons] at hbefore
          omega

/-- The character after the name is not looked at: the file name is split at a separator exactly
where it is a dash. -/
theorem splits_at_separator_iff {dist : SourceDistFilename}
    (hparse : parse filename extension packageName = some (.ok dist)) :
    (∃ name version, stem filename extension = some (name ++ '-' :: version) ∧
      Name.fromStr name = some packageName ∧
      Version.fromStr (VersionSpecifier.utf8 version) = .ok dist.version) ↔
    ∃ before after, stem filename extension = some (before ++ '-' :: after) ∧
      byteLength before = byteLength packageName.text := by
  obtain ⟨start, versionText, c, hstem, hlength, hname, hversion⟩ := parse_eq_ok hparse
  constructor
  · rintro ⟨name, version, hstem', hname', -⟩
    refine ⟨name, version, hstem', ?_⟩
    rw [hstem] at hstem'
    have heq := Option.some.inj hstem'
    rw [Name.fromStr_eq_some_iff] at hname hname'
    -- both names are at the start of the stem
    rcases List.prefix_or_prefix_of_prefix (List.prefix_append start (c :: versionText))
      ⟨'-' :: version, heq.symm⟩ with ⟨after, rfl⟩ | ⟨after, rfl⟩
    · rw [validateAndNormalize_append hname hname', List.append_nil, hlength]
    · rw [validateAndNormalize_append hname' hname, List.append_nil] at hlength
      exact hlength
  · rintro ⟨before, after, hstem', hbefore⟩
    rw [hstem] at hstem'
    have heq := Option.some.inj hstem'
    obtain rfl := prefix_unique heq (hlength.trans hbefore.symm)
    obtain ⟨rfl, rfl⟩ := List.cons.inj (List.append_cancel_left heq)
    exact ⟨start, versionText, hstem, hname, hversion⟩

/-- The package `foo`. -/
def foo : PackageName := ⟨"foo".toList, by decide⟩

/-- `foo-1.0.tar.gz`. -/
theorem splits_at_separator_foo : ∃ dist,
    parse "foo-1.0.tar.gz".toList .tarGz foo = some (.ok dist) ∧
    ((∃ name version, stem "foo-1.0.tar.gz".toList .tarGz = some (name ++ '-' :: version) ∧
      Name.fromStr name = some foo ∧
      Version.fromStr (VersionSpecifier.utf8 version) = .ok dist.version) ↔
    ∃ before after, stem "foo-1.0.tar.gz".toList .tarGz = some (before ++ '-' :: after) ∧
      byteLength before = byteLength foo.text) := by
  have hsome : ((parse "foo-1.0.tar.gz".toList .tarGz foo).bind Except.toOption).isSome = true := by
    decide +kernel
  obtain ⟨dist, hdist⟩ := Option.isSome_iff_exists.mp hsome
  obtain ⟨result, hparse, hresult⟩ := Option.bind_eq_some_iff.mp hdist
  cases result with
  | error err => cases hresult
  | ok dist => exact ⟨dist, hparse, splits_at_separator_iff hparse⟩

/-- `foo_1.0.tar.gz` is read as version `1.0` of `foo`. -/
theorem not_splits_at_separator :
    SourceDistExtension.fromPath "foo_1.0.tar.gz".toList = .ok .tarGz ∧
    ∃ dist, parse "foo_1.0.tar.gz".toList .tarGz foo = some (.ok dist) ∧
      ¬ ∃ name version, stem "foo_1.0.tar.gz".toList .tarGz = some (name ++ '-' :: version) ∧
        Name.fromStr name = some foo ∧
        Version.fromStr (VersionSpecifier.utf8 version) = .ok dist.version := by
  refine ⟨by decide +kernel, ?_⟩
  have hsome : ((parse "foo_1.0.tar.gz".toList .tarGz foo).bind Except.toOption).isSome = true := by
    decide +kernel
  obtain ⟨dist, hdist⟩ := Option.isSome_iff_exists.mp hsome
  obtain ⟨result, hparse, hresult⟩ := Option.bind_eq_some_iff.mp hdist
  cases result with
  | error err => cases hresult
  | ok dist =>
      refine ⟨dist, hparse, ?_⟩
      rintro ⟨name, version, hstem, -⟩
      have heq : stem "foo_1.0.tar.gz".toList .tarGz = some "foo_1.0".toList := by decide +kernel
      have hmem : '-' ∈ "foo_1.0".toList := by
        rw [Option.some.inj (heq.symm.trans hstem)]
        simp
      exact absurd hmem (by decide)

end SourceDistFilename

/-! ## Panics -/

theorem intercalate_cons (c : Char) (first : Text) (rest : List Text) :
    [c].intercalate (first :: rest) = first ++ (rest.map (c :: ·)).flatten := by
  induction rest generalizing first with
  | nil => simp [List.intercalate]
  | cons second rest ih =>
      rw [List.intercalate_cons_cons, ih]
      simp

theorem intercalate_append (c : Char) (before : List Text) (part : Text) (after : List Text) :
    ∃ start, [c].intercalate (before ++ part :: after) =
      start ++ part ++ (after.map (c :: ·)).flatten := by
  cases before with
  | nil => exact ⟨[], by rw [List.nil_append, intercalate_cons, List.nil_append]⟩
  | cons first before =>
      refine ⟨first ++ (before.map (c :: ·)).flatten ++ [c], ?_⟩
      rw [List.cons_append, intercalate_cons]
      simp

/-- The end of a path after its file name. -/
theorem fileName_eq_some {path file : Text} (hfile : fileName path = some file) :
    ∃ directory trailing, path = directory ++ file ++ trailing ∧ OneByte trailing := by
  unfold fileName at hfile
  generalize hdropped : ((path.splitOn '/').reverse.dropWhile
    fun part => part = [] || part = ['.']) = dropped at hfile
  cases dropped with
  | nil => cases hfile
  | cons part others =>
      simp only at hfile
      split at hfile
      · cases hfile
      obtain rfl := Option.some.inj hfile
      have hparts := List.takeWhile_append_dropWhile
        (p := fun part => part = [] || part = ['.']) (l := (path.splitOn '/').reverse)
      rw [hdropped] at hparts
      have hparts := congrArg List.reverse hparts
      rw [List.reverse_reverse, List.reverse_append, List.reverse_cons, List.append_assoc,
        List.singleton_append] at hparts
      obtain ⟨directory, hdirectory⟩ := intercalate_append '/' others.reverse part
        ((path.splitOn '/').reverse.takeWhile fun part => part = [] || part = ['.']).reverse
      rw [hparts, List.intercalate_splitOn] at hdirectory
      refine ⟨directory, _, hdirectory, ?_⟩
      intro c hc
      simp only [List.mem_flatten, List.mem_map, List.mem_reverse] at hc
      obtain ⟨_, ⟨skipped, hskipped, rfl⟩, hc⟩ := hc
      have hskipped := List.mem_takeWhile_imp hskipped
      have hone : ∀ d ∈ '/' :: skipped, d = '/' ∨ d = '.' := by
        rcases (by simpa using hskipped : skipped = [] ∨ skipped = ['.']) with rfl | rfl <;> simp
      rcases hone c hc with rfl | rfl <;> decide

theorem rsplitFileAtDot_eq {file before after : Text}
    (hsplit : rsplitFileAtDot file = (some before, some after)) :
    file = before ++ '.' :: after := by
  unfold rsplitFileAtDot at hsplit
  split at hsplit
  · cases hsplit
  split at hsplit
  · cases hsplit
  rename_i parts hparts
  split at hsplit
  · cases hsplit
  obtain ⟨hbefore, hafter⟩ := Prod.mk.inj hsplit
  obtain rfl := Option.some.inj hbefore
  obtain rfl := Option.some.inj hafter
  obtain ⟨reversed, hreversed, heq⟩ := Option.map_eq_some_iff.mp hparts
  obtain ⟨htext, -⟩ := splitOnce_eq_some hreversed
  have hfile := congrArg List.reverse htext
  rw [List.reverse_reverse] at hfile
  obtain ⟨rfl, rfl⟩ := Prod.mk.inj heq
  rw [hfile]
  simp

/-- An extension is at the end of the path. -/
theorem pathExtension_eq_some {path ext : Text} (hext : pathExtension path = some ext) :
    ∃ before trailing, path = before ++ '.' :: ext ++ trailing ∧ OneByte trailing := by
  unfold pathExtension at hext
  obtain ⟨file, hfile, hext⟩ := Option.bind_eq_some_iff.mp hext
  obtain ⟨start, hstart, hafter⟩ := Option.bind_eq_some_iff.mp hext
  obtain ⟨directory, trailing, rfl, htrailing⟩ := fileName_eq_some hfile
  have hsplit := rsplitFileAtDot_eq (Prod.ext hstart hafter : rsplitFileAtDot file = (_, _))
  exact ⟨directory ++ start, trailing, by rw [hsplit]; simp, htrailing⟩

theorem fileStem_eq_some {path ext stem : Text} (hext : pathExtension path = some ext)
    (hstem : fileStem path = some stem) :
    ∃ directory trailing, path = directory ++ stem ++ '.' :: ext ++ trailing ∧
      OneByte trailing := by
  unfold pathExtension at hext
  obtain ⟨file, hfile, hext⟩ := Option.bind_eq_some_iff.mp hext
  obtain ⟨start, hstart, hafter⟩ := Option.bind_eq_some_iff.mp hext
  unfold fileStem at hstem
  rw [hfile, Option.bind_some] at hstem
  simp only [hstart, Option.some_or] at hstem
  obtain rfl := Option.some.inj hstem
  obtain ⟨directory, trailing, rfl, htrailing⟩ := fileName_eq_some hfile
  have hsplit := rsplitFileAtDot_eq (Prod.ext hstart hafter : rsplitFileAtDot file = (_, _))
  exact ⟨directory, trailing, by rw [hsplit]; simp, htrailing⟩

theorem utf8Size_of_toLower {c : Char} (hc : c.toLower.utf8Size = 1) : c.utf8Size = 1 := by
  unfold Char.toLower at hc
  split at hc
  · rename_i hupper
    rw [Char.utf8Size_eq_one_iff]
    exact UInt32.le_trans hupper.2 (by decide)
  · exact hc

namespace SourceDistExtension

theorem ofExtension_eq_some {ext : Text} {extension : SourceDistExtension}
    (hext : ofExtension ext = some extension) : ext = extension.name.toList := by
  unfold ofExtension at hext
  repeat' split at hext
  all_goals first
    | (obtain rfl := Option.some.inj hext
       assumption)
    | cases hext

theorem ofTarExtension_eq_some {ext : Text} {extension : SourceDistExtension}
    (hext : ofTarExtension ext = some extension) :
    "tar.".toList ++ ext = extension.name.toList := by
  unfold ofTarExtension at hext
  repeat' split at hext
  all_goals first
    | (rename_i heq
       obtain rfl := Option.some.inj hext
       rw [heq]
       rfl)
    | cases hext

theorem oneByte_name (extension : SourceDistExtension) : OneByte extension.name.toList := by
  have hall : extension.name.toList.all fun c => c.utf8Size = 1 := by
    cases extension <;> rfl
  simpa [OneByte] using hall

/-- The path ends in as many characters of one byte as the extension and the dot have. -/
theorem fromPath_eq_ok {path : Text} {extension : SourceDistExtension}
    (hpath : fromPath path = .ok extension) : ∃ before trailing, path = before ++ trailing ∧
      OneByte trailing ∧ extension.name.toList.length + 1 ≤ trailing.length := by
  unfold fromPath at hpath
  split at hpath
  · cases hpath
  rename_i ext hext
  have hdot : OneByte ['.'] := by
    intro c hc
    rw [List.mem_singleton.mp hc]
    decide
  split at hpath
  · rename_i found hfound
    obtain rfl := Except.ok.inj hpath
    obtain rfl := ofExtension_eq_some hfound
    obtain ⟨before, trailing, rfl, htrailing⟩ := pathExtension_eq_some hext
    refine ⟨before, ['.'] ++ found.name.toList ++ trailing, by simp,
      (hdot.append (oneByte_name found)).append htrailing, ?_⟩
    simp only [List.length_append, List.length_singleton]
    omega
  split at hpath
  · rename_i found hfound
    split at hpath
    · rename_i htar
      obtain rfl := Except.ok.inj hpath
      have hname := ofTarExtension_eq_some hfound
      -- a tar file: the stem has an extension of its own
      obtain ⟨stem, hstem, hinnerExt⟩ := (Option.any_eq_true _ _).mp htar
      obtain ⟨tar, hinnerExt, hdecide⟩ := (Option.any_eq_true _ _).mp hinnerExt
      have hlower := of_decide_eq_true hdecide
      obtain ⟨directory, trailing, rfl, htrailing⟩ := fileStem_eq_some hext hstem
      obtain ⟨before, inner, rfl, hinner⟩ := pathExtension_eq_some hinnerExt
      have htarOne : OneByte tar := by
        intro c hc
        have hmem : c.toLower ∈ "tar".toList := hlower ▸ List.mem_map_of_mem hc
        exact utf8Size_of_toLower (oneByte_name .tar _ hmem)
      have htarLength : tar.length = 3 := by
        simpa using congrArg List.length hlower
      have hextOne : OneByte ext := by
        intro c hc
        exact oneByte_name found c (hname ▸ List.mem_append_right _ hc)
      refine ⟨directory ++ before, ['.'] ++ tar ++ inner ++ ['.'] ++ ext ++ trailing, by simp,
        ((((hdot.append htarOne).append hinner).append hdot).append hextOne).append htrailing, ?_⟩
      have hlength := congrArg List.length hname
      simp only [List.length_append, List.length_singleton, String.length_toList] at hlength ⊢
      have : "tar.".length = 4 := rfl
      omega
    · cases hpath
  · cases hpath

end SourceDistExtension

/-- The tail of an extension is at a boundary. -/
theorem OneByte.atBoundary (before : Text) {trailing : Text} {n : ℕ}
    (htrailing : OneByte trailing) (hn : n ≤ trailing.length) :
    AtBoundary (before ++ trailing) (byteLength (before ++ trailing) - n) := by
  refine ⟨before ++ trailing.take (trailing.length - n),
    trailing.drop (trailing.length - n), ?_, ?_⟩
  · rw [List.append_assoc, List.take_append_drop]
  · have htake : OneByte (trailing.take (trailing.length - n)) :=
      fun c hc => htrailing c (List.mem_of_mem_take hc)
    rw [byteLength_append, byteLength_append, htake.byteLength_eq, htrailing.byteLength_eq,
      List.length_take]
    omega

namespace SourceDistFilename

variable {filename : Text} {extension : SourceDistExtension} {packageName : PackageName}

/-- The offsets behind the name of the package and behind the byte after it are boundaries, where
the text before them is asked for. -/
def AtNameBoundary (stem : Text) (packageName : PackageName) : Prop :=
  byteLength packageName.text + 1 < byteLength stem →
    AtBoundary stem (byteLength packageName.text) ∧
    ((∃ before after, stem = before ++ after ∧ byteLength before = byteLength packageName.text ∧
      Name.fromStr before = some packageName) →
      AtBoundary stem (byteLength packageName.text + 1))

theorem stem_append (before : Text) {suffix : Text}
    (hsuffix : byteLength suffix = byteLength extension.name.toList + 1) :
    stem (before ++ suffix) extension = some before := by
  unfold stem
  rw [byteLength_append, hsuffix, Nat.add_sub_cancel, takeBytes_append]

/-- The end of the path is as long as the extension. -/
theorem exists_stem (hpath : SourceDistExtension.fromPath filename = .ok extension) :
    ∃ before suffix, filename = before ++ suffix ∧
      byteLength suffix = byteLength extension.name.toList + 1 := by
  obtain ⟨before, trailing, rfl, htrailing, hlength⟩ := SourceDistExtension.fromPath_eq_ok hpath
  obtain ⟨start, suffix, heq, hstart⟩ := htrailing.atBoundary before hlength
  refine ⟨start, suffix, heq, ?_⟩
  have hsum := congrArg byteLength heq
  rw [byteLength_append start, hstart, byteLength_append, htrailing.byteLength_eq] at hsum
  rw [(SourceDistExtension.oneByte_name extension).byteLength_eq]
  omega

theorem isSome_parse_iff (hlong : byteLength extension.name.toList + 1 < byteLength filename) :
    (parse filename extension packageName).isSome = true ↔
      ∃ text, stem filename extension = some text ∧ AtNameBoundary text packageName := by
  unfold parse
  rw [if_neg (not_le.mpr hlong)]
  cases hstem : stem filename extension with
  | none => simp
  | some text =>
      simp only [Option.bind_some, Option.some.injEq, exists_eq_left']
      unfold AtNameBoundary
      by_cases hshort : byteLength text ≤ byteLength packageName.text + 1
      · rw [if_pos hshort]
        simp [not_lt.mpr hshort]
      rw [if_neg hshort]
      cases hstart : takeBytes text (byteLength packageName.text) with
      | none =>
          have hnone : ¬ AtBoundary text (byteLength packageName.text) := by
            rw [← isSome_takeBytes_iff, hstart]
            simp
          simp [hnone, not_le.mp hshort]
      | some start =>
          obtain ⟨hlength, after, rfl⟩ := takeBytes_eq_some hstart
          have hboundary : AtBoundary (start ++ after) (byteLength packageName.text) :=
            ⟨start, after, rfl, hlength⟩
          simp only [Option.bind_some, hboundary, true_and, not_le.mp hshort, true_imp_iff]
          rw [← isSome_dropBytes_iff]
          cases hname : Name.fromStr start with
          | none =>
              simp only [Option.isSome_some, true_iff]
              rintro ⟨before, rest, heq, hbefore, hother⟩
              obtain rfl := prefix_unique heq (hlength.trans hbefore.symm)
              rw [hname] at hother
              cases hother
          | some actual =>
              by_cases hactual : actual = packageName
              · rw [hactual] at hname
                simp only [hactual, ne_eq, not_true_eq_false, if_false, Option.isSome_map]
                exact ⟨fun h _ => h, fun h => h ⟨start, after, rfl, hlength, hname⟩⟩
              · simp only [ne_eq, hactual, not_false_eq_true, if_true, Option.isSome_some, true_iff]
                rintro ⟨before, rest, heq, hbefore, hother⟩
                obtain rfl := prefix_unique heq (hlength.trans hbefore.symm)
                exact absurd (Option.some.inj (hname.symm.trans hother)) hactual

end SourceDistFilename

theorem DistExtension.fromPath_eq_source {path : Text} {extension : SourceDistExtension}
    (hpath : DistExtension.fromPath path = .ok (.source extension)) :
    SourceDistExtension.fromPath path = .ok extension := by
  unfold DistExtension.fromPath at hpath
  split at hpath
  · cases hpath
  split at hpath
  · cases hpath
  split at hpath
  · rename_i found hfound
    obtain rfl := DistExtension.source.inj (Except.ok.inj hpath)
    exact hfound
  · cases hpath

namespace DistFilename

variable {filename : Text} {packageName : PackageName}

/-- A file name never panics as the name of a wheel.  As the name of a source distribution it
does where the name of the package, or the byte after it, ends within a character. -/
theorem isSome_tryFromFilename_iff :
    ((tryFromFilename filename packageName).isSome = true ∧
      ∀ stem name, (WheelFilename.parse stem name).isSome = true) ↔
    ∀ extension stem suffix, DistExtension.fromPath filename = .ok (.source extension) →
      filename = stem ++ suffix → byteLength suffix = byteLength extension.name.toList + 1 →
      SourceDistFilename.AtNameBoundary stem packageName := by
  have hwheel : ∀ stem name, (WheelFilename.parse stem name).isSome = true :=
    WheelFilename.isSome_parse
  simp only [hwheel, implies_true, and_true]
  unfold tryFromFilename
  cases hext : DistExtension.fromPath filename with
  | error err => simp
  | ok dist =>
      cases dist with
      | wheel => simp [WheelFilename.isSome_fromStr]
      | source extension =>
          obtain ⟨before, suffix, rfl, hsuffix⟩ :=
            SourceDistFilename.exists_stem (DistExtension.fromPath_eq_source hext)
          rw [Option.isSome_map]
          have hcondition : (∀ extension' stem suffix',
              Except.ok (DistExtension.source extension) =
                (.ok (.source extension') : Except ExtensionError DistExtension) →
              before ++ suffix = stem ++ suffix' →
              byteLength suffix' = byteLength extension'.name.toList + 1 →
              SourceDistFilename.AtNameBoundary stem packageName) ↔
              SourceDistFilename.AtNameBoundary before packageName := by
            constructor
            · intro h
              exact h extension before suffix rfl rfl hsuffix
            · intro h extension' stem suffix' hsame heq hsuffix'
              obtain rfl := DistExtension.source.inj (Except.ok.inj hsame)
              have hstem := SourceDistFilename.stem_append before hsuffix
              rw [heq, SourceDistFilename.stem_append _ hsuffix'] at hstem
              rwa [Option.some.inj hstem]
          rw [hcondition]
          by_cases hlong : byteLength extension.name.toList + 1 < byteLength (before ++ suffix)
          · rw [SourceDistFilename.isSome_parse_iff hlong, SourceDistFilename.stem_append _ hsuffix]
            simp
          · have hempty : byteLength before = 0 := by
              rw [byteLength_append, hsuffix] at hlong
              omega
            unfold SourceDistFilename.parse SourceDistFilename.AtNameBoundary
            rw [if_pos (not_lt.mp hlong), hempty]
            simp

/-- The name of the package `abc` ends within the last character of `abé`. -/
theorem not_isSome_tryFromFilename :
    tryFromFilename "abé1.zip".toList ⟨"abc".toList, by decide⟩ = none := by
  decide +kernel

end DistFilename

end Uv.DistributionFilename
