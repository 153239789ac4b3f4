import Uv.PlatformTags.TagText

/-!
# Reading displayed tags

A tag that was read is displayed as a text that is read as the tag, with one exception: a CPython
ABI of a version up to 3.7 is displayed with an `m`, also where it was read with a `t`.
-/

namespace Uv.PlatformTags

open Uv.Core

/-! ## Texts -/

theorem stripPrefix_append (start rest : List Char) :
    stripPrefix start (start ++ rest) = some rest := by
  rw [stripPrefix, if_pos (List.isPrefixOf_iff_prefix.mpr (List.prefix_append ..)),
    List.drop_left]

theorem stripSuffix_append (before stop : List Char) :
    stripSuffix stop (before ++ stop) = some before := by
  rw [stripSuffix, if_pos (List.isSuffixOf_iff_suffix.mpr (List.suffix_append ..)),
    List.length_append, Nat.add_sub_cancel, List.take_left]

theorem stripPrefix_eq_some {start text rest : List Char}
    (hstrip : stripPrefix start text = some rest) : text = start ++ rest := by
  unfold stripPrefix at hstrip
  split at hstrip
  · rename_i hstart
    obtain ⟨after, rfl⟩ := List.isPrefixOf_iff_prefix.mp hstart
    rw [List.drop_left] at hstrip
    rw [Option.some.inj hstrip]
  · cases hstrip

theorem stripSuffix_eq_some {stop text before : List Char}
    (hstrip : stripSuffix stop text = some before) : text = before ++ stop := by
  unfold stripSuffix at hstrip
  split at hstrip
  · rename_i hstop
    obtain ⟨start, rfl⟩ := List.isSuffixOf_iff_suffix.mp hstop
    rw [List.length_append, Nat.add_sub_cancel, List.take_left] at hstrip
    rw [Option.some.inj hstrip]
  · cases hstrip

/-! ## Versions -/

theorem isDigit_displayNat {n : ℕ} {c : Char} (hc : c ∈ displayNat n) : c.isDigit = true :=
  Nat.isDigit_of_mem_toDigits (by decide) (by decide) hc

theorem isDigit_displayVersion {major minor : ℕ} {c : Char}
    (hc : c ∈ displayVersion major minor) : c.isDigit = true := by
  rcases List.mem_append.mp hc with hc | hc
  · exact isDigit_displayNat hc
  · exact isDigit_displayNat hc

theorem notMem_displayNat {n : ℕ} {c : Char} (hc : c.isDigit = false) : c ∉ displayNat n := by
  intro hmem
  rw [isDigit_displayNat hmem] at hc
  cases hc

theorem notMem_displayVersion {major minor : ℕ} {c : Char} (hc : c.isDigit = false) :
    c ∉ displayVersion major minor := by
  intro hmem
  rw [isDigit_displayVersion hmem] at hc
  cases hc

/-- The numbers that a version can have. -/
def VersionFits (major minor : ℕ) : Prop := major < 10 ∧ minor < 256

theorem displayVersion_eq {major minor : ℕ} (hmajor : major < 10) :
    displayVersion major minor = Nat.digitChar major :: displayNat minor := by
  rw [displayVersion, displayNat, Nat.toDigits_of_lt_base hmajor, List.singleton_append]

theorem parseVersion_displayVersion {major minor : ℕ} (hfits : VersionFits major minor) :
    parseVersion (displayVersion major minor) = .ok (major, minor) := by
  obtain ⟨hdigit, hvalue, -⟩ := digitChar_facts hfits.1
  have hminor : parseUnsigned 8 (displayNat minor) = .ok minor := parseUnsigned_toDigits hfits.2
  rw [displayVersion_eq hfits.1, parseVersion, if_pos hdigit, hminor, hvalue]

theorem digit_lt {c : Char} (hdigit : c.isDigit = true) : c.toNat - 48 < 10 := by
  simp only [Char.isDigit, ge_iff_le, Bool.and_eq_true, decide_eq_true_eq] at hdigit
  have hc : c.toNat ≤ 57 := UInt32.le_iff_toNat_le.mp hdigit.2
  omega

theorem parseVersion_fits {text : List Char} {version : ℕ × ℕ}
    (hparse : parseVersion text = .ok version) : VersionFits version.1 version.2 ∧
      version.2 < 10 ^ (text.length - 1) := by
  cases text with
  | nil => cases hparse
  | cons c rest =>
      rw [parseVersion] at hparse
      split at hparse
      · rename_i hdigit
        split at hparse
        · rename_i minor hminor
          obtain rfl := Except.ok.inj hparse
          obtain ⟨hbits, hlength⟩ := parseUnsigned_lt hminor
          exact ⟨⟨digit_lt hdigit, hbits⟩, hlength⟩
        · cases hparse
      · cases hparse

/-- A character that neither ends a tag nor separates two. -/
def Plain (c : Char) : Prop := c ≠ '-' ∧ c ≠ '.'

theorem plain_of_all {text : List Char} (hall : (text.all fun c => c != '-' && c != '.') = true) :
    ∀ c ∈ text, Plain c := by
  simpa [Plain] using hall

theorem plain_displayNat {n : ℕ} {c : Char} (hc : c ∈ displayNat n) : Plain c := by
  constructor
  · rintro rfl
    exact notMem_displayNat rfl hc
  · rintro rfl
    exact notMem_displayNat rfl hc

theorem plain_underscore : Plain '_' := ⟨by decide, by decide⟩

theorem plain_displayVersion {major minor : ℕ} {c : Char} (hc : c ∈ displayVersion major minor) :
    Plain c := by
  rcases List.mem_append.mp hc with hc | hc
  · exact plain_displayNat hc
  · exact plain_displayNat hc

theorem mapError_eq_ok {E F A : Type} {f : E → F} {result : Except E A} {value : A}
    (hresult : result.mapError f = .ok value) : result = .ok value := by
  cases result with
  | error err => cases hresult
  | ok found => exact congrArg Except.ok (Except.ok.inj hresult)

theorem map_eq_ok {E A B : Type} {f : A → B} {result : Except E A} {value : B}
    (hresult : result.map f = .ok value) : ∃ found, result = .ok found ∧ f found = value := by
  cases result with
  | error err => cases hresult
  | ok found => exact ⟨found, rfl, Except.ok.inj hresult⟩

/-! ## Language tags -/

namespace LanguageTag

/-- The tags that can be read. -/
def Fits : LanguageTag → Prop
  | .none => True
  | .python major .none => major < 10
  | .python major (some minor) => major < 10 ∧ minor < 100
  | .cpython major minor | .pypy major minor | .graalpy major minor | .pyston major minor =>
      VersionFits major minor

theorem parsePythonVersion_displayVersion {major minor : ℕ} (hfits : VersionFits major minor)
    (implementation : String) (tag : List Char) :
    parsePythonVersion (displayVersion major minor) implementation tag = .ok (major, minor) := by
  rw [parsePythonVersion, parseVersion_displayVersion hfits]
  rfl

theorem sum_utf8Size (text : List Char) (htext : ∀ c ∈ text, c.isDigit = true) :
    (text.map Char.utf8Size).sum = text.length := by
  induction text with
  | nil => rfl
  | cons c text ih =>
      obtain ⟨hc, htext⟩ := List.forall_mem_cons.mp htext
      have hsize : c.utf8Size = 1 := by
        rw [Char.utf8Size_eq_one_iff]
        simp only [Char.isDigit, ge_iff_le, Bool.and_eq_true, decide_eq_true_eq] at hc
        exact UInt32.le_trans hc.2 (by decide)
      rw [List.map_cons, List.sum_cons, hsize, ih htext, List.length_cons, Nat.add_comm]

theorem fromPy_displayNat (s : List Char) {major : ℕ} (hmajor : major < 10) :
    fromPy s (displayNat major) = .ok (.python major .none) := by
  obtain ⟨hdigit, hvalue, hsize⟩ := digitChar_facts hmajor
  rw [displayNat, Nat.toDigits_of_lt_base hmajor]
  simp [fromPy, hsize, hdigit, hvalue]

theorem fromPy_displayVersion (s : List Char) {major minor : ℕ} (hmajor : major < 10)
    (hminor : minor < 100) :
    fromPy s (displayVersion major minor) = .ok (.python major (some minor)) := by
  have hsum := sum_utf8Size (displayVersion major minor) fun c => isDigit_displayVersion
  have hlength : (displayVersion major minor).length = 2 ∨
      (displayVersion major minor).length = 3 := by
    have hpos : 0 < (Nat.toDigits 10 minor).length := Nat.length_toDigits_pos
    have hle := (Nat.length_toDigits_le_iff (b := 10) (k := 2) (by decide) (by decide)).mpr hminor
    rw [displayVersion_eq hmajor, List.length_cons, displayNat]
    omega
  have hfits : VersionFits major minor := ⟨hmajor, by omega⟩
  unfold fromPy
  rcases hlength with hlength | hlength <;>
    (rw [hsum, hlength]
     simp only [parsePythonVersion_displayVersion hfits]
     rfl)

theorem fromPy_ston (s : List Char) {major minor : ℕ} (hfits : VersionFits major minor) :
    fromPy s ("ston".toList ++ displayVersion major minor) = .ok (.pyston major minor) := by
  have hsum : ((("ston".toList ++ displayVersion major minor).map Char.utf8Size).sum) =
      (displayVersion major minor).length + 4 := by
    rw [List.map_append, List.sum_append,
      sum_utf8Size (displayVersion major minor) fun c => isDigit_displayVersion, Nat.add_comm]
    rfl
  unfold fromPy
  rw [hsum]
  simp only [stripPrefix_append, parsePythonVersion_displayVersion hfits]
  rfl

theorem fromStr_py (rest : List Char) :
    fromStr ("py".toList ++ rest) = fromPy ("py".toList ++ rest) rest := rfl

/-- A tag that can be read is read again. -/
theorem fromStr_display {tag : LanguageTag} (hfits : tag.Fits) : fromStr tag.display = .ok tag := by
  cases tag with
  | none => rfl
  | python major minor =>
      cases minor with
      | none =>
          have hread := fromStr_py (displayNat major)
          rw [fromPy_displayNat _ hfits] at hread
          exact hread
      | some minor =>
          have hread := fromStr_py (displayVersion major minor)
          rw [fromPy_displayVersion _ hfits.1 hfits.2] at hread
          exact hread
  | cpython major minor =>
      have hread : fromStr ("cp".toList ++ displayVersion major minor) =
          (parsePythonVersion (displayVersion major minor) "CPython" _).map fun version =>
            .cpython version.1 version.2 := rfl
      rw [parsePythonVersion_displayVersion hfits] at hread
      exact hread
  | pypy major minor =>
      have hread : fromStr ("pp".toList ++ displayVersion major minor) =
          (parsePythonVersion (displayVersion major minor) "PyPy" _).map fun version =>
            .pypy version.1 version.2 := rfl
      rw [parsePythonVersion_displayVersion hfits] at hread
      exact hread
  | graalpy major minor =>
      have hread : fromStr ("graalpy".toList ++ displayVersion major minor) =
          (parsePythonVersion (displayVersion major minor) "GraalPy" _).map fun version =>
            .graalpy version.1 version.2 := rfl
      rw [parsePythonVersion_displayVersion hfits] at hread
      exact hread
  | pyston major minor =>
      have hread := fromStr_py ("ston".toList ++ displayVersion major minor)
      rw [fromPy_ston _ hfits] at hread
      exact hread

theorem plain_display (tag : LanguageTag) : ∀ c ∈ tag.display, Plain c := by
  cases tag with
  | none => exact plain_of_all rfl
  | python major minor =>
      cases minor with
      | none =>
          exact List.forall_mem_append.mpr ⟨plain_of_all rfl, fun c => plain_displayNat⟩
      | some minor =>
          exact List.forall_mem_append.mpr ⟨plain_of_all rfl, fun c => plain_displayVersion⟩
  | cpython major minor | pypy major minor | graalpy major minor | pyston major minor =>
      exact List.forall_mem_append.mpr ⟨plain_of_all rfl, fun c => plain_displayVersion⟩

theorem parsePythonVersion_fits {text tag : List Char} {implementation : String}
    {version : ℕ × ℕ} (hparse : parsePythonVersion text implementation tag = .ok version) :
    VersionFits version.1 version.2 ∧ version.2 < 10 ^ (text.length - 1) :=
  parseVersion_fits (mapError_eq_ok hparse)

theorem length_le_sum (text : List Char) : text.length ≤ (text.map Char.utf8Size).sum := by
  induction text with
  | nil => exact le_refl _
  | cons c text ih =>
      have hc := c.utf8Size_pos
      rw [List.length_cons, List.map_cons, List.sum_cons]
      omega

theorem fits_of_fromPy {s py : List Char} {tag : LanguageTag} (hread : fromPy s py = .ok tag) :
    tag.Fits := by
  unfold fromPy at hread
  have htwo : (py.map Char.utf8Size).sum = 2 ∨ (py.map Char.utf8Size).sum = 3 →
      (parsePythonVersion py "Python" s).map
        (fun version => LanguageTag.python version.1 (some version.2)) = .ok tag → tag.Fits := by
    intro hsum hread
    obtain ⟨version, hversion, rfl⟩ := map_eq_ok hread
    obtain ⟨hfits, hlength⟩ := parsePythonVersion_fits hversion
    have hle := length_le_sum py
    have hpow : 10 ^ (py.length - 1) ≤ 10 ^ 2 := Nat.pow_le_pow_right (by decide) (by omega)
    exact ⟨hfits.1, hlength.trans_le hpow⟩
  split at hread
  · cases hread
  · split at hread
    · cases hread
    · split at hread
      · rename_i hdigit
        obtain rfl := Except.ok.inj hread
        exact digit_lt hdigit
      · cases hread
  · rename_i hsum
    exact htwo (.inl hsum) hread
  · rename_i hsum
    exact htwo (.inr hsum) hread
  · split at hread
    · obtain ⟨version, hversion, rfl⟩ := map_eq_ok hread
      exact (parsePythonVersion_fits hversion).1
    · cases hread

theorem fits_of_fromStr {s : List Char} {tag : LanguageTag} (hread : fromStr s = .ok tag) :
    tag.Fits := by
  unfold fromStr at hread
  split at hread
  · obtain rfl := Except.ok.inj hread
    trivial
  split at hread
  · exact fits_of_fromPy hread
  split at hread
  · obtain ⟨version, hversion, rfl⟩ := map_eq_ok hread
    exact (parsePythonVersion_fits hversion).1
  split at hread
  · obtain ⟨version, hversion, rfl⟩ := map_eq_ok hread
    exact (parsePythonVersion_fits hversion).1
  split at hread
  · obtain ⟨version, hversion, rfl⟩ := map_eq_ok hread
    exact (parsePythonVersion_fits hversion).1
  · cases hread

end LanguageTag

/-! ## ABI tags -/

namespace AbiTag

/-- The tags that can be read. -/
def Fits : AbiTag → Prop
  | .none | .abi3 => True
  | .cpython _ major minor => VersionFits major minor
  | .pypy (some python) major minor => VersionFits python.1 python.2 ∧ VersionFits major minor
  | .pypy .none major minor => VersionFits major minor
  | .graalpy python major minor => VersionFits python.1 python.2 ∧ VersionFits major minor
  | .pyston major minor => VersionFits major minor

/-- The tag that a displayed tag is read as: the old versions of CPython have an `m` instead of
a `t`. -/
def reread : AbiTag → AbiTag
  | .cpython gilDisabled major minor => .cpython (gilDisabled && 7 < minor) major minor
  | tag => tag

theorem parsePythonVersion_displayVersion {major minor : ℕ} (hfits : VersionFits major minor)
    (implementation : String) (tag : List Char) :
    parsePythonVersion (displayVersion major minor) implementation tag = .ok (major, minor) := by
  rw [parsePythonVersion, parseVersion_displayVersion hfits]
  rfl

theorem parseImplVersion_displayVersion {major minor : ℕ} (hfits : VersionFits major minor)
    (implementation : String) (tag : List Char) :
    parseImplVersion (displayVersion major minor) implementation tag = .ok (major, minor) := by
  rw [parseImplVersion, parseVersion_displayVersion hfits]
  rfl

theorem fromCpython_displayVersion (s : List Char) {major minor : ℕ}
    (hfits : VersionFits major minor) {suffix : List Char}
    (hsuffix : ∀ c ∈ suffix, c.isDigit = false) :
    fromCpython s (displayVersion major minor ++ suffix) =
      .ok (.cpython (suffix.getLast? = some 't') major minor) := by
  have htake : (displayVersion major minor ++ suffix).takeWhile Char.isDigit =
      displayVersion major minor := by
    rw [List.takeWhile_append_of_pos fun c => isDigit_displayVersion]
    cases suffix with
    | nil => simp
    | cons c rest =>
        rw [List.takeWhile_cons_of_neg (by simp [hsuffix c List.mem_cons_self]), List.append_nil]
  have hlast : ((displayVersion major minor ++ suffix).getLast? = some 't') =
      (suffix.getLast? = some 't') := by
    rw [List.getLast?_append]
    cases hget : suffix.getLast? with
    | some c => rfl
    | none =>
        have hnot : ¬ (displayVersion major minor).getLast? = some 't' := fun heq =>
          notMem_displayVersion (c := 't') rfl (List.mem_of_getLast? heq)
        simp [hnot]
  unfold fromCpython
  rw [htake, parsePythonVersion_displayVersion hfits]
  simp only [Except.map, hlast]

theorem fromPypy_none (s : List Char) {major minor : ℕ} (hfits : VersionFits major minor) :
    fromPypy s ("_".toList ++ displayVersion major minor) = .ok (.pypy .none major minor) := by
  unfold fromPypy
  simp only [stripPrefix_append, parseImplVersion_displayVersion hfits]
  rfl

theorem fromPypy_some (s : List Char) {python : ℕ × ℕ} {major minor : ℕ}
    (hpython : VersionFits python.1 python.2) (hfits : VersionFits major minor) :
    fromPypy s (displayVersion python.1 python.2 ++ "_pp".toList ++
      displayVersion major minor) = .ok (.pypy (some python) major minor) := by
  have hstrip : stripPrefix "_".toList (displayVersion python.1 python.2 ++ "_pp".toList ++
      displayVersion major minor) = Option.none := by
    rw [displayVersion_eq hpython.1]
    have hne : '_' ≠ Nat.digitChar python.1 := by
      intro heq
      have hdigit := (digitChar_facts hpython.1).1
      rw [← heq] at hdigit
      exact absurd hdigit (by decide)
    simp [stripPrefix, List.isPrefixOf, hne]
  have hsplit : splitOnce '_' (displayVersion python.1 python.2 ++ "_pp".toList ++
      displayVersion major minor) = some (displayVersion python.1 python.2,
        "pp".toList ++ displayVersion major minor) := by
    rw [List.append_assoc]
    exact splitOnce_append (notMem_displayVersion rfl) _
  unfold fromPypy
  simp only [hstrip, hsplit, parsePythonVersion_displayVersion hpython, stripPrefix_append,
    parseImplVersion_displayVersion hfits]
  rfl

theorem fromGraalpy_displayVersion (s : List Char) {python : ℕ × ℕ} {major minor : ℕ}
    (hpython : VersionFits python.1 python.2) (hfits : VersionFits major minor) :
    fromGraalpy s (displayVersion major minor ++ "_".toList ++
      displayVersion python.1 python.2 ++ "_native".toList) =
        .ok (.graalpy python major minor) := by
  have hsplit : splitOnce '_' (displayVersion major minor ++ "_".toList ++
      displayVersion python.1 python.2 ++ "_native".toList) =
        some (displayVersion major minor,
          displayVersion python.1 python.2 ++ "_native".toList) := by
    rw [List.append_assoc, List.append_assoc]
    exact splitOnce_append (notMem_displayVersion rfl) _
  have hsplit' : splitOnce '_' (displayVersion python.1 python.2 ++ "_native".toList) =
      some (displayVersion python.1 python.2, "native".toList) :=
    splitOnce_append (notMem_displayVersion rfl) _
  unfold fromGraalpy
  simp only [hsplit, parseImplVersion_displayVersion hfits, hsplit',
    parsePythonVersion_displayVersion hpython]
  rfl

theorem fromPyston_displayVersion (s : List Char) {major minor : ℕ}
    (hfits : VersionFits major minor) :
    fromPyston s ("_".toList ++ (displayVersion major minor ++ "_x86_64_linux_gnu".toList)) =
      .ok (.pyston major minor) := by
  unfold fromPyston
  simp only [stripPrefix_append, stripSuffix_append, parseImplVersion_displayVersion hfits]
  rfl

theorem display_cpython_eq (gilDisabled : Bool) (major minor : ℕ) :
    (AbiTag.cpython gilDisabled major minor).display =
      if minor ≤ 7 then "cp".toList ++ displayVersion major minor ++ "m".toList
      else if gilDisabled then "cp".toList ++ displayVersion major minor ++ "t".toList
      else "cp".toList ++ displayVersion major minor := rfl

theorem display_cpython (gilDisabled : Bool) (major minor : ℕ) :
    ∃ suffix : List Char, (AbiTag.cpython gilDisabled major minor).display =
        "cp".toList ++ (displayVersion major minor ++ suffix) ∧
      (suffix = "m".toList ∨ suffix = "t".toList ∨ suffix = []) ∧
      decide (suffix.getLast? = some 't') = (gilDisabled && 7 < minor) := by
  rw [display_cpython_eq]
  by_cases hminor : minor ≤ 7
  · rw [if_pos hminor, List.append_assoc]
    exact ⟨_, rfl, .inl rfl, by simp [hminor]⟩
  rw [if_neg hminor]
  cases gilDisabled with
  | true =>
      rw [if_pos rfl, List.append_assoc]
      exact ⟨_, rfl, .inr (.inl rfl), by simp [not_le.mp hminor]⟩
  | false =>
      rw [if_neg Bool.false_ne_true]
      exact ⟨[], by rw [List.append_nil], .inr (.inr rfl), by simp⟩

theorem suffix_facts {suffix : List Char}
    (hsuffix : suffix = "m".toList ∨ suffix = "t".toList ∨ suffix = []) :
    ∀ c ∈ suffix, c.isDigit = false := by
  rcases hsuffix with rfl | rfl | rfl <;> simp

theorem fromStr_cp (rest : List Char) :
    fromStr ("cp".toList ++ rest) = fromCpython ("cp".toList ++ rest) rest := rfl

theorem fromStr_pypy (rest : List Char) :
    fromStr ("pypy".toList ++ rest) = fromPypy ("pypy".toList ++ rest) rest := rfl

theorem fromStr_graalpy (rest : List Char) :
    fromStr ("graalpy".toList ++ rest) = fromGraalpy ("graalpy".toList ++ rest) rest := rfl

theorem fromStr_pyston (rest : List Char) :
    fromStr ("pyston".toList ++ rest) = fromPyston ("pyston".toList ++ rest) rest := rfl

theorem display_pypy_eq (python : ℕ × ℕ) (major minor : ℕ) :
    (AbiTag.pypy (some python) major minor).display = "pypy".toList ++
      (displayVersion python.1 python.2 ++ "_pp".toList ++ displayVersion major minor) := by
  have hdisplay : (AbiTag.pypy (some python) major minor).display = "pypy".toList ++
    displayVersion python.1 python.2 ++ "_pp".toList ++ displayVersion major minor := rfl
  rw [hdisplay, List.append_assoc, List.append_assoc, List.append_assoc]

theorem display_graalpy_eq (python : ℕ × ℕ) (major minor : ℕ) :
    (AbiTag.graalpy python major minor).display = "graalpy".toList ++
      (displayVersion major minor ++ "_".toList ++ displayVersion python.1 python.2 ++
        "_native".toList) := by
  have hdisplay : (AbiTag.graalpy python major minor).display = "graalpy".toList ++
    displayVersion major minor ++ "_".toList ++ displayVersion python.1 python.2 ++
      "_native".toList := rfl
  rw [hdisplay]
  simp only [List.append_assoc]

theorem display_pyston_eq (major minor : ℕ) :
    (AbiTag.pyston major minor).display = "pyston".toList ++ ("_".toList ++
      (displayVersion major minor ++ "_x86_64_linux_gnu".toList)) := by
  have hdisplay : (AbiTag.pyston major minor).display = "pyston_".toList ++
    displayVersion major minor ++ "_x86_64_linux_gnu".toList := rfl
  have hliteral : "pyston_".toList = "pyston".toList ++ "_".toList := rfl
  rw [hdisplay, hliteral]
  simp only [List.append_assoc]

/-- What a displayed tag is read as. -/
theorem fromStr_display {tag : AbiTag} (hfits : tag.Fits) :
    fromStr tag.display = .ok tag.reread := by
  cases tag with
  | none => rfl
  | abi3 => rfl
  | cpython gilDisabled major minor =>
      obtain ⟨suffix, hdisplay, hsuffix, hlast⟩ := display_cpython gilDisabled major minor
      rw [hdisplay, fromStr_cp, fromCpython_displayVersion _ hfits (suffix_facts hsuffix), hlast]
      rfl
  | pypy python major minor =>
      cases python with
      | none =>
          have hread := fromStr_pypy ("_".toList ++ displayVersion major minor)
          rw [fromPypy_none _ hfits] at hread
          exact hread
      | some python =>
          rw [display_pypy_eq, fromStr_pypy, fromPypy_some _ hfits.1 hfits.2]
          rfl
  | graalpy python major minor =>
      rw [display_graalpy_eq, fromStr_graalpy, fromGraalpy_displayVersion _ hfits.1 hfits.2]
      rfl
  | pyston major minor =>
      rw [display_pyston_eq, fromStr_pyston, fromPyston_displayVersion _ hfits]
      rfl

theorem plain_display (tag : AbiTag) : ∀ c ∈ tag.display, Plain c := by
  cases tag with
  | none => exact plain_of_all rfl
  | abi3 => exact plain_of_all rfl
  | cpython gilDisabled major minor =>
      obtain ⟨suffix, hdisplay, hsuffix, -⟩ := display_cpython gilDisabled major minor
      rw [hdisplay]
      simp only [List.forall_mem_append]
      refine ⟨plain_of_all rfl, fun c => plain_displayVersion, ?_⟩
      rcases hsuffix with rfl | rfl | rfl
      · exact plain_of_all rfl
      · exact plain_of_all rfl
      · exact plain_of_all rfl
  | pypy python major minor =>
      cases python with
      | none => exact List.forall_mem_append.mpr ⟨plain_of_all rfl, fun c => plain_displayVersion⟩
      | some python =>
          rw [display_pypy_eq]
          simp only [List.forall_mem_append]
          exact ⟨plain_of_all rfl, ⟨fun c => plain_displayVersion, plain_of_all rfl⟩,
            fun c => plain_displayVersion⟩
  | graalpy python major minor =>
      rw [display_graalpy_eq]
      simp only [List.forall_mem_append]
      exact ⟨plain_of_all rfl, ⟨⟨fun c => plain_displayVersion, plain_of_all rfl⟩,
        fun c => plain_displayVersion⟩, plain_of_all rfl⟩
  | pyston major minor =>
      rw [display_pyston_eq]
      simp only [List.forall_mem_append]
      exact ⟨plain_of_all rfl, plain_of_all rfl, fun c => plain_displayVersion,
        plain_of_all rfl⟩

theorem parsePythonVersion_fits {text tag : List Char} {implementation : String}
    {version : ℕ × ℕ} (hparse : parsePythonVersion text implementation tag = .ok version) :
    VersionFits version.1 version.2 :=
  (parseVersion_fits (mapError_eq_ok hparse)).1

theorem parseImplVersion_fits {text tag : List Char} {implementation : String}
    {version : ℕ × ℕ} (hparse : parseImplVersion text implementation tag = .ok version) :
    VersionFits version.1 version.2 :=
  (parseVersion_fits (mapError_eq_ok hparse)).1

theorem fits_of_fromPypy {s rest : List Char} {tag : AbiTag}
    (hread : fromPypy s rest = .ok tag) : tag.Fits := by
  unfold fromPypy at hread
  split at hread
  · obtain ⟨version, hversion, rfl⟩ := map_eq_ok hread
    exact parseImplVersion_fits hversion
  split at hread
  · cases hread
  split at hread
  · cases hread
  rename_i python hpython
  split at hread
  · cases hread
  · obtain ⟨version, hversion, rfl⟩ := map_eq_ok hread
    exact ⟨parsePythonVersion_fits hpython, parseImplVersion_fits hversion⟩

theorem fits_of_fromGraalpy {s rest : List Char} {tag : AbiTag}
    (hread : fromGraalpy s rest = .ok tag) : tag.Fits := by
  unfold fromGraalpy at hread
  split at hread
  · cases hread
  split at hread
  · cases hread
  rename_i version hversion
  split at hread
  · cases hread
  · obtain ⟨python, hpython, rfl⟩ := map_eq_ok hread
    exact ⟨parsePythonVersion_fits hpython, parseImplVersion_fits hversion⟩

theorem fits_of_fromPyston {s rest : List Char} {tag : AbiTag}
    (hread : fromPyston s rest = .ok tag) : tag.Fits := by
  unfold fromPyston at hread
  split at hread
  · cases hread
  split at hread
  · cases hread
  · obtain ⟨version, hversion, rfl⟩ := map_eq_ok hread
    exact parseImplVersion_fits hversion

theorem fits_of_fromStr {s : List Char} {tag : AbiTag} (hread : fromStr s = .ok tag) :
    tag.Fits := by
  unfold fromStr at hread
  split at hread
  · obtain rfl := Except.ok.inj hread
    trivial
  split at hread
  · obtain rfl := Except.ok.inj hread
    trivial
  split at hread
  · obtain ⟨version, hversion, rfl⟩ := map_eq_ok hread
    exact parsePythonVersion_fits hversion
  split at hread
  · exact fits_of_fromPypy hread
  split at hread
  · exact fits_of_fromGraalpy hread
  split at hread
  · exact fits_of_fromPyston hread
  · cases hread

/-- An old CPython with a `t` at the end, which is displayed with an `m`. -/
def DisplayedWithM (s : List Char) : Prop :=
  ∃ rest major minor, s = "cp".toList ++ rest ∧ rest.getLast? = some 't' ∧
    parseVersion (rest.takeWhile Char.isDigit) = .ok (major, minor) ∧ minor ≤ 7

theorem fromCpython_eq (s rest : List Char) {version : ℕ × ℕ}
    (hversion : parseVersion (rest.takeWhile Char.isDigit) = .ok version) :
    fromCpython s rest = .ok (.cpython (rest.getLast? = some 't') version.1 version.2) := by
  rw [fromCpython, parsePythonVersion, hversion]
  rfl

theorem fromStr_of_displayedWithM {s : List Char} (hs : DisplayedWithM s) :
    ∃ major minor, fromStr s = .ok (.cpython true major minor) ∧ minor ≤ 7 := by
  obtain ⟨rest, major, minor, rfl, hlast, hversion, hminor⟩ := hs
  refine ⟨major, minor, ?_, hminor⟩
  rw [fromStr_cp, fromCpython_eq _ _ hversion]
  simp only [hlast, decide_true]

theorem fromStr_eq_cpython {s : List Char} {gilDisabled : Bool} {major minor : ℕ}
    (hread : fromStr s = .ok (.cpython gilDisabled major minor)) :
    ∃ rest, s = "cp".toList ++ rest ∧ gilDisabled = decide (rest.getLast? = some 't') ∧
      parseVersion (rest.takeWhile Char.isDigit) = .ok (major, minor) := by
  unfold fromStr at hread
  split at hread
  · cases hread
  split at hread
  · cases hread
  split at hread
  · rename_i rest hrest
    obtain ⟨version, hversion, heq⟩ := map_eq_ok hread
    obtain ⟨rfl, rfl, rfl⟩ := AbiTag.cpython.inj heq
    exact ⟨rest, stripPrefix_eq_some hrest, rfl, mapError_eq_ok hversion⟩
  split at hread
  · unfold fromPypy at hread
    split at hread
    · obtain ⟨version, -, heq⟩ := map_eq_ok hread
      cases heq
    split at hread
    · cases hread
    split at hread
    · cases hread
    split at hread
    · cases hread
    · obtain ⟨version, -, heq⟩ := map_eq_ok hread
      cases heq
  split at hread
  · unfold fromGraalpy at hread
    split at hread
    · cases hread
    split at hread
    · cases hread
    split at hread
    · cases hread
    · obtain ⟨version, -, heq⟩ := map_eq_ok hread
      cases heq
  split at hread
  · unfold fromPyston at hread
    split at hread
    · cases hread
    split at hread
    · cases hread
    · obtain ⟨version, -, heq⟩ := map_eq_ok hread
      cases heq
  · cases hread

/-- A tag is displayed and read as another one exactly where it gets an `m`. -/
theorem reread_eq_iff {s : List Char} {tag : AbiTag} (hread : fromStr s = .ok tag) :
    tag.reread = tag ↔ ¬ DisplayedWithM s := by
  constructor
  · intro hsame hs
    obtain ⟨major, minor, hcpython, hminor⟩ := fromStr_of_displayedWithM hs
    obtain rfl := Except.ok.inj (hread.symm.trans hcpython)
    have hgil := (AbiTag.cpython.inj hsame).1
    simp [not_lt.mpr hminor] at hgil
  · intro hs
    cases tag with
    | cpython gilDisabled major minor =>
        obtain ⟨rest, hrest, hgil, hversion⟩ := fromStr_eq_cpython hread
        have hbool : (gilDisabled && decide (7 < minor)) = gilDisabled := by
          cases hdisabled : gilDisabled with
          | false => rfl
          | true =>
              have hlast := of_decide_eq_true (hgil.symm.trans hdisabled)
              have hminor : ¬ minor ≤ 7 := fun hle =>
                hs ⟨rest, major, minor, hrest, hlast, hversion, hle⟩
              simpa using hminor
        rw [reread, hbool]
    | _ => rfl

end AbiTag

/-! ## Platform tags -/

theorem Arch.name_of_fromStr {text : List Char} {arch : Arch}
    (hread : Arch.fromStr text = some arch) : arch.name.toList = text := by
  unfold Arch.fromStr at hread
  have hname := List.find?_some hread
  exact of_decide_eq_true hname

theorem BinaryFormat.name_of_fromStr {text : List Char} {binaryFormat : BinaryFormat}
    (hread : BinaryFormat.fromStr text = some binaryFormat) : binaryFormat.name.toList = text := by
  unfold BinaryFormat.fromStr at hread
  have hname := List.find?_some hread
  exact of_decide_eq_true hname

theorem AndroidAbi.name_of_fromStr {text : List Char} {abi : AndroidAbi}
    (hread : AndroidAbi.fromStr text = some abi) : abi.name.toList = text := by
  unfold AndroidAbi.fromStr at hread
  have hname := List.find?_some hread
  exact of_decide_eq_true hname

theorem IosMultiarch.name_of_fromStr {text : List Char} {multiarch : IosMultiarch}
    (hread : IosMultiarch.fromStr text = some multiarch) : multiarch.name.toList = text := by
  unfold IosMultiarch.fromStr at hread
  have hname := List.find?_some hread
  exact of_decide_eq_true hname

namespace PlatformTag

theorem readWith_eq_ok {s : List Char}
    {others : List (String × (List Char → Except ParsePlatformTagError PlatformTag))}
    {tag : PlatformTag} (hread : readWith s others = .ok tag) :
    ∃ start read rest, (start, read) ∈ others ∧ s = start.toList ++ rest ∧
      read rest = .ok tag := by
  induction others with
  | nil => cases hread
  | cons reader others ih =>
      obtain ⟨start, read⟩ := reader
      rw [readWith] at hread
      split at hread
      · rename_i rest hrest
        exact ⟨start, read, rest, List.mem_cons_self, stripPrefix_eq_some hrest, hread⟩
      · obtain ⟨start, read, rest, hmem, hs, hread⟩ := ih hread
        exact ⟨start, read, rest, List.mem_cons_of_mem _ hmem, hs, hread⟩

/-- No start is the start of another. -/
theorem fromStr_append {start : String} {rest : List Char}
    {read : List Char → Except ParsePlatformTagError PlatformTag}
    (hread : (start, read) ∈ readers (start.toList ++ rest)) :
    fromStr (start.toList ++ rest) = read rest := by
  simp only [readers, List.mem_cons, List.not_mem_nil, or_false, Prod.mk.injEq] at hread
  rcases hread with ⟨rfl, rfl⟩ | ⟨rfl, rfl⟩ | ⟨rfl, rfl⟩ | ⟨rfl, rfl⟩ | ⟨rfl, rfl⟩ | ⟨rfl, rfl⟩ |
    ⟨rfl, rfl⟩ | ⟨rfl, rfl⟩ | ⟨rfl, rfl⟩ | ⟨rfl, rfl⟩ | ⟨rfl, rfl⟩ | ⟨rfl, rfl⟩ | ⟨rfl, rfl⟩ |
    ⟨rfl, rfl⟩ | ⟨rfl, rfl⟩ | ⟨rfl, rfl⟩ | ⟨rfl, rfl⟩ <;> rfl

/-- What follows a platform and a dash. -/
def versionedRest (major minor : ℕ) (text : List Char) : List Char :=
  displayNat major ++ '_' :: (displayNat minor ++ '_' :: text)

theorem displayVersioned_eq (platform : String) (major minor : ℕ) (text : List Char) :
    displayVersioned platform major minor text =
      platform.toList ++ "_".toList ++ versionedRest major minor text := by
  simp only [displayVersioned, versionedRest, List.append_assoc]
  rfl

theorem parseVersioned_versionedRest {major minor : ℕ} {text : List Char}
    (hmajor : major < 2 ^ 16) (hminor : minor < 2 ^ 16) (htext : text ≠ [])
    (platform : String) (s : List Char) :
    parseVersioned platform s (versionedRest major minor text) = .ok (major, minor, text) := by
  unfold parseVersioned versionedRest
  simp only [splitOnce_append (notMem_displayNat (c := '_') rfl)]
  simp only [displayNat, parseUnsigned_toDigits hmajor, parseUnsigned_toDigits hminor,
    List.isEmpty_iff, htext, if_false]

theorem parseVersioned_eq_ok {platform : String} {s rest : List Char}
    {parts : ℕ × ℕ × List Char} (hparse : parseVersioned platform s rest = .ok parts) :
    parts.1 < 2 ^ 16 ∧ parts.2.1 < 2 ^ 16 ∧ parts.2.2 ≠ [] ∧ ∀ c ∈ parts.2.2, c ∈ rest := by
  unfold parseVersioned at hparse
  split at hparse
  · cases hparse
  rename_i majorText afterMajor hsplit
  split at hparse
  · cases hparse
  rename_i minorText text hsplit'
  split at hparse
  · cases hparse
  rename_i major hmajor
  split at hparse
  · cases hparse
  rename_i minor hminor
  split at hparse
  · cases hparse
  rename_i hempty
  obtain rfl := Except.ok.inj hparse
  refine ⟨(parseUnsigned_lt hmajor).1, (parseUnsigned_lt hminor).1, ?_, ?_⟩
  · simpa using hempty
  · intro c hc
    rw [(splitOnce_eq_some hsplit).1, (splitOnce_eq_some hsplit').1]
    simp [hc]

theorem parseArched_eq_ok {A : Type} {platform : String} {read : List Char → Option A}
    {s rest : List Char} {parts : ℕ × ℕ × A}
    (hparse : parseArched platform read s rest = .ok parts) :
    ∃ text, read text = some parts.2.2 ∧ (∀ c ∈ text, c ∈ rest) ∧ ∀ platform' s',
      parseArched platform' read s' (versionedRest parts.1 parts.2.1 text) = .ok parts := by
  unfold parseArched at hparse
  split at hparse
  · cases hparse
  rename_i major minor text hversioned
  split at hparse
  · cases hparse
  rename_i arch harch
  obtain rfl := Except.ok.inj hparse
  obtain ⟨hmajor, hminor, htext, hmem⟩ := parseVersioned_eq_ok hversioned
  refine ⟨text, harch, hmem, ?_⟩
  intro platform' s'
  unfold parseArched
  simp only [parseVersioned_versionedRest hmajor hminor htext, harch]

theorem plain_versionedRest {major minor : ℕ} {text : List Char} (htext : ∀ c ∈ text, Plain c) :
    ∀ c ∈ versionedRest major minor text, Plain c := by
  unfold versionedRest
  simp only [List.forall_mem_append, List.forall_mem_cons]
  exact ⟨fun c => plain_displayNat, plain_underscore, fun c => plain_displayNat,
    plain_underscore, htext⟩

/-- A displayed tag is read again, and has no other characters than the text. -/
def RoundTrips (s : List Char) (tag : PlatformTag) : Prop :=
  fromStr tag.display = .ok tag ∧ ((∀ c ∈ s, Plain c) → ∀ c ∈ tag.display, Plain c)

/-- A tag that is displayed as its text. -/
theorem roundTrips_of_eq {s : List Char} {tag : PlatformTag} (hread : fromStr s = .ok tag)
    (heq : tag.display = s) : RoundTrips s tag := by
  rw [RoundTrips, heq]
  exact ⟨hread, id⟩

theorem roundTrips_literal {s : List Char} {literal tag : PlatformTag}
    (hfrom : fromStr s = .ok tag)
    (hread : (.ok literal : Except ParsePlatformTagError PlatformTag) = .ok tag)
    (hs : s = literal.display) : RoundTrips s tag := by
  obtain rfl := Except.ok.inj hread
  exact roundTrips_of_eq hfrom hs.symm

/-- A tag that is displayed as the text from which its part was read. -/
theorem roundTrips_map {A : Type} {s : List Char} {make : A → PlatformTag}
    {result : Except ParsePlatformTagError A} {tag : PlatformTag} (hfrom : fromStr s = .ok tag)
    (hread : result.map make = .ok tag)
    (hdisplay : ∀ found, result = .ok found → (make found).display = s) : RoundTrips s tag := by
  obtain ⟨found, hfound, rfl⟩ := map_eq_ok hread
  exact roundTrips_of_eq hfrom (hdisplay found hfound)

/-- A tag with a version. -/
theorem roundTrips_versioned {A : Type} {platform start : String} {read : List Char → Option A}
    {name : A → String} {make : ℕ × ℕ × A → PlatformTag} {rest : List Char} {tag : PlatformTag}
    (hstart : platform.toList ++ "_".toList = start.toList)
    (hplain : ∀ c ∈ start.toList, Plain c)
    (hname : ∀ {text arch}, read text = some arch → (name arch).toList = text)
    (hdisplay : ∀ parts, (make parts).display =
      displayVersioned platform parts.1 parts.2.1 (name parts.2.2).toList)
    (hmem : ∀ s, (start, fun rest => (parseArched platform read s rest).map make) ∈ readers s)
    (hread : (parseArched platform read (start.toList ++ rest) rest).map make = .ok tag) :
    RoundTrips (start.toList ++ rest) tag := by
  obtain ⟨parts, hparts, rfl⟩ := map_eq_ok hread
  obtain ⟨text, harch, htext, hagain⟩ := parseArched_eq_ok hparts
  rw [RoundTrips, hdisplay, hname harch, displayVersioned_eq, hstart]
  constructor
  · rw [fromStr_append (hmem _), hagain]
    rfl
  · intro hs
    rw [List.forall_mem_append] at hs ⊢
    exact ⟨hplain, plain_versionedRest fun c hc => hs.2 c (htext c hc)⟩

theorem parseArch_eq_ok {platform : String} {s rest : List Char} {arch : Arch}
    (hparse : parseArch platform s rest = .ok arch) : arch.name.toList = rest := by
  unfold parseArch at hparse
  split at hparse
  · cases hparse
  · rename_i harch
    obtain rfl := Except.ok.inj hparse
    exact Arch.name_of_fromStr harch

theorem parseRelease_eq_ok {platform : String} {s rest : List Char} {releaseArch : String}
    (hparse : parseRelease platform s rest = .ok releaseArch) : releaseArch.toList = rest := by
  unfold parseRelease at hparse
  split at hparse
  · cases hparse
  · obtain rfl := Except.ok.inj hparse
    exact String.toList_ofList

theorem display_of_parseSolaris {s rest : List Char} {tag : PlatformTag}
    (hparse : parseSolaris s rest = .ok tag) : tag.display = "solaris_".toList ++ rest := by
  unfold parseSolaris at hparse
  split at hparse
  · cases hparse
  split at hparse
  · cases hparse
  rename_i releaseArch hstrip
  split at hparse
  · cases hparse
  · obtain rfl := Except.ok.inj hparse
    have hdisplay : (PlatformTag.solaris (String.ofList releaseArch)).display =
      "solaris_".toList ++ (String.ofList releaseArch).toList ++ "_64bit".toList := rfl
    have hofList : (String.ofList releaseArch).toList = releaseArch := String.toList_ofList
    rw [hdisplay, hofList, List.append_assoc, stripSuffix_eq_some hstrip]

theorem parseAndroid_displayNat {apiLevel : ℕ} {text : List Char} {abi : AndroidAbi}
    (hlevel : apiLevel < 2 ^ 16) (htext : ¬ text.isEmpty = true)
    (habi : AndroidAbi.fromStr text = some abi) (s : List Char) :
    parseAndroid s (displayNat apiLevel ++ '_' :: text) = .ok (.android apiLevel abi) := by
  have hnumber : parseUnsigned 16 (displayNat apiLevel) = .ok apiLevel :=
    parseUnsigned_toDigits hlevel
  unfold parseAndroid
  rw [splitOnce_append (notMem_displayNat rfl)]
  simp only [hnumber, if_neg htext, habi]

theorem roundTrips_android {rest : List Char} {tag : PlatformTag}
    (hread : parseAndroid ("android_".toList ++ rest) rest = .ok tag) :
    RoundTrips ("android_".toList ++ rest) tag := by
  unfold parseAndroid at hread
  split at hread
  · cases hread
  rename_i levelText text hsplit
  split at hread
  · cases hread
  rename_i apiLevel hlevel
  split at hread
  · cases hread
  rename_i htext
  split at hread
  · cases hread
  rename_i abi habi
  obtain rfl := Except.ok.inj hread
  have hdisplay : (PlatformTag.android apiLevel abi).display = "android_".toList ++
      displayNat apiLevel ++ "_".toList ++ abi.name.toList := rfl
  have hrest : (PlatformTag.android apiLevel abi).display = "android_".toList ++
      (displayNat apiLevel ++ '_' :: text) := by
    rw [hdisplay, AndroidAbi.name_of_fromStr habi]
    simp only [List.append_assoc]
    rfl
  rw [RoundTrips, hrest]
  constructor
  · have hreader : ∀ s, ("android_", parseAndroid s) ∈ readers s := fun s => by simp [readers]
    rw [fromStr_append (hreader _),
      parseAndroid_displayNat (parseUnsigned_lt hlevel).1 htext habi]
  · intro hs
    rw [List.forall_mem_append] at hs ⊢
    rw [(splitOnce_eq_some hsplit).1] at hs
    simp only [List.forall_mem_append, List.forall_mem_cons] at hs ⊢
    exact ⟨hs.1, fun c => plain_displayNat, hs.2.2.1, hs.2.2.2⟩

theorem roundTrips_pyodide {rest : List Char} {tag : PlatformTag}
    (hread : parsePyodide ("pyodide_".toList ++ rest) rest = .ok tag) :
    RoundTrips ("pyodide_".toList ++ rest) tag := by
  unfold parsePyodide at hread
  split at hread
  · cases hread
  split at hread
  · cases hread
  split at hread
  · cases hread
  rename_i major hmajor
  split at hread
  · cases hread
  rename_i minor hminor
  obtain rfl := Except.ok.inj hread
  have hdisplay : (PlatformTag.pyodide major minor).display =
    displayVersioned "pyodide" major minor "wasm32".toList := rfl
  have hrest : (PlatformTag.pyodide major minor).display = "pyodide_".toList ++
      (displayNat major ++ '_' :: displayNat minor ++ "_wasm32".toList) := by
    rw [hdisplay, displayVersioned, List.append_assoc, List.append_assoc, List.append_assoc,
      List.append_assoc, List.append_assoc]
    simp
  rw [RoundTrips, hrest]
  constructor
  · have hreader : ∀ s, ("pyodide_", parsePyodide s) ∈ readers s := fun s => by simp [readers]
    rw [fromStr_append (hreader _)]
    unfold parsePyodide
    simp only [stripSuffix_append, splitOnce_append (notMem_displayNat (c := '_') rfl)]
    simp only [displayNat, parseUnsigned_toDigits (parseUnsigned_lt hmajor).1,
      parseUnsigned_toDigits (parseUnsigned_lt hminor).1]
  · intro hs
    simp only [List.forall_mem_append, List.forall_mem_cons] at hs ⊢
    exact ⟨hs.1, ⟨fun c => plain_displayNat, plain_underscore, fun c => plain_displayNat⟩,
      plain_of_all rfl⟩

/-- A tag that was read is read again. -/
theorem roundTrips_of_fromStr {s : List Char} {tag : PlatformTag} (hread : fromStr s = .ok tag) :
    RoundTrips s tag := by
  have hfrom := hread
  unfold fromStr at hread
  split at hread
  · rename_i hs
    exact roundTrips_literal hfrom hread hs
  split at hread
  · rename_i hs
    exact roundTrips_literal hfrom hread hs
  split at hread
  · rename_i hs
    exact roundTrips_literal hfrom hread hs
  split at hread
  · rename_i hs
    exact roundTrips_literal hfrom hread hs
  split at hread
  · rename_i hs
    exact roundTrips_literal hfrom hread hs
  obtain ⟨start, read, rest, hmem, rfl, hread⟩ := readWith_eq_ok hread
  simp only [readers, List.mem_cons, List.not_mem_nil, or_false, Prod.mk.injEq] at hmem
  rcases hmem with ⟨rfl, rfl⟩ | ⟨rfl, rfl⟩ | ⟨rfl, rfl⟩ | ⟨rfl, rfl⟩ | ⟨rfl, rfl⟩ | ⟨rfl, rfl⟩ |
    ⟨rfl, rfl⟩ | ⟨rfl, rfl⟩ | ⟨rfl, rfl⟩ | ⟨rfl, rfl⟩ | ⟨rfl, rfl⟩ | ⟨rfl, rfl⟩ | ⟨rfl, rfl⟩ |
    ⟨rfl, rfl⟩ | ⟨rfl, rfl⟩ | ⟨rfl, rfl⟩ | ⟨rfl, rfl⟩
  · exact roundTrips_versioned rfl (plain_of_all rfl) Arch.name_of_fromStr (fun _ => rfl)
      (fun s => by simp [readers]) hread
  · exact roundTrips_map hfrom hread fun _ harch => congrArg (_ ++ ·) (parseArch_eq_ok harch)
  · exact roundTrips_map hfrom hread fun _ harch => congrArg (_ ++ ·) (parseArch_eq_ok harch)
  · exact roundTrips_map hfrom hread fun _ harch => congrArg (_ ++ ·) (parseArch_eq_ok harch)
  · exact roundTrips_map hfrom hread fun _ harch => congrArg (_ ++ ·) (parseArch_eq_ok harch)
  · exact roundTrips_versioned rfl (plain_of_all rfl) Arch.name_of_fromStr (fun _ => rfl)
      (fun s => by simp [readers]) hread
  · exact roundTrips_versioned rfl (plain_of_all rfl) BinaryFormat.name_of_fromStr
      (fun _ => rfl) (fun s => by simp [readers]) hread
  · exact roundTrips_android hread
  · exact roundTrips_map hfrom hread fun _ hrelease =>
      congrArg (_ ++ ·) (parseRelease_eq_ok hrelease)
  · exact roundTrips_map hfrom hread fun _ hrelease =>
      congrArg (_ ++ ·) (parseRelease_eq_ok hrelease)
  · exact roundTrips_map hfrom hread fun _ hrelease =>
      congrArg (_ ++ ·) (parseRelease_eq_ok hrelease)
  · exact roundTrips_map hfrom hread fun _ hrelease =>
      congrArg (_ ++ ·) (parseRelease_eq_ok hrelease)
  · exact roundTrips_map hfrom hread fun _ hrelease =>
      congrArg (_ ++ ·) (parseRelease_eq_ok hrelease)
  · exact roundTrips_map hfrom hread fun _ hrelease =>
      congrArg (_ ++ ·) (parseRelease_eq_ok hrelease)
  · exact roundTrips_of_eq hfrom (display_of_parseSolaris hread)
  · exact roundTrips_pyodide hread
  · exact roundTrips_versioned rfl (plain_of_all rfl) IosMultiarch.name_of_fromStr
      (fun _ => rfl) (fun s => by simp [readers]) hread

end PlatformTag

end Uv.PlatformTags
