import Uv.Core.ParseInt
import Uv.PlatformTags

/-!
# Tags as text

How the segments of a wheel file name are written and read.
-/

namespace Uv.PlatformTags

open Uv.Core

/-! ## Texts -/

/-- `strip_prefix`. -/
def stripPrefix (start text : List Char) : Option (List Char) :=
  if start.isPrefixOf text then some (text.drop start.length) else none

/-- `strip_suffix`. -/
def stripSuffix (stop text : List Char) : Option (List Char) :=
  if stop.isSuffixOf text then some (text.take (text.length - stop.length)) else none

/-- `split_once`: before and after the first such character. -/
def splitOnce (c : Char) (text : List Char) : Option (List Char × List Char) :=
  match text.span (· ≠ c) with
  | (_, []) => none
  | (before, _ :: after) => some (before, after)

theorem splitOnce_append {c : Char} {before : List Char} (hbefore : c ∉ before)
    (after : List Char) : splitOnce c (before ++ c :: after) = some (before, after) := by
  have hall : ∀ d ∈ before, (decide (d ≠ c)) = true := by
    intro d hd
    exact decide_eq_true fun heq => hbefore (heq ▸ hd)
  rw [splitOnce, List.span_eq_takeWhile_dropWhile, List.takeWhile_append_of_pos hall,
    List.dropWhile_append_of_pos hall]
  simp

theorem splitOnce_eq_none {c : Char} {text : List Char} (hmem : c ∉ text) :
    splitOnce c text = none := by
  have hall : ∀ d ∈ text, (decide (d ≠ c)) = true := by
    intro d hd
    exact decide_eq_true fun heq => hmem (heq ▸ hd)
  rw [splitOnce, List.span_eq_takeWhile_dropWhile, List.dropWhile_eq_nil_iff.mpr hall]

theorem splitOnce_eq_some {c : Char} {text before after : List Char}
    (hsplit : splitOnce c text = some (before, after)) :
    text = before ++ c :: after ∧ c ∉ before := by
  by_cases hmem : c ∈ text
  · obtain ⟨first, rest, rfl, hfirst⟩ := List.eq_append_cons_of_mem hmem
    rw [splitOnce_append hfirst] at hsplit
    obtain ⟨rfl, rfl⟩ := Prod.mk.inj (Option.some.inj hsplit)
    exact ⟨rfl, hfirst⟩
  · rw [splitOnce_eq_none hmem] at hsplit
    cases hsplit

def displayNat (n : ℕ) : List Char := Nat.toDigits 10 n

/-- What is wrong with a version; after a digit there is always a rest. -/
inductive VersionPart where
  | missingMajor
  | invalidMajor
  | invalidMinor
  deriving DecidableEq

/-- A digit and a number, such as `39` or `310`. -/
def parseVersion : List Char → Except VersionPart (ℕ × ℕ)
  | [] => .error .missingMajor
  | c :: rest =>
      if c.isDigit then
        match parseUnsigned 8 rest with
        | .ok minor => .ok (c.toNat - 48, minor)
        | .error _ => .error .invalidMinor
      else .error .invalidMajor

def displayVersion (major minor : ℕ) : List Char := displayNat major ++ displayNat minor

/-! ## Language tags -/

inductive ParseLanguageTagError where
  | unknownFormat (tag : List Char)
  | version (part : VersionPart) (implementation : String) (tag : List Char)
  deriving DecidableEq

namespace LanguageTag

def display : LanguageTag → List Char
  | .none => "none".toList
  | .python major .none => "py".toList ++ displayNat major
  | .python major (some minor) => "py".toList ++ displayVersion major minor
  | .cpython major minor => "cp".toList ++ displayVersion major minor
  | .pypy major minor => "pp".toList ++ displayVersion major minor
  | .graalpy major minor => "graalpy".toList ++ displayVersion major minor
  | .pyston major minor => "pyston".toList ++ displayVersion major minor

def parsePythonVersion (version : List Char) (implementation : String) (tag : List Char) :
    Except ParseLanguageTagError (ℕ × ℕ) :=
  (parseVersion version).mapError fun part => .version part implementation tag

/-- What follows `py`, by its length in bytes. -/
def fromPy (s py : List Char) : Except ParseLanguageTagError LanguageTag :=
  match (py.map Char.utf8Size).sum with
  | 0 => .error (.version .missingMajor "Python" s)
  | 1 =>
      match py with
      | [] => .error (.version .missingMajor "Python" s)
      | c :: _ =>
          if c.isDigit then .ok (.python (c.toNat - 48) .none)
          else .error (.version .invalidMajor "Python" s)
  | 2 | 3 =>
      (parsePythonVersion py "Python" s).map fun version => .python version.1 (some version.2)
  | _ =>
      match stripPrefix "ston".toList py with
      | some rest =>
          (parsePythonVersion rest "Pyston" s).map fun version => .pyston version.1 version.2
      | .none => .error (.unknownFormat s)

def fromStr (s : List Char) : Except ParseLanguageTagError LanguageTag :=
  if s = "none".toList then .ok .none
  else
    match stripPrefix "py".toList s with
    | some py => fromPy s py
    | .none =>
    match stripPrefix "cp".toList s with
    | some cp => (parsePythonVersion cp "CPython" s).map fun version => .cpython version.1 version.2
    | .none =>
    match stripPrefix "pp".toList s with
    | some pp => (parsePythonVersion pp "PyPy" s).map fun version => .pypy version.1 version.2
    | .none =>
    match stripPrefix "graalpy".toList s with
    | some rest =>
        (parsePythonVersion rest "GraalPy" s).map fun version => .graalpy version.1 version.2
    | .none => .error (.unknownFormat s)

end LanguageTag

/-! ## ABI tags -/

inductive ParseAbiTagError where
  | unknownFormat (tag : List Char)
  | version (part : VersionPart) (implementation : String) (tag : List Char)
  | implVersion (part : VersionPart) (implementation : String) (tag : List Char)
  | invalidFormat (implementation : String) (tag : List Char)
  deriving DecidableEq

namespace AbiTag

def display : AbiTag → List Char
  | .none => "none".toList
  | .abi3 => "abi3".toList
  | .cpython gilDisabled major minor =>
      if minor ≤ 7 then "cp".toList ++ displayVersion major minor ++ "m".toList
      else if gilDisabled then "cp".toList ++ displayVersion major minor ++ "t".toList
      else "cp".toList ++ displayVersion major minor
  | .pypy (some python) major minor =>
      "pypy".toList ++ displayVersion python.1 python.2 ++ "_pp".toList ++
        displayVersion major minor
  | .pypy .none major minor => "pypy_".toList ++ displayVersion major minor
  | .graalpy python major minor =>
      "graalpy".toList ++ displayVersion major minor ++ "_".toList ++
        displayVersion python.1 python.2 ++ "_native".toList
  | .pyston major minor =>
      "pyston_".toList ++ displayVersion major minor ++ "_x86_64_linux_gnu".toList

def parsePythonVersion (version : List Char) (implementation : String) (tag : List Char) :
    Except ParseAbiTagError (ℕ × ℕ) :=
  (parseVersion version).mapError fun part => .version part implementation tag

def parseImplVersion (version : List Char) (implementation : String) (tag : List Char) :
    Except ParseAbiTagError (ℕ × ℕ) :=
  (parseVersion version).mapError fun part => .implVersion part implementation tag

/-- What follows `cp`: the digits at the start, and whether the last character is a `t`. -/
def fromCpython (s cp : List Char) : Except ParseAbiTagError AbiTag :=
  (parsePythonVersion (cp.takeWhile Char.isDigit) "CPython" s).map fun version =>
    .cpython (cp.getLast? = some 't') version.1 version.2

def fromPypy (s rest : List Char) : Except ParseAbiTagError AbiTag :=
  match stripPrefix "_".toList rest with
  | some rest =>
      (parseImplVersion rest "PyPy" s).map fun version => .pypy .none version.1 version.2
  | .none =>
      match splitOnce '_' rest with
      | .none => .error (.invalidFormat "PyPy" s)
      | some (version, rest) =>
          match parsePythonVersion version "PyPy" s with
          | .error err => .error err
          | .ok python =>
              match stripPrefix "pp".toList rest with
              | .none => .error (.invalidFormat "PyPy" s)
              | some rest =>
                  (parseImplVersion rest "PyPy" s).map fun version =>
                    .pypy (some python) version.1 version.2

def fromGraalpy (s rest : List Char) : Except ParseAbiTagError AbiTag :=
  match splitOnce '_' rest with
  | .none => .error (.invalidFormat "GraalPy" s)
  | some (implementation, rest) =>
      match parseImplVersion implementation "GraalPy" s with
      | .error err => .error err
      | .ok version =>
          match splitOnce '_' rest with
          | .none => .error (.invalidFormat "GraalPy" s)
          | some (python, _) =>
              (parsePythonVersion python "GraalPy" s).map fun python =>
                .graalpy python version.1 version.2

def fromPyston (s rest : List Char) : Except ParseAbiTagError AbiTag :=
  match stripPrefix "_".toList rest with
  | .none => .error (.invalidFormat "Pyston" s)
  | some rest =>
      match stripSuffix "_x86_64_linux_gnu".toList rest with
      | .none => .error (.invalidFormat "Pyston" s)
      | some rest => (parseImplVersion rest "Pyston" s).map fun version =>
          .pyston version.1 version.2

def fromStr (s : List Char) : Except ParseAbiTagError AbiTag :=
  if s = "none".toList then .ok .none
  else if s = "abi3".toList then .ok .abi3
  else
    match stripPrefix "cp".toList s with
    | some cp => fromCpython s cp
    | .none =>
    match stripPrefix "pypy".toList s with
    | some rest => fromPypy s rest
    | .none =>
    match stripPrefix "graalpy".toList s with
    | some rest => fromGraalpy s rest
    | .none =>
    match stripPrefix "pyston".toList s with
    | some rest => fromPyston s rest
    | .none => .error (.unknownFormat s)

end AbiTag

/-! ## Platform tags -/

/-- The architecture of the name; there is none for `wasm32`. -/
def Arch.fromStr (s : List Char) : Option Arch :=
  [.aarch64, .armv5TEL, .armv6L, .armv7L, .powerpc64Le, .powerpc64, .powerpc, .x86, .x86_64,
    .s390X, .loongArch64, .riscv64].find? fun arch => arch.name.toList = s

def BinaryFormat.fromStr (s : List Char) : Option BinaryFormat :=
  [.arm64, .fat, .fat32, .fat64, .i386, .intel, .ppc, .ppc64, .universal, .universal2,
    .x86_64].find? fun format => format.name.toList = s

def AndroidAbi.name : AndroidAbi → String
  | .armeabiV7a => "armeabi_v7a"
  | .arm64V8a => "arm64_v8a"
  | .x86 => "x86"
  | .x86_64 => "x86_64"

def AndroidAbi.fromStr (s : List Char) : Option AndroidAbi :=
  [.armeabiV7a, .arm64V8a, .x86, .x86_64].find? fun abi => abi.name.toList = s

def IosMultiarch.name : IosMultiarch → String
  | .arm64Device => "arm64_iphoneos"
  | .arm64Simulator => "arm64_iphonesimulator"
  | .x86_64Simulator => "x86_64_iphonesimulator"

def IosMultiarch.fromStr (s : List Char) : Option IosMultiarch :=
  [.arm64Device, .arm64Simulator, .x86_64Simulator].find? fun multiarch =>
    multiarch.name.toList = s

inductive ParsePlatformTagError where
  | unknownFormat (tag : List Char)
  | invalidFormat (platform : String) (tag : List Char)
  | invalidMajorVersion (platform : String) (tag : List Char)
  | invalidMinorVersion (platform : String) (tag : List Char)
  | invalidArch (platform : String) (tag : List Char)
  | invalidApiLevel (platform : String) (tag : List Char)
  deriving DecidableEq

namespace PlatformTag

/-- A platform, a version and what follows. -/
def displayVersioned (platform : String) (major minor : ℕ) (rest : List Char) : List Char :=
  platform.toList ++ "_".toList ++ displayNat major ++ "_".toList ++ displayNat minor ++
    "_".toList ++ rest

def display : PlatformTag → List Char
  | .any => "any".toList
  | .manylinux major minor arch => displayVersioned "manylinux" major minor arch.name.toList
  | .manylinux1 arch => "manylinux1_".toList ++ arch.name.toList
  | .manylinux2010 arch => "manylinux2010_".toList ++ arch.name.toList
  | .manylinux2014 arch => "manylinux2014_".toList ++ arch.name.toList
  | .linux arch => "linux_".toList ++ arch.name.toList
  | .musllinux major minor arch => displayVersioned "musllinux" major minor arch.name.toList
  | .macos major minor binaryFormat =>
      displayVersioned "macosx" major minor binaryFormat.name.toList
  | .win32 => "win32".toList
  | .winAmd64 => "win_amd64".toList
  | .winArm64 => "win_arm64".toList
  | .winIa64 => "win_ia64".toList
  | .android apiLevel abi =>
      "android_".toList ++ displayNat apiLevel ++ "_".toList ++ abi.name.toList
  | .freeBsd releaseArch => "freebsd_".toList ++ releaseArch.toList
  | .netBsd releaseArch => "netbsd_".toList ++ releaseArch.toList
  | .openBsd releaseArch => "openbsd_".toList ++ releaseArch.toList
  | .dragonfly releaseArch => "dragonfly_".toList ++ releaseArch.toList
  | .haiku releaseArch => "haiku_".toList ++ releaseArch.toList
  | .illumos releaseArch => "illumos_".toList ++ releaseArch.toList
  | .solaris releaseArch => "solaris_".toList ++ releaseArch.toList ++ "_64bit".toList
  | .pyodide major minor => displayVersioned "pyodide" major minor "wasm32".toList
  | .ios major minor multiarch => displayVersioned "ios" major minor multiarch.name.toList

/-- `<major>_<minor>_<rest>`, where the rest is not empty. -/
def parseVersioned (platform : String) (tag rest : List Char) :
    Except ParsePlatformTagError (ℕ × ℕ × List Char) :=
  match splitOnce '_' rest with
  | none => .error (.invalidFormat platform tag)
  | some (major, rest) =>
      match splitOnce '_' rest with
      | none => .error (.invalidFormat platform tag)
      | some (minor, rest) =>
          match parseUnsigned 16 major with
          | .error _ => .error (.invalidMajorVersion platform tag)
          | .ok major =>
              match parseUnsigned 16 minor with
              | .error _ => .error (.invalidMinorVersion platform tag)
              | .ok minor =>
                  if rest.isEmpty then .error (.invalidFormat platform tag)
                  else .ok (major, minor, rest)

/-- A version, and an architecture that `read` knows. -/
def parseArched {A : Type} (platform : String) (read : List Char → Option A)
    (tag rest : List Char) : Except ParsePlatformTagError (ℕ × ℕ × A) :=
  match parseVersioned platform tag rest with
  | .error err => .error err
  | .ok (major, minor, rest) =>
      match read rest with
      | none => .error (.invalidArch platform tag)
      | some arch => .ok (major, minor, arch)

def parseArch (platform : String) (tag rest : List Char) :
    Except ParsePlatformTagError Arch :=
  match Arch.fromStr rest with
  | none => .error (.invalidArch platform tag)
  | some arch => .ok arch

def parseAndroid (tag rest : List Char) : Except ParsePlatformTagError PlatformTag :=
  match splitOnce '_' rest with
  | none => .error (.invalidFormat "android" tag)
  | some (apiLevel, rest) =>
      match parseUnsigned 16 apiLevel with
      | .error _ => .error (.invalidApiLevel "android" tag)
      | .ok apiLevel =>
          if rest.isEmpty then .error (.invalidFormat "android" tag)
          else
            match AndroidAbi.fromStr rest with
            | none => .error (.invalidArch "android" tag)
            | some abi => .ok (.android apiLevel abi)

/-- A release with an architecture is any text. -/
def parseRelease (platform : String) (tag rest : List Char) :
    Except ParsePlatformTagError String :=
  if rest.isEmpty then .error (.invalidFormat platform tag) else .ok (String.ofList rest)

def parseSolaris (tag rest : List Char) : Except ParsePlatformTagError PlatformTag :=
  if rest.isEmpty then .error (.invalidFormat "solaris" tag)
  else
    match stripSuffix "_64bit".toList rest with
    | none => .error (.invalidArch "solaris" tag)
    | some releaseArch =>
        if releaseArch.isEmpty then .error (.invalidArch "solaris" tag)
        else .ok (.solaris (String.ofList releaseArch))

def parsePyodide (tag rest : List Char) : Except ParsePlatformTagError PlatformTag :=
  match stripSuffix "_wasm32".toList rest with
  | none => .error (.invalidArch "pyodide" tag)
  | some mid =>
      match splitOnce '_' mid with
      | none => .error (.invalidFormat "pyodide" tag)
      | some (major, minor) =>
          match parseUnsigned 16 major with
          | .error _ => .error (.invalidMajorVersion "pyodide" tag)
          | .ok major =>
              match parseUnsigned 16 minor with
              | .error _ => .error (.invalidMinorVersion "pyodide" tag)
              | .ok minor => .ok (.pyodide major minor)

/-- The platforms that are read by what they start with, in the order in which they are tried. -/
def readers (s : List Char) :
    List (String × (List Char → Except ParsePlatformTagError PlatformTag)) :=
  [("manylinux_", fun rest => (parseArched "manylinux" Arch.fromStr s rest).map fun parts =>
      .manylinux parts.1 parts.2.1 parts.2.2),
    ("manylinux1_", fun rest => (parseArch "manylinux1" s rest).map .manylinux1),
    ("manylinux2010_", fun rest => (parseArch "manylinux2010" s rest).map .manylinux2010),
    ("manylinux2014_", fun rest => (parseArch "manylinux2014" s rest).map .manylinux2014),
    ("linux_", fun rest => (parseArch "linux" s rest).map .linux),
    ("musllinux_", fun rest => (parseArched "musllinux" Arch.fromStr s rest).map fun parts =>
      .musllinux parts.1 parts.2.1 parts.2.2),
    ("macosx_", fun rest => (parseArched "macosx" BinaryFormat.fromStr s rest).map fun parts =>
      .macos parts.1 parts.2.1 parts.2.2),
    ("android_", parseAndroid s),
    ("freebsd_", fun rest => (parseRelease "freebsd" s rest).map .freeBsd),
    ("netbsd_", fun rest => (parseRelease "netbsd" s rest).map .netBsd),
    ("openbsd_", fun rest => (parseRelease "openbsd" s rest).map .openBsd),
    ("dragonfly_", fun rest => (parseRelease "dragonfly" s rest).map .dragonfly),
    ("haiku_", fun rest => (parseRelease "haiku" s rest).map .haiku),
    ("illumos_", fun rest => (parseRelease "illumos" s rest).map .illumos),
    ("solaris_", parseSolaris s),
    ("pyodide_", parsePyodide s),
    ("ios_", fun rest => (parseArched "ios" IosMultiarch.fromStr s rest).map fun parts =>
      .ios parts.1 parts.2.1 parts.2.2)]

/-- The first reader whose start the text has. -/
def readWith (s : List Char) :
    List (String × (List Char → Except ParsePlatformTagError PlatformTag)) →
      Except ParsePlatformTagError PlatformTag
  | [] => .error (.unknownFormat s)
  | (start, read) :: others =>
      match stripPrefix start.toList s with
      | some rest => read rest
      | none => readWith s others

def fromStr (s : List Char) : Except ParsePlatformTagError PlatformTag :=
  if s = "any".toList then .ok .any
  else if s = "win32".toList then .ok .win32
  else if s = "win_amd64".toList then .ok .winAmd64
  else if s = "win_arm64".toList then .ok .winArm64
  else if s = "win_ia64".toList then .ok .winIa64
  else readWith s (readers s)

end PlatformTag

end Uv.PlatformTags
