import Uv.Core.ParseInt
import Uv.PlatformTags

/-!
# Tags of a platform

The platform tags that an operating system on an architecture can install, the best ones first.

A release is written in lower case for FreeBSD; `toLowercase` stands for Unicode's mapping.
-/

namespace Uv.PlatformTags

open Uv.Core

inductive Os where
  | manylinux (major minor : ℕ)
  | musllinux (major minor : ℕ)
  | windows
  | pyodide (major minor : ℕ)
  | macos (major minor : ℕ)
  | freeBsd (release : String)
  | netBsd (release : String)
  | openBsd (release : String)
  | dragonfly (release : String)
  | illumos (release arch : String)
  | haiku (release : String)
  | android (apiLevel : ℕ)
  | ios (major minor : ℕ) (simulator : Bool)
  deriving DecidableEq

def Os.name : Os → String
  | .manylinux .. => "manylinux"
  | .musllinux .. => "musllinux"
  | .windows => "windows"
  | .pyodide .. => "pyodide"
  | .macos .. => "macos"
  | .freeBsd .. => "freebsd"
  | .netBsd .. => "netbsd"
  | .openBsd .. => "openbsd"
  | .dragonfly .. => "dragonfly"
  | .illumos .. => "illumos"
  | .haiku .. => "haiku"
  | .android .. => "android"
  | .ios .. => "ios"

structure Platform where
  os : Os
  arch : Arch
  deriving DecidableEq

inductive PlatformError where
  | osVersionDetectionError (message : String)
  | archDetectionError (message : String)
  deriving DecidableEq

namespace Arch

/-- The oldest possible `manylinux` tag. -/
def getMinimumManylinuxMinor : Arch → Option ℕ
  | .aarch64 | .armv7L | .powerpc64 | .powerpc64Le | .s390X => some 17
  | .x86 | .x86_64 => some 5
  | .riscv64 => some 31
  | .loongArch64 => some 36
  | .powerpc | .armv5TEL | .armv6L | .wasm32 => none

/-- The hardware platform. -/
def machine : Arch → String
  | .aarch64 => "arm64"
  | .armv5TEL | .armv6L | .armv7L => "arm"
  | .powerpc | .powerpc64Le | .powerpc64 => "powerpc"
  | .x86 => "i386"
  | .x86_64 => "amd64"
  | .riscv64 => "riscv"
  | .wasm32 => "wasm32"
  | .s390X => "s390x"
  | .loongArch64 => "loongarch64"

end Arch

/-- The formats for a version of macOS; no other architecture reaches it. -/
def BinaryFormat.fromArch : Arch → List BinaryFormat
  | .aarch64 => [.arm64, .universal2]
  | .powerpc64 => [.ppc64, .fat64, .universal]
  | .powerpc => [.ppc, .fat32, .fat, .universal]
  | .x86 => [.i386, .intel, .fat32, .fat, .universal]
  | .x86_64 => [.x86_64, .intel, .fat64, .fat32, .universal2, .universal]
  | _ => []

def AndroidAbi.fromArch : Arch → Except String AndroidAbi
  | .aarch64 => .ok .arm64V8a
  | .armv7L => .ok .armeabiV7a
  | .x86 => .ok .x86
  | .x86_64 => .ok .x86_64
  | arch => .error s!"Invalid Android arch format: {arch.name}"

def IosMultiarch.fromArch (arch : Arch) (simulator : Bool) : Except String IosMultiarch :=
  if simulator then
    match arch with
    | .aarch64 => .ok .arm64Simulator
    | .x86_64 => .ok .x86_64Simulator
    | arch => .error s!"Invalid iOS simulator arch: {arch.name}"
  else
    match arch with
    | .aarch64 => .ok .arm64Device
    | arch => .error s!"Invalid iOS device arch: {arch.name}"

/-! ## The lists -/

/-- The numbers of `(first..=last).rev()`. -/
def downTo (first last : ℕ) : List ℕ := (List.range' first (last + 1 - first)).reverse

/-- The tags of one minor version, the legacy tag after the one that it stands for. -/
def manylinuxTags (major : ℕ) (arch : Arch) (minor : ℕ) : List PlatformTag :=
  [.manylinux major minor arch] ++
    (if minor = 12 then [.manylinux2010 arch] else []) ++
    (if minor = 17 then [.manylinux2014 arch] else []) ++
    (if minor = 5 then [.manylinux1 arch] else [])

/-- The tags of one version of macOS. -/
def macosTags (arch : Arch) (major minor : ℕ) : List PlatformTag :=
  (BinaryFormat.fromArch arch).map (.macos major minor)

/-- `release.replace(['.', '-'], "_")`. -/
def releaseTag (release : String) : String :=
  String.ofList (release.toList.map fun c => if c = '.' ∨ c = '-' then '_' else c)

def illumosTags (release arch : String) : Except PlatformError (List PlatformTag) :=
  match release.toList.span (· ≠ '_') with
  | (_, []) => .ok [.illumos (release ++ "_" ++ arch)]
  | (major, _ :: other) =>
      match parseUnsigned 64 major with
      | .error err =>
          .error (.osVersionDetectionError
            s!"illumos major version is not a number: {err.message}")
      | .ok majorVer =>
          if 5 ≤ majorVer then
            .ok [.solaris (toString (majorVer - 3) ++ "_" ++ String.ofList other ++ "_" ++
              arch ++ "_64bit")]
          else .ok [.illumos (release ++ "_" ++ arch)]

/-- The ABI is looked at for each of the levels. -/
def androidTags (arch : Arch) (apiLevel : ℕ) : Except PlatformError (List PlatformTag) :=
  (downTo 16 apiLevel).mapM fun ver =>
    match AndroidAbi.fromArch arch with
    | .ok abi => .ok (.android ver abi)
    | .error message => .error (.archDetectionError message)

/-- No version before 12.0 supports Python; minor versions go up to 9. -/
def iosTags (multiarch : IosMultiarch) (major minor : ℕ) : List PlatformTag :=
  if major < 12 then []
  else
    [.ios major minor multiarch] ++
      (List.range minor).reverse.map (fun minor => .ios major minor multiarch) ++
      (List.range' 12 (major - 12)).reverse.flatMap fun major =>
        (downTo 0 9).map fun minor => .ios major minor multiarch

/-- `compatible_tags`. -/
def compatibleTags (toLowercase : String → String) (platform : Platform) :
    Except PlatformError (List PlatformTag) :=
  let arch := platform.arch
  match platform.os, arch with
  | .manylinux major minor, _ =>
      .ok ((match arch.getMinimumManylinuxMinor with
        | some minMinor => (downTo minMinor minor).flatMap (manylinuxTags major arch)
        | none => []) ++ [.linux arch])
  | .musllinux major minor, _ =>
      .ok ([.linux arch] ++
        (List.range (minor + 1)).map fun minor => .musllinux major minor arch)
  | .macos major minor, .x86_64 =>
      if major = 10 then .ok ((downTo 4 minor).flatMap (macosTags arch 10))
      else if 11 ≤ major then
        .ok ((downTo 11 major).flatMap (fun major => macosTags arch major 0) ++
          (downTo 4 16).flatMap (macosTags arch 10))
      else .error (.osVersionDetectionError s!"Unsupported macOS version: {major}")
  | .macos major _, .aarch64 =>
      .ok ((downTo 11 major).flatMap (fun major => macosTags arch major 0) ++
        (downTo 4 16).map fun minor => .macos 10 minor .universal2)
  | .windows, .x86 => .ok [.win32]
  | .windows, .x86_64 => .ok [.winAmd64]
  | .windows, .aarch64 => .ok [.winArm64]
  | .freeBsd release, _ =>
      .ok [.freeBsd (toLowercase (releaseTag release) ++ "_" ++ arch.machine)]
  | .netBsd release, _ => .ok [.netBsd (releaseTag release ++ "_" ++ arch.machine)]
  | .openBsd release, _ => .ok [.openBsd (releaseTag release ++ "_" ++ arch.machine)]
  | .dragonfly release, _ => .ok [.dragonfly (releaseTag release ++ "_" ++ arch.name)]
  | .haiku release, _ => .ok [.haiku (releaseTag release ++ "_" ++ arch.name)]
  | .illumos release illumosArch, _ => illumosTags release illumosArch
  | .android apiLevel, _ => androidTags arch apiLevel
  | .pyodide major minor, .wasm32 => .ok [.pyodide major minor]
  | .ios major minor simulator, _ =>
      match IosMultiarch.fromArch arch simulator with
      | .error message => .error (.archDetectionError message)
      | .ok multiarch => .ok (iosTags multiarch major minor)
  | os, arch =>
      .error (.osVersionDetectionError
        s!"Unsupported operating system and architecture combination: {os.name} {arch.name}")

end Uv.PlatformTags
