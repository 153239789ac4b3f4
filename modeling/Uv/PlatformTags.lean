import Mathlib

/-!
# Platform and language tags

The segments of a wheel file name that say where the wheel can be installed.
-/

namespace Uv.PlatformTags

inductive Arch where
  | aarch64
  | armv5TEL
  | armv6L
  | armv7L
  | powerpc64Le
  | powerpc64
  | powerpc
  | x86
  | x86_64
  | s390X
  | loongArch64
  | riscv64
  | wasm32
  deriving DecidableEq

def Arch.name : Arch → String
  | .aarch64 => "aarch64"
  | .armv5TEL => "armv5tel"
  | .armv6L => "armv6l"
  | .armv7L => "armv7l"
  | .powerpc64Le => "ppc64le"
  | .powerpc64 => "ppc64"
  | .powerpc => "ppc"
  | .x86 => "i686"
  | .x86_64 => "x86_64"
  | .s390X => "s390x"
  | .loongArch64 => "loongarch64"
  | .riscv64 => "riscv64"
  | .wasm32 => "wasm32"

/-- The binary formats of macOS. -/
inductive BinaryFormat where
  | arm64
  | fat
  | fat32
  | fat64
  | i386
  | intel
  | ppc
  | ppc64
  | universal
  | universal2
  | x86_64
  deriving DecidableEq

namespace BinaryFormat

/-- The formats of the machines that can run the binary. -/
def platformMachine : BinaryFormat → List BinaryFormat
  | .arm64 => [.arm64]
  | .fat => [.x86_64, .ppc]
  | .fat32 => [.x86_64, .i386, .ppc, .ppc64]
  | .fat64 => [.x86_64, .ppc64]
  | .i386 => [.i386]
  | .intel => [.x86_64, .i386]
  | .ppc => [.ppc]
  | .ppc64 => [.ppc64]
  | .universal => [.x86_64, .i386, .ppc64, .ppc, .intel]
  | .universal2 => [.x86_64, .arm64]
  | .x86_64 => [.x86_64]

def name : BinaryFormat → String
  | .arm64 => "arm64"
  | .fat => "fat"
  | .fat32 => "fat32"
  | .fat64 => "fat64"
  | .i386 => "i386"
  | .intel => "intel"
  | .ppc => "ppc"
  | .ppc64 => "ppc64"
  | .universal => "universal"
  | .universal2 => "universal2"
  | .x86_64 => "x86_64"

end BinaryFormat

inductive AndroidAbi where
  | armeabiV7a
  | arm64V8a
  | x86
  | x86_64
  deriving DecidableEq

inductive IosMultiarch where
  | arm64Device
  | arm64Simulator
  | x86_64Simulator
  deriving DecidableEq

/-- The third segment of a wheel file name. -/
inductive PlatformTag where
  | any
  | manylinux (major minor : ℕ) (arch : Arch)
  | manylinux1 (arch : Arch)
  | manylinux2010 (arch : Arch)
  | manylinux2014 (arch : Arch)
  | linux (arch : Arch)
  | musllinux (major minor : ℕ) (arch : Arch)
  | macos (major minor : ℕ) (binaryFormat : BinaryFormat)
  | win32
  | winAmd64
  | winArm64
  | winIa64
  | android (apiLevel : ℕ) (abi : AndroidAbi)
  | freeBsd (releaseArch : String)
  | netBsd (releaseArch : String)
  | openBsd (releaseArch : String)
  | dragonfly (releaseArch : String)
  | haiku (releaseArch : String)
  | illumos (releaseArch : String)
  | solaris (releaseArch : String)
  | pyodide (major minor : ℕ)
  | ios (major minor : ℕ) (multiarch : IosMultiarch)
  deriving DecidableEq

/-- The first segment of a wheel file name. -/
inductive LanguageTag where
  | none
  | python (major : ℕ) (minor : Option ℕ)
  | cpython (major minor : ℕ)
  | pypy (major minor : ℕ)
  | graalpy (major minor : ℕ)
  | pyston (major minor : ℕ)
  deriving DecidableEq

/-- The second segment of a wheel file name. -/
inductive AbiTag where
  | none
  | abi3
  | cpython (gilDisabled : Bool) (major minor : ℕ)
  | pypy (pythonVersion : Option (ℕ × ℕ)) (major minor : ℕ)
  | graalpy (pythonVersion : ℕ × ℕ) (major minor : ℕ)
  | pyston (major minor : ℕ)
  deriving DecidableEq

end Uv.PlatformTags
