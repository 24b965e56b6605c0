import IncludeScan.Platform.Table

/-!
# Platform/Standard — the platforms that are known by default

Common names of operating systems and architectures, and the macros that compilers predefine for
them.  A rule with `anyArch` also applies to the operating system alone, and a rule with `anyOs` to
the architecture alone.
-/

namespace IncludeScan.PlatformFile.Standard

/-- The operating systems. -/
def oses : List String :=
  ["android", "chromiumos", "emscripten", "freebsd", "fuchsia", "haiku", "ios", "linux", "netbsd",
      "nixos", "none", "openbsd", "osx", "qnx", "tvos", "uefi", "visionos", "vxworks", "wasi",
      "watchos", "windows"]

/-- The architectures. -/
def archs : List String :=
  ["aarch32", "aarch64", "arm64_32", "arm64e", "armv6-m", "armv7", "armv7e-m", "armv7e-mf",
      "armv7k", "armv7-m", "armv8-m", "cortex-r52", "cortex-r82", "i386", "mips64", "ppc",
      "ppc32", "ppc64le", "riscv32", "riscv64", "s390x", "wasm32", "wasm64", "x86_32", "x86_64"]

/-- Windows. -/
def windows : List MacroRule :=
  [{ names := ["_WIN32"], os := .listed ["windows"],
      arch := .listed ["i386", "x86_32", "x86_64", "aarch32", "aarch64"], anyArch := true },
    { names := ["_WIN64"], os := .listed ["windows"], arch := .listed ["x86_64", "aarch64"],
      anyArch := true },
    { names := ["__MINGW32__", "_M_IX86"], os := .listed ["windows"], arch := .listed ["i386"] },
    { names := ["__MINGW64__", "_M_X64"], os := .listed ["windows"], arch := .listed ["x86_64"] },
    { names := ["_M_ARM"], os := .listed ["windows"], arch := .listed ["aarch32"] },
    { names := ["_M_ARM64"], os := .listed ["windows"], arch := .listed ["aarch64"] }]

/-- Linux and the systems built on it. -/
def linuxFamily : List MacroRule :=
  [{ names := ["linux", "__linux__", "__linux", "__gnu_linux__"], os := .listed ["linux"],
      arch := .every, anyArch := true },
    { names := ["__NIX__", "__NIXOS__"], os := .listed ["nixos"], arch := .every, anyArch := true },
    { names := ["__ANDROID__"], os := .listed ["android"],
      arch := .listed ["aarch32", "aarch64", "x86_32", "x86_64", "riscv64"], anyArch := true },
    { names := ["__CHROMEOS__"], os := .listed ["chromiumos"],
      arch := .listed ["x86_64", "aarch64", "riscv64"], anyArch := true }]

/-- The macros that tell a Unix system; Apple systems do not define them. -/
def unixNames : List MacroRule :=
  [{ names := ["unix", "__unix", "__unix__"],
      os := .listed ["linux", "android", "chromiumos", "nixos", "freebsd", "netbsd", "openbsd",
        "haiku", "qnx"], arch := .every }]

/-- WebAssembly. -/
def webAssembly : List MacroRule :=
  [{ names := ["__EMSCRIPTEN__"], os := .listed ["emscripten"],
      arch := .listed ["wasm32", "wasm64"] },
    { names := ["__wasi__"], os := .listed ["wasi"], arch := .listed ["wasm32", "wasm64"] },
    { names := ["__wasm__"], os := .listed ["emscripten", "wasi"],
      arch := .listed ["wasm32", "wasm64"] },
    { names := ["__wasm32__"], os := .listed ["emscripten", "wasi"], arch := .listed ["wasm32"] },
    { names := ["__wasm64__"], os := .listed ["emscripten", "wasi"], arch := .listed ["wasm64"] }]

/-- The BSD systems. -/
def bsdFamily : List MacroRule :=
  [{ names := ["__FreeBSD__"], os := .listed ["freebsd"],
      arch := .listed ["i386", "x86_64", "aarch64", "riscv64", "ppc64le"] },
    { names := ["__NetBSD__"], os := .listed ["netbsd"],
      arch := .listed ["i386", "x86_64", "aarch64", "riscv64", "ppc64le"] },
    { names := ["__OpenBSD__"], os := .listed ["openbsd"],
      arch := .listed ["i386", "x86_64", "aarch64", "riscv64", "ppc64le"] }]

/-- Further systems. -/
def otherSystems : List MacroRule :=
  [{ names := ["__QNX__", "__QNXNTO__"], os := .listed ["qnx"],
      arch := .listed ["aarch32", "aarch64", "ppc32", "ppc64le", "x86_32", "x86_64"],
      anyArch := true },
    { names := ["__HAIKU__"], os := .listed ["haiku"], arch := .listed ["x86_32", "x86_64"],
      anyArch := true },
    { names := ["__FUCHSIA__", "__Fuchsia__"], os := .listed ["fuchsia"],
      arch := .listed ["aarch64", "x86_64"], anyArch := true },
    { names := ["__VXWORKS__", "__vxworks"], os := .listed ["vxworks"],
      arch := .listed ["aarch32", "aarch64", "ppc32", "ppc64le", "x86_32", "x86_64"],
      anyArch := true },
    { names := ["__UEFI__", "__EFI__"], os := .listed ["uefi"],
      arch := .listed ["aarch32", "aarch64", "x86_32", "x86_64", "riscv64"], anyArch := true }]

/-- The Apple systems. -/
def appleFamily : List MacroRule :=
  [{ names := ["__APPLE__", "__MACH__", "TARGET_OS_OSX", "TARGET_OS_MAC"], os := .listed ["osx"],
      arch := .listed ["x86_64", "aarch64", "arm64e"], anyArch := true },
    { names := ["__APPLE__", "__MACH__", "TARGET_OS_IPHONE", "TARGET_OS_IOS"],
      os := .listed ["ios"], arch := .listed ["aarch64", "arm64e"], anyArch := true },
    { names := ["__APPLE__", "__MACH__", "TARGET_OS_TV"], os := .listed ["tvos"],
      arch := .listed ["aarch64"], anyArch := true },
    { names := ["__APPLE__", "__MACH__", "TARGET_OS_WATCH"], os := .listed ["watchos"],
      arch := .listed ["armv7k", "arm64_32"], anyArch := true },
    { names := ["__APPLE__", "__MACH__", "TARGET_OS_VISION"], os := .listed ["visionos"],
      arch := .listed ["aarch64"], anyArch := true }]

/-- Processors, whatever the system. -/
def processors : List MacroRule :=
  [{ names := ["__x86_64__", "__x86_64", "__amd64", "__amd64__"], os := .every,
      arch := .listed ["x86_64"], anyOs := true },
    { names := ["__i386__", "__i386"], os := .every, arch := .listed ["i386"], anyOs := true },
    { names := ["__arm__", "__arm", "__thumb__", "__thumb"], os := .every,
      arch := .listed ["aarch32"], anyOs := true },
    { names := ["__aarch64__", "__arm64", "__arm64__"], os := .every, arch := .listed ["aarch64"],
      anyOs := true },
    { names := ["__ARM64_32__", "__ARM64_32"], os := .listed ["watchos"],
      arch := .listed ["arm64_32"] },
    { names := ["__arm64e__", "__arm64e"], os := .listed ["osx", "ios"],
      arch := .listed ["arm64e"], anyOs := true }]

/-- Arm without an operating system. -/
def bareArm : List MacroRule :=
  [{ names := ["__ARM_ARCH_6M__"], os := .listed ["none"], arch := .listed ["armv6-m"] },
    { names := ["__ARM_ARCH_7__", "__ARM_ARCH_7A__"], os := .listed ["none"],
      arch := .listed ["armv7"] },
    { names := ["__ARM_ARCH_7M__"], os := .listed ["none"], arch := .listed ["armv7-m"] },
    { names := ["__ARM_ARCH_7EM__"], os := .listed ["none"], arch := .listed ["armv7e-m"] },
    { names := ["__ARM_ARCH_8M_BASE__", "__ARM_ARCH_8M_MAIN__"], os := .listed ["none"],
      arch := .listed ["armv8-m"] }]

/-- PowerPC. -/
def powerPC : List MacroRule :=
  [{ names := ["__powerpc__", "__PPC__"],
      os := .listed ["linux", "freebsd", "netbsd", "openbsd", "qnx", "vxworks"],
      arch := .listed ["ppc32"], anyOs := true },
    { names := ["__powerpc64__", "__ppc64__"],
      os := .listed ["linux", "freebsd", "netbsd", "openbsd", "qnx", "vxworks"],
      arch := .listed ["ppc64le"], anyOs := true }]

/-- MIPS. -/
def mips : List MacroRule :=
  [{ names := ["__mips64"], os := .listed ["linux", "netbsd", "openbsd", "qnx", "vxworks"],
      arch := .listed ["mips64"], anyOs := true }]

/-- s390. -/
def s390 : List MacroRule :=
  [{ names := ["__s390x__", "__s390__"], os := .listed ["linux"], arch := .listed ["s390x"] }]

/-- RISC-V. -/
def riscV : List MacroRule :=
  [{ names := ["__riscv"],
      os := .listed ["linux", "freebsd", "netbsd", "openbsd", "qnx", "vxworks", "android",
        "chromiumos", "fuchsia", "nixos"], arch := .listed ["riscv64"], anyOs := true }]

end IncludeScan.PlatformFile.Standard

namespace IncludeScan

open PlatformFile.Standard in
/-- The platform file that is used when there is no other. -/
def PlatformFile.standard : PlatformFile where
  os := oses
  arch := archs
  osAliases := [("macos", "osx")]
  archAliases := [("arm", "aarch32"), ("arm64", "aarch64"), ("amd64", "x86_64")]
  rules :=
    windows ++ linuxFamily ++ unixNames ++ webAssembly ++ bsdFamily ++ otherSystems ++ appleFamily
      ++ processors ++ bareArm ++ powerPC ++ mips ++ s390 ++ riscV

/-- The table that is used when there is no other. -/
def PlatformTable.standard : Except PlatformError PlatformTable := ofFile .standard

end IncludeScan
