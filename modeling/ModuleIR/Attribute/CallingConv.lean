set_option autoImplicit false

/-!
# Calling conventions

The closed set of calling conventions with their numeric codes and printed forms. Codes from 64 on
belong to single targets.
-/
namespace ModuleIR

inductive CallingConv where
  | c
  | fast
  | cold
  | ghc
  | hiPE
  | webKitJs
  | anyReg
  | preserveMost
  | preserveAll
  | x86StdCall
  | x86FastCall
  | armApcs
  | armAapcs
  | armAapcsVfp
  | msp430Intr
  | x86ThisCall
  | ptxKernel
  | ptxDevice
  | spirFunc
  | spirKernel
  | intelOclBi
  | x86_64SysV
  | x86_64Win64
  | x86VectorCall
  deriving DecidableEq, Repr, Inhabited

namespace CallingConv

def all : List CallingConv :=
  [c, fast, cold, ghc, hiPE, webKitJs, anyReg, preserveMost, preserveAll, x86StdCall, x86FastCall,
    armApcs, armAapcs, armAapcsVfp, msp430Intr, x86ThisCall, ptxKernel, ptxDevice, spirFunc,
    spirKernel, intelOclBi, x86_64SysV, x86_64Win64, x86VectorCall]

def code : CallingConv → Nat
  | c => 0
  | fast => 8
  | cold => 9
  | ghc => 10
  | hiPE => 11
  | webKitJs => 12
  | anyReg => 13
  | preserveMost => 14
  | preserveAll => 15
  | x86StdCall => 64
  | x86FastCall => 65
  | armApcs => 66
  | armAapcs => 67
  | armAapcsVfp => 68
  | msp430Intr => 69
  | x86ThisCall => 70
  | ptxKernel => 71
  | ptxDevice => 72
  | spirFunc => 75
  | spirKernel => 76
  | intelOclBi => 77
  | x86_64SysV => 78
  | x86_64Win64 => 79
  | x86VectorCall => 80

def name : CallingConv → String
  | c => "C"
  | fast => "Fast"
  | cold => "Cold"
  | ghc => "Ghc"
  | hiPE => "HiPE"
  | webKitJs => "WebKitJs"
  | anyReg => "AnyReg"
  | preserveMost => "PreserveMost"
  | preserveAll => "PreserveAll"
  | x86StdCall => "X86StdCall"
  | x86FastCall => "X86FastCall"
  | armApcs => "ArmApcs"
  | armAapcs => "ArmAapcs"
  | armAapcsVfp => "ArmAapcsVfp"
  | msp430Intr => "Msp430Intr"
  | x86ThisCall => "X86ThisCall"
  | ptxKernel => "PtxKernel"
  | ptxDevice => "PtxDevice"
  | spirFunc => "SpirFunc"
  | spirKernel => "SpirKernel"
  | intelOclBi => "IntelOclBi"
  | x86_64SysV => "X86_64SysV"
  | x86_64Win64 => "X86_64Win64"
  | x86VectorCall => "X86VectorCall"

/-- Printed form. The convention without a keyword of its own is printed by number. -/
def text : CallingConv → String
  | c => "ccc"
  | fast => "fastcc"
  | cold => "coldcc"
  | ghc => "ghccc"
  | hiPE => "cc 11"
  | webKitJs => "webkit_jscc"
  | anyReg => "anyregcc"
  | preserveMost => "preserve_mostcc"
  | preserveAll => "preserve_allcc"
  | x86StdCall => "x86_stdcallcc"
  | x86FastCall => "x86_fastcallcc"
  | armApcs => "arm_apcscc"
  | armAapcs => "arm_aapcscc"
  | armAapcsVfp => "arm_aapcs_vfpcc"
  | msp430Intr => "msp430_intrcc"
  | x86ThisCall => "x86_thiscallcc"
  | ptxKernel => "ptx_kernel"
  | ptxDevice => "ptx_device"
  | spirFunc => "spir_func"
  | spirKernel => "spir_kernel"
  | intelOclBi => "intel_ocl_bicc"
  | x86_64SysV => "x86_64_sysvcc"
  | x86_64Win64 => "x86_64_win64cc"
  | x86VectorCall => "x86_vectorcallcc"

def firstTargetCode : Nat := 64

def isTargetSpecific (cc : CallingConv) : Bool := firstTargetCode ≤ cc.code

def ofCode? (code : Nat) : Option CallingConv := all.find? (·.code == code)

def ofName? (name : String) : Option CallingConv := all.find? (·.name == name)

theorem ofCode?_code (cc : CallingConv) : ofCode? cc.code = some cc := by cases cc <;> rfl

theorem ofName?_name (cc : CallingConv) : ofName? cc.name = some cc := by cases cc <;> rfl

end CallingConv
end ModuleIR
