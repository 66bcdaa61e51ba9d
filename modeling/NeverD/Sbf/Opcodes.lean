import NeverD.Sbf.Ir

namespace NeverD.Sbf

inductive Version
  | v0 | v1 | v2 | v3 | v4 | auto | reserved
deriving DecidableEq

namespace Version

def elfFlags : Version → Nat
  | v0 => 0 | v1 => 1 | v2 => 2 | v3 => 3 | v4 => 4 | auto => 0xff | reserved => 0xfe

def isConcreteVersion : Version → Bool
  | auto | reserved => false
  | _ => true

end Version

inductive VersionFeature
  | stackFrameGaps | manualStackFrames | pqr | explicitSignExtension | swapSubImmediate | disableNeg
  | callXSource | disableLDDW | disableLE | movedMemory | staticSyscalls | strictELF | lowerRodata
  | jmp32 | callXDestination | alignedMemoryMapping
deriving DecidableEq

def versionFeatures : Version → List VersionFeature
  | .v0 => [.stackFrameGaps]
  | .v1 => [.manualStackFrames]
  | .v2 => [.manualStackFrames, .pqr, .explicitSignExtension, .swapSubImmediate, .disableNeg,
      .callXSource, .disableLDDW, .disableLE, .movedMemory]
  | .v3 => [.staticSyscalls, .strictELF, .lowerRodata, .jmp32, .callXDestination]
  | .v4 => [.staticSyscalls, .strictELF, .lowerRodata, .jmp32, .callXDestination,
      .alignedMemoryMapping]
  | _ => []

def versionHasFeature (v : Version) (feature : VersionFeature) : Bool :=
  (versionFeatures v).contains feature

inductive VersionMask
  | all | notV2 | v2Only | v3Plus
deriving DecidableEq

def VersionMask.bits : VersionMask → Nat
  | all => 0b11111 | notV2 => 0b11011 | v2Only => 0b00100 | v3Plus => 0b11000

def versionInMask (v : Version) (mask : VersionMask) : Bool :=
  v.isConcreteVersion && mask.bits.testBit v.elfFlags

inductive Opcode
  | lddw | ldBReg | ldHReg | ldWReg | ldDwReg | stBImm | stHImm | stWImm | stDwImm | stBReg | stHReg
  | stWReg | stDwReg | ld1BReg | ld2BReg | ld4BReg | ld8BReg | st1BImm | st2BImm | st4BImm | st8BImm
  | st1BReg | st2BReg | st4BReg | st8BReg | add32Imm | add32Reg | sub32Imm | sub32Reg | mul32Imm
  | mul32Reg | div32Imm | div32Reg | or32Imm | or32Reg | and32Imm | and32Reg | lsh32Imm | lsh32Reg
  | rsh32Imm | rsh32Reg | neg32 | mod32Imm | mod32Reg | xor32Imm | xor32Reg | mov32Imm | mov32Reg
  | arsh32Imm | arsh32Reg | le | be | add64Imm | add64Reg | sub64Imm | sub64Reg | mul64Imm
  | mul64Reg | div64Imm | div64Reg | or64Imm | or64Reg | and64Imm | and64Reg | lsh64Imm | lsh64Reg
  | rsh64Imm | rsh64Reg | neg64 | mod64Imm | mod64Reg | xor64Imm | xor64Reg | mov64Imm | mov64Reg
  | arsh64Imm | arsh64Reg | hor64Imm | lmul32Imm | lmul32Reg | lmul64Imm | lmul64Reg | uhmul64Imm
  | uhmul64Reg | shmul64Imm | shmul64Reg | udiv32Imm | udiv32Reg | udiv64Imm | udiv64Reg | urem32Imm
  | urem32Reg | urem64Imm | urem64Reg | sdiv32Imm | sdiv32Reg | sdiv64Imm | sdiv64Reg | srem32Imm
  | srem32Reg | srem64Imm | srem64Reg | jeq32Imm | jeq32Reg | jgt32Imm | jgt32Reg | jge32Imm
  | jge32Reg | jset32Imm | jset32Reg | jne32Imm | jne32Reg | jsgt32Imm | jsgt32Reg | jsge32Imm
  | jsge32Reg | jlt32Imm | jlt32Reg | jle32Imm | jle32Reg | jslt32Imm | jslt32Reg | jsle32Imm
  | jsle32Reg | ja | jeq64Imm | jeq64Reg | jgt64Imm | jgt64Reg | jge64Imm | jge64Reg | jset64Imm
  | jset64Reg | jne64Imm | jne64Reg | jsgt64Imm | jsgt64Reg | jsge64Imm | jsge64Reg | jlt64Imm
  | jlt64Reg | jle64Imm | jle64Reg | jslt64Imm | jslt64Reg | jsle64Imm | jsle64Reg | callImm
  | callReg | exit
  | unknown
deriving DecidableEq

inductive OperandForm
  | none | dst | dstImm | dstSrc | lddw | load | storeImm | storeReg | endian | branch | branchImm
  | branchReg | callImm | callReg
deriving DecidableEq

inductive OpcodeEffect
  | pure | mayFault | readsMemory | writesMemory | branches | terminates | calls | returns
  | memoryRead | memoryWrite | branch | terminator | call | ret
deriving DecidableEq

def OpcodeEffect.bits : OpcodeEffect → BitVec 8
  | pure => 0
  | mayFault => 1 <<< 0
  | readsMemory => 1 <<< 1
  | writesMemory => 1 <<< 2
  | branches => 1 <<< 3
  | terminates => 1 <<< 4
  | calls => 1 <<< 5
  | returns => 1 <<< 6
  | memoryRead => (1 <<< 0) ||| (1 <<< 1)
  | memoryWrite => (1 <<< 0) ||| (1 <<< 2)
  | branch => 1 <<< 3
  | terminator => 1 <<< 4
  | call => (1 <<< 0) ||| (1 <<< 5)
  | ret => 1 <<< 6

def hasEffect (set effect : OpcodeEffect) : Bool := set.bits &&& effect.bits ≠ 0

structure OpcodeInfo where
  id : Opcode
  encoding : BitVec 8
  mnemonic : String
  op : Operation
  form : OperandForm
  width : Nat
  versions : VersionMask
  effect : OpcodeEffect
deriving DecidableEq

namespace OpcodeInfo

def isAvailableIn (info : OpcodeInfo) (v : Version) : Bool := versionInMask v info.versions

def isBranch (info : OpcodeInfo) : Bool :=
  hasEffect info.effect .branches || hasEffect info.effect .terminates

def isConditionalBranch (info : OpcodeInfo) : Bool := hasEffect info.effect .branches

def isCall (info : OpcodeInfo) : Bool := hasEffect info.effect .calls

def isExit (info : OpcodeInfo) : Bool := hasEffect info.effect .returns

def writesMemory (info : OpcodeInfo) : Bool := hasEffect info.effect .writesMemory

def writesDestinationRegister (info : OpcodeInfo) : Bool :=
  info.form = .dst || info.form = .dstImm || info.form = .dstSrc || info.form = .lddw || info.form =
    .load || info.form = .endian

end OpcodeInfo

def opcodeTable : List OpcodeInfo := [⟨.lddw, 0x18, "lddw", .loadImm, .lddw, 64, .notV2, .pure⟩,
  ⟨.ldBReg, 0x71, "ldxb", .load, .load, 8, .notV2, .memoryRead⟩,
  ⟨.ldHReg, 0x69, "ldxh", .load, .load, 16, .notV2, .memoryRead⟩,
  ⟨.ldWReg, 0x61, "ldxw", .load, .load, 32, .notV2, .memoryRead⟩,
  ⟨.ldDwReg, 0x79, "ldxdw", .load, .load, 64, .notV2, .memoryRead⟩,
  ⟨.stBImm, 0x72, "stb", .store, .storeImm, 8, .notV2, .memoryWrite⟩,
  ⟨.stHImm, 0x6a, "sth", .store, .storeImm, 16, .notV2, .memoryWrite⟩,
  ⟨.stWImm, 0x62, "stw", .store, .storeImm, 32, .notV2, .memoryWrite⟩,
  ⟨.stDwImm, 0x7a, "stdw", .store, .storeImm, 64, .notV2, .memoryWrite⟩,
  ⟨.stBReg, 0x73, "stxb", .store, .storeReg, 8, .notV2, .memoryWrite⟩,
  ⟨.stHReg, 0x6b, "stxh", .store, .storeReg, 16, .notV2, .memoryWrite⟩,
  ⟨.stWReg, 0x63, "stxw", .store, .storeReg, 32, .notV2, .memoryWrite⟩,
  ⟨.stDwReg, 0x7b, "stxdw", .store, .storeReg, 64, .notV2, .memoryWrite⟩,
  ⟨.ld1BReg, 0x2c, "ldxb", .load, .load, 8, .v2Only, .memoryRead⟩,
  ⟨.ld2BReg, 0x3c, "ldxh", .load, .load, 16, .v2Only, .memoryRead⟩,
  ⟨.ld4BReg, 0x8c, "ldxw", .load, .load, 32, .v2Only, .memoryRead⟩,
  ⟨.ld8BReg, 0x9c, "ldxdw", .load, .load, 64, .v2Only, .memoryRead⟩,
  ⟨.st1BImm, 0x27, "stb", .store, .storeImm, 8, .v2Only, .memoryWrite⟩,
  ⟨.st2BImm, 0x37, "sth", .store, .storeImm, 16, .v2Only, .memoryWrite⟩,
  ⟨.st4BImm, 0x87, "stw", .store, .storeImm, 32, .v2Only, .memoryWrite⟩,
  ⟨.st8BImm, 0x97, "stdw", .store, .storeImm, 64, .v2Only, .memoryWrite⟩,
  ⟨.st1BReg, 0x2f, "stxb", .store, .storeReg, 8, .v2Only, .memoryWrite⟩,
  ⟨.st2BReg, 0x3f, "stxh", .store, .storeReg, 16, .v2Only, .memoryWrite⟩,
  ⟨.st4BReg, 0x8f, "stxw", .store, .storeReg, 32, .v2Only, .memoryWrite⟩,
  ⟨.st8BReg, 0x9f, "stxdw", .store, .storeReg, 64, .v2Only, .memoryWrite⟩,
  ⟨.add32Imm, 0x04, "add32", .add, .dstImm, 32, .all, .pure⟩,
  ⟨.add32Reg, 0x0c, "add32", .add, .dstSrc, 32, .all, .pure⟩,
  ⟨.sub32Imm, 0x14, "sub32", .sub, .dstImm, 32, .all, .pure⟩,
  ⟨.sub32Reg, 0x1c, "sub32", .sub, .dstSrc, 32, .all, .pure⟩,
  ⟨.mul32Imm, 0x24, "mul32", .mul, .dstImm, 32, .notV2, .pure⟩,
  ⟨.mul32Reg, 0x2c, "mul32", .mul, .dstSrc, 32, .notV2, .pure⟩,
  ⟨.div32Imm, 0x34, "div32", .uDiv, .dstImm, 32, .notV2, .mayFault⟩,
  ⟨.div32Reg, 0x3c, "div32", .uDiv, .dstSrc, 32, .notV2, .mayFault⟩,
  ⟨.or32Imm, 0x44, "or32", .or, .dstImm, 32, .all, .pure⟩,
  ⟨.or32Reg, 0x4c, "or32", .or, .dstSrc, 32, .all, .pure⟩,
  ⟨.and32Imm, 0x54, "and32", .and, .dstImm, 32, .all, .pure⟩,
  ⟨.and32Reg, 0x5c, "and32", .and, .dstSrc, 32, .all, .pure⟩,
  ⟨.lsh32Imm, 0x64, "lsh32", .lSh, .dstImm, 32, .all, .mayFault⟩,
  ⟨.lsh32Reg, 0x6c, "lsh32", .lSh, .dstSrc, 32, .all, .pure⟩,
  ⟨.rsh32Imm, 0x74, "rsh32", .rSh, .dstImm, 32, .all, .mayFault⟩,
  ⟨.rsh32Reg, 0x7c, "rsh32", .rSh, .dstSrc, 32, .all, .pure⟩,
  ⟨.neg32, 0x84, "neg32", .neg, .dst, 32, .notV2, .pure⟩,
  ⟨.mod32Imm, 0x94, "mod32", .uRem, .dstImm, 32, .notV2, .mayFault⟩,
  ⟨.mod32Reg, 0x9c, "mod32", .uRem, .dstSrc, 32, .notV2, .mayFault⟩,
  ⟨.xor32Imm, 0xa4, "xor32", .xor, .dstImm, 32, .all, .pure⟩,
  ⟨.xor32Reg, 0xac, "xor32", .xor, .dstSrc, 32, .all, .pure⟩,
  ⟨.mov32Imm, 0xb4, "mov32", .mov, .dstImm, 32, .all, .pure⟩,
  ⟨.mov32Reg, 0xbc, "mov32", .mov, .dstSrc, 32, .all, .pure⟩,
  ⟨.arsh32Imm, 0xc4, "arsh32", .aRSh, .dstImm, 32, .all, .mayFault⟩,
  ⟨.arsh32Reg, 0xcc, "arsh32", .aRSh, .dstSrc, 32, .all, .pure⟩,
  ⟨.le, 0xd4, "le", .endianLE, .endian, 0, .notV2, .pure⟩,
  ⟨.be, 0xdc, "be", .endianBE, .endian, 0, .all, .pure⟩,
  ⟨.add64Imm, 0x07, "add64", .add, .dstImm, 64, .all, .pure⟩,
  ⟨.add64Reg, 0x0f, "add64", .add, .dstSrc, 64, .all, .pure⟩,
  ⟨.sub64Imm, 0x17, "sub64", .sub, .dstImm, 64, .all, .pure⟩,
  ⟨.sub64Reg, 0x1f, "sub64", .sub, .dstSrc, 64, .all, .pure⟩,
  ⟨.mul64Imm, 0x27, "mul64", .mul, .dstImm, 64, .notV2, .pure⟩,
  ⟨.mul64Reg, 0x2f, "mul64", .mul, .dstSrc, 64, .notV2, .pure⟩,
  ⟨.div64Imm, 0x37, "div64", .uDiv, .dstImm, 64, .notV2, .mayFault⟩,
  ⟨.div64Reg, 0x3f, "div64", .uDiv, .dstSrc, 64, .notV2, .mayFault⟩,
  ⟨.or64Imm, 0x47, "or64", .or, .dstImm, 64, .all, .pure⟩,
  ⟨.or64Reg, 0x4f, "or64", .or, .dstSrc, 64, .all, .pure⟩,
  ⟨.and64Imm, 0x57, "and64", .and, .dstImm, 64, .all, .pure⟩,
  ⟨.and64Reg, 0x5f, "and64", .and, .dstSrc, 64, .all, .pure⟩,
  ⟨.lsh64Imm, 0x67, "lsh64", .lSh, .dstImm, 64, .all, .mayFault⟩,
  ⟨.lsh64Reg, 0x6f, "lsh64", .lSh, .dstSrc, 64, .all, .pure⟩,
  ⟨.rsh64Imm, 0x77, "rsh64", .rSh, .dstImm, 64, .all, .mayFault⟩,
  ⟨.rsh64Reg, 0x7f, "rsh64", .rSh, .dstSrc, 64, .all, .pure⟩,
  ⟨.neg64, 0x87, "neg64", .neg, .dst, 64, .notV2, .pure⟩,
  ⟨.mod64Imm, 0x97, "mod64", .uRem, .dstImm, 64, .notV2, .mayFault⟩,
  ⟨.mod64Reg, 0x9f, "mod64", .uRem, .dstSrc, 64, .notV2, .mayFault⟩,
  ⟨.xor64Imm, 0xa7, "xor64", .xor, .dstImm, 64, .all, .pure⟩,
  ⟨.xor64Reg, 0xaf, "xor64", .xor, .dstSrc, 64, .all, .pure⟩,
  ⟨.mov64Imm, 0xb7, "mov64", .mov, .dstImm, 64, .all, .pure⟩,
  ⟨.mov64Reg, 0xbf, "mov64", .mov, .dstSrc, 64, .all, .pure⟩,
  ⟨.arsh64Imm, 0xc7, "arsh64", .aRSh, .dstImm, 64, .all, .mayFault⟩,
  ⟨.arsh64Reg, 0xcf, "arsh64", .aRSh, .dstSrc, 64, .all, .pure⟩,
  ⟨.hor64Imm, 0xf7, "hor64", .highOr, .dstImm, 64, .v2Only, .pure⟩,
  ⟨.lmul32Imm, 0x86, "lmul32", .mul, .dstImm, 32, .v2Only, .pure⟩,
  ⟨.lmul32Reg, 0x8e, "lmul32", .mul, .dstSrc, 32, .v2Only, .pure⟩,
  ⟨.lmul64Imm, 0x96, "lmul64", .mul, .dstImm, 64, .v2Only, .pure⟩,
  ⟨.lmul64Reg, 0x9e, "lmul64", .mul, .dstSrc, 64, .v2Only, .pure⟩,
  ⟨.uhmul64Imm, 0x36, "uhmul64", .uHighMul, .dstImm, 64, .v2Only, .pure⟩,
  ⟨.uhmul64Reg, 0x3e, "uhmul64", .uHighMul, .dstSrc, 64, .v2Only, .pure⟩,
  ⟨.shmul64Imm, 0xb6, "shmul64", .sHighMul, .dstImm, 64, .v2Only, .pure⟩,
  ⟨.shmul64Reg, 0xbe, "shmul64", .sHighMul, .dstSrc, 64, .v2Only, .pure⟩,
  ⟨.udiv32Imm, 0x46, "udiv32", .uDiv, .dstImm, 32, .v2Only, .mayFault⟩,
  ⟨.udiv32Reg, 0x4e, "udiv32", .uDiv, .dstSrc, 32, .v2Only, .mayFault⟩,
  ⟨.udiv64Imm, 0x56, "udiv64", .uDiv, .dstImm, 64, .v2Only, .mayFault⟩,
  ⟨.udiv64Reg, 0x5e, "udiv64", .uDiv, .dstSrc, 64, .v2Only, .mayFault⟩,
  ⟨.urem32Imm, 0x66, "urem32", .uRem, .dstImm, 32, .v2Only, .mayFault⟩,
  ⟨.urem32Reg, 0x6e, "urem32", .uRem, .dstSrc, 32, .v2Only, .mayFault⟩,
  ⟨.urem64Imm, 0x76, "urem64", .uRem, .dstImm, 64, .v2Only, .mayFault⟩,
  ⟨.urem64Reg, 0x7e, "urem64", .uRem, .dstSrc, 64, .v2Only, .mayFault⟩,
  ⟨.sdiv32Imm, 0xc6, "sdiv32", .sDiv, .dstImm, 32, .v2Only, .mayFault⟩,
  ⟨.sdiv32Reg, 0xce, "sdiv32", .sDiv, .dstSrc, 32, .v2Only, .mayFault⟩,
  ⟨.sdiv64Imm, 0xd6, "sdiv64", .sDiv, .dstImm, 64, .v2Only, .mayFault⟩,
  ⟨.sdiv64Reg, 0xde, "sdiv64", .sDiv, .dstSrc, 64, .v2Only, .mayFault⟩,
  ⟨.srem32Imm, 0xe6, "srem32", .sRem, .dstImm, 32, .v2Only, .mayFault⟩,
  ⟨.srem32Reg, 0xee, "srem32", .sRem, .dstSrc, 32, .v2Only, .mayFault⟩,
  ⟨.srem64Imm, 0xf6, "srem64", .sRem, .dstImm, 64, .v2Only, .mayFault⟩,
  ⟨.srem64Reg, 0xfe, "srem64", .sRem, .dstSrc, 64, .v2Only, .mayFault⟩,
  ⟨.jeq32Imm, 0x16, "jeq32", .eq, .branchImm, 32, .v3Plus, .branch⟩,
  ⟨.jeq32Reg, 0x1e, "jeq32", .eq, .branchReg, 32, .v3Plus, .branch⟩,
  ⟨.jgt32Imm, 0x26, "jgt32", .uGt, .branchImm, 32, .v3Plus, .branch⟩,
  ⟨.jgt32Reg, 0x2e, "jgt32", .uGt, .branchReg, 32, .v3Plus, .branch⟩,
  ⟨.jge32Imm, 0x36, "jge32", .uGe, .branchImm, 32, .v3Plus, .branch⟩,
  ⟨.jge32Reg, 0x3e, "jge32", .uGe, .branchReg, 32, .v3Plus, .branch⟩,
  ⟨.jset32Imm, 0x46, "jset32", .set, .branchImm, 32, .v3Plus, .branch⟩,
  ⟨.jset32Reg, 0x4e, "jset32", .set, .branchReg, 32, .v3Plus, .branch⟩,
  ⟨.jne32Imm, 0x56, "jne32", .ne, .branchImm, 32, .v3Plus, .branch⟩,
  ⟨.jne32Reg, 0x5e, "jne32", .ne, .branchReg, 32, .v3Plus, .branch⟩,
  ⟨.jsgt32Imm, 0x66, "jsgt32", .sGt, .branchImm, 32, .v3Plus, .branch⟩,
  ⟨.jsgt32Reg, 0x6e, "jsgt32", .sGt, .branchReg, 32, .v3Plus, .branch⟩,
  ⟨.jsge32Imm, 0x76, "jsge32", .sGe, .branchImm, 32, .v3Plus, .branch⟩,
  ⟨.jsge32Reg, 0x7e, "jsge32", .sGe, .branchReg, 32, .v3Plus, .branch⟩,
  ⟨.jlt32Imm, 0xa6, "jlt32", .uLt, .branchImm, 32, .v3Plus, .branch⟩,
  ⟨.jlt32Reg, 0xae, "jlt32", .uLt, .branchReg, 32, .v3Plus, .branch⟩,
  ⟨.jle32Imm, 0xb6, "jle32", .uLe, .branchImm, 32, .v3Plus, .branch⟩,
  ⟨.jle32Reg, 0xbe, "jle32", .uLe, .branchReg, 32, .v3Plus, .branch⟩,
  ⟨.jslt32Imm, 0xc6, "jslt32", .sLt, .branchImm, 32, .v3Plus, .branch⟩,
  ⟨.jslt32Reg, 0xce, "jslt32", .sLt, .branchReg, 32, .v3Plus, .branch⟩,
  ⟨.jsle32Imm, 0xd6, "jsle32", .sLe, .branchImm, 32, .v3Plus, .branch⟩,
  ⟨.jsle32Reg, 0xde, "jsle32", .sLe, .branchReg, 32, .v3Plus, .branch⟩,
  ⟨.ja, 0x05, "ja", .jump, .branch, 64, .all, .terminator⟩,
  ⟨.jeq64Imm, 0x15, "jeq", .eq, .branchImm, 64, .all, .branch⟩,
  ⟨.jeq64Reg, 0x1d, "jeq", .eq, .branchReg, 64, .all, .branch⟩,
  ⟨.jgt64Imm, 0x25, "jgt", .uGt, .branchImm, 64, .all, .branch⟩,
  ⟨.jgt64Reg, 0x2d, "jgt", .uGt, .branchReg, 64, .all, .branch⟩,
  ⟨.jge64Imm, 0x35, "jge", .uGe, .branchImm, 64, .all, .branch⟩,
  ⟨.jge64Reg, 0x3d, "jge", .uGe, .branchReg, 64, .all, .branch⟩,
  ⟨.jset64Imm, 0x45, "jset", .set, .branchImm, 64, .all, .branch⟩,
  ⟨.jset64Reg, 0x4d, "jset", .set, .branchReg, 64, .all, .branch⟩,
  ⟨.jne64Imm, 0x55, "jne", .ne, .branchImm, 64, .all, .branch⟩,
  ⟨.jne64Reg, 0x5d, "jne", .ne, .branchReg, 64, .all, .branch⟩,
  ⟨.jsgt64Imm, 0x65, "jsgt", .sGt, .branchImm, 64, .all, .branch⟩,
  ⟨.jsgt64Reg, 0x6d, "jsgt", .sGt, .branchReg, 64, .all, .branch⟩,
  ⟨.jsge64Imm, 0x75, "jsge", .sGe, .branchImm, 64, .all, .branch⟩,
  ⟨.jsge64Reg, 0x7d, "jsge", .sGe, .branchReg, 64, .all, .branch⟩,
  ⟨.jlt64Imm, 0xa5, "jlt", .uLt, .branchImm, 64, .all, .branch⟩,
  ⟨.jlt64Reg, 0xad, "jlt", .uLt, .branchReg, 64, .all, .branch⟩,
  ⟨.jle64Imm, 0xb5, "jle", .uLe, .branchImm, 64, .all, .branch⟩,
  ⟨.jle64Reg, 0xbd, "jle", .uLe, .branchReg, 64, .all, .branch⟩,
  ⟨.jslt64Imm, 0xc5, "jslt", .sLt, .branchImm, 64, .all, .branch⟩,
  ⟨.jslt64Reg, 0xcd, "jslt", .sLt, .branchReg, 64, .all, .branch⟩,
  ⟨.jsle64Imm, 0xd5, "jsle", .sLe, .branchImm, 64, .all, .branch⟩,
  ⟨.jsle64Reg, 0xdd, "jsle", .sLe, .branchReg, 64, .all, .branch⟩,
  ⟨.callImm, 0x85, "call", .call, .callImm, 64, .all, .call⟩,
  ⟨.callReg, 0x8d, "callx", .callX, .callReg, 64, .all, .call⟩,
  ⟨.exit, 0x95, "exit", .exit, .none, 64, .all, .ret⟩]

def getOpcodeInfo (encoding : BitVec 8) (v : Version) : Option OpcodeInfo :=
  opcodeTable.find? fun info => info.encoding = encoding && info.isAvailableIn v

/-- The effect of a row agrees with its operation. No row is encoded by zero. -/
def OpcodeInfo.Consistent (info : OpcodeInfo) : Prop :=
  info.encoding ≠ 0 ∧ info.isBranch = (info.op = .jump || isConditional info.op) ∧
    info.isConditionalBranch = isConditional info.op ∧
    info.isCall = (info.op = .call || info.op = .callX) ∧
    info.isExit = decide (info.op = .exit) ∧
    (info.id = .lddw ↔ info.op = .loadImm) ∧
    (info.id = .callImm ↔ info.op = .call) ∧
    (info.id = .callReg ↔ info.op = .callX)

instance (info : OpcodeInfo) : Decidable info.Consistent := by
  unfold OpcodeInfo.Consistent
  infer_instance

set_option maxRecDepth 4000 in
lemma opcodeTable_consistent : ∀ info ∈ opcodeTable, info.Consistent := by
  decide +kernel

lemma getOpcodeInfo_mem {encoding : BitVec 8} {v : Version} {info : OpcodeInfo}
    (h : getOpcodeInfo encoding v = some info) : info ∈ opcodeTable :=
  List.mem_of_find?_eq_some h

lemma getOpcodeInfo_consistent {encoding : BitVec 8} {v : Version} {info : OpcodeInfo}
    (h : getOpcodeInfo encoding v = some info) : info.Consistent :=
  opcodeTable_consistent info (getOpcodeInfo_mem h)

lemma getOpcodeInfo_zero (v : Version) : getOpcodeInfo 0 v = none := by
  cases h : getOpcodeInfo 0 v with
  | none => rfl
  | some info =>
    have hencoding := List.find?_some h
    simp only [Bool.and_eq_true, decide_eq_true_eq] at hencoding
    exact absurd hencoding.1 (getOpcodeInfo_consistent h).1

end NeverD.Sbf
