import Mathlib.Algebra.GroupWithZero.Nat
import Mathlib.Data.List.Basic

namespace NeverD.Evm
open List

abbrev Opcode := BitVec 8

inductive Hardfork
  | frontier
  | homestead
  | daoFork
  | tangerineWhistle
  | spuriousDragon
  | byzantium
  | constantinople
  | petersburg
  | istanbul
  | muirGlacier
  | berlin
  | london
  | arrowGlacier
  | grayGlacier
  | paris
  | shanghai
  | cancun
  | pectra
  | fusaka
  | amsterdam
  | bogota
deriving DecidableEq

/-- Forks are ordered as they are declared. -/
def hardforkAtLeast (fork introduced : Hardfork) : Bool := introduced.ctorIdx ≤ fork.ctorIdx

inductive ImmediateKind
  | none
  | pushData
  | eip8024Single
  | eip8024Pair
deriving DecidableEq

inductive EffectKind
  | none
  | storageRead
  | storageWrite
  | transientRead
  | transientWrite
  | contextRead
  | externalCall
  | create
  | logs
  | selfDestruct
  | returns
  | revert
  | halt
  | control
  | unknown
deriving DecidableEq

inductive MemoryAccessKind
  | none
  | read
  | write
  | readWrite
  | unknown
deriving DecidableEq

inductive StateAccessKind
  | none
  | read
  | write
  | unknown
deriving DecidableEq

inductive CallValueAccessKind
  | none
  | read
  | unknown
deriving DecidableEq

inductive OpcodeClass
  | arithmetic
  | comparison
  | bitwise
  | crypto
  | environment
  | block
  | memory
  | storage
  | control
  | stack
  | log
  | system
  | unknown
deriving DecidableEq

structure OpcodeInfo where
  op : Opcode
  name : String
  stackPops : Nat
  stackPushes : Nat
  immediateBytes : Nat
  immediate : ImmediateKind
  opcodeClass : OpcodeClass
  introduced : Hardfork
  effect : EffectKind
  memoryAccess : MemoryAccessKind
  stateAccess : StateAccessKind
  callValueAccess : CallValueAccessKind
  isTerminator : Bool
deriving DecidableEq

def OpcodeInfo.isAssigned (info : OpcodeInfo) : Bool := info.opcodeClass ≠ .unknown

def jumpdest : Opcode := 0x5b
def prevrandao : Opcode := 0x44

def opcodeTable : List OpcodeInfo := [
  ⟨0x00, "STOP", 0, 0, 0, .none, .control, .frontier, .halt, .none, .none, .none, true⟩,
  ⟨0x01, "ADD", 2, 1, 0, .none, .arithmetic, .frontier, .none, .none, .none, .none, false⟩,
  ⟨0x02, "MUL", 2, 1, 0, .none, .arithmetic, .frontier, .none, .none, .none, .none, false⟩,
  ⟨0x03, "SUB", 2, 1, 0, .none, .arithmetic, .frontier, .none, .none, .none, .none, false⟩,
  ⟨0x04, "DIV", 2, 1, 0, .none, .arithmetic, .frontier, .none, .none, .none, .none, false⟩,
  ⟨0x05, "SDIV", 2, 1, 0, .none, .arithmetic, .frontier, .none, .none, .none, .none, false⟩,
  ⟨0x06, "MOD", 2, 1, 0, .none, .arithmetic, .frontier, .none, .none, .none, .none, false⟩,
  ⟨0x07, "SMOD", 2, 1, 0, .none, .arithmetic, .frontier, .none, .none, .none, .none, false⟩,
  ⟨0x08, "ADDMOD", 3, 1, 0, .none, .arithmetic, .frontier, .none, .none, .none, .none, false⟩,
  ⟨0x09, "MULMOD", 3, 1, 0, .none, .arithmetic, .frontier, .none, .none, .none, .none, false⟩,
  ⟨0x0a, "EXP", 2, 1, 0, .none, .arithmetic, .frontier, .none, .none, .none, .none, false⟩,
  ⟨0x0b, "SIGNEXTEND", 2, 1, 0, .none, .arithmetic, .frontier, .none, .none, .none, .none, false⟩,
  ⟨0x10, "LT", 2, 1, 0, .none, .comparison, .frontier, .none, .none, .none, .none, false⟩,
  ⟨0x11, "GT", 2, 1, 0, .none, .comparison, .frontier, .none, .none, .none, .none, false⟩,
  ⟨0x12, "SLT", 2, 1, 0, .none, .comparison, .frontier, .none, .none, .none, .none, false⟩,
  ⟨0x13, "SGT", 2, 1, 0, .none, .comparison, .frontier, .none, .none, .none, .none, false⟩,
  ⟨0x14, "EQ", 2, 1, 0, .none, .comparison, .frontier, .none, .none, .none, .none, false⟩,
  ⟨0x15, "ISZERO", 1, 1, 0, .none, .comparison, .frontier, .none, .none, .none, .none, false⟩,
  ⟨0x16, "AND", 2, 1, 0, .none, .bitwise, .frontier, .none, .none, .none, .none, false⟩,
  ⟨0x17, "OR", 2, 1, 0, .none, .bitwise, .frontier, .none, .none, .none, .none, false⟩,
  ⟨0x18, "XOR", 2, 1, 0, .none, .bitwise, .frontier, .none, .none, .none, .none, false⟩,
  ⟨0x19, "NOT", 1, 1, 0, .none, .bitwise, .frontier, .none, .none, .none, .none, false⟩,
  ⟨0x1a, "BYTE", 2, 1, 0, .none, .bitwise, .frontier, .none, .none, .none, .none, false⟩,
  ⟨0x1b, "SHL", 2, 1, 0, .none, .bitwise, .constantinople, .none, .none, .none, .none, false⟩,
  ⟨0x1c, "SHR", 2, 1, 0, .none, .bitwise, .constantinople, .none, .none, .none, .none, false⟩,
  ⟨0x1d, "SAR", 2, 1, 0, .none, .bitwise, .constantinople, .none, .none, .none, .none, false⟩,
  ⟨0x1e, "CLZ", 1, 1, 0, .none, .bitwise, .fusaka, .none, .none, .none, .none, false⟩,
  ⟨0x20, "SHA3", 2, 1, 0, .none, .crypto, .frontier, .none, .read, .none, .none, false⟩,
  ⟨0x30, "ADDRESS", 0, 1, 0, .none, .environment, .frontier, .contextRead, .none, .read,
    .none, false⟩,
  ⟨0x31, "BALANCE", 1, 1, 0, .none, .environment, .frontier, .contextRead, .none, .read,
    .none, false⟩,
  ⟨0x32, "ORIGIN", 0, 1, 0, .none, .environment, .frontier, .contextRead, .none, .read,
    .none, false⟩,
  ⟨0x33, "CALLER", 0, 1, 0, .none, .environment, .frontier, .contextRead, .none, .read,
    .none, false⟩,
  ⟨0x34, "CALLVALUE", 0, 1, 0, .none, .environment, .frontier, .contextRead, .none, .read,
    .read, false⟩,
  ⟨0x35, "CALLDATALOAD", 1, 1, 0, .none, .environment, .frontier, .contextRead, .none, .none,
    .none, false⟩,
  ⟨0x36, "CALLDATASIZE", 0, 1, 0, .none, .environment, .frontier, .contextRead, .none, .none,
    .none, false⟩,
  ⟨0x37, "CALLDATACOPY", 3, 0, 0, .none, .memory, .frontier, .contextRead, .write, .none,
    .none, false⟩,
  ⟨0x38, "CODESIZE", 0, 1, 0, .none, .environment, .frontier, .contextRead, .none, .none,
    .none, false⟩,
  ⟨0x39, "CODECOPY", 3, 0, 0, .none, .memory, .frontier, .contextRead, .write, .none, .none, false⟩,
  ⟨0x3a, "GASPRICE", 0, 1, 0, .none, .environment, .frontier, .contextRead, .none, .read,
    .none, false⟩,
  ⟨0x3b, "EXTCODESIZE", 1, 1, 0, .none, .environment, .frontier, .contextRead, .none, .read,
    .none, false⟩,
  ⟨0x3c, "EXTCODECOPY", 4, 0, 0, .none, .memory, .frontier, .contextRead, .write, .read,
    .none, false⟩,
  ⟨0x3d, "RETURNDATASIZE", 0, 1, 0, .none, .environment, .byzantium, .contextRead, .none, .none,
    .none, false⟩,
  ⟨0x3e, "RETURNDATACOPY", 3, 0, 0, .none, .memory, .byzantium, .contextRead, .write, .none,
    .none, false⟩,
  ⟨0x3f, "EXTCODEHASH", 1, 1, 0, .none, .environment, .constantinople, .contextRead, .none, .read,
    .none, false⟩,
  ⟨0x40, "BLOCKHASH", 1, 1, 0, .none, .block, .frontier, .contextRead, .none, .read, .none, false⟩,
  ⟨0x41, "COINBASE", 0, 1, 0, .none, .block, .frontier, .contextRead, .none, .read, .none, false⟩,
  ⟨0x42, "TIMESTAMP", 0, 1, 0, .none, .block, .frontier, .contextRead, .none, .read, .none, false⟩,
  ⟨0x43, "NUMBER", 0, 1, 0, .none, .block, .frontier, .contextRead, .none, .read, .none, false⟩,
  ⟨0x44, "PREVRANDAO", 0, 1, 0, .none, .block, .frontier, .contextRead, .none, .read, .none, false⟩,
  ⟨0x45, "GASLIMIT", 0, 1, 0, .none, .block, .frontier, .contextRead, .none, .read, .none, false⟩,
  ⟨0x46, "CHAINID", 0, 1, 0, .none, .block, .istanbul, .contextRead, .none, .read, .none, false⟩,
  ⟨0x47, "SELFBALANCE", 0, 1, 0, .none, .environment, .istanbul, .contextRead, .none, .read,
    .none, false⟩,
  ⟨0x48, "BASEFEE", 0, 1, 0, .none, .block, .london, .contextRead, .none, .read, .none, false⟩,
  ⟨0x49, "BLOBHASH", 1, 1, 0, .none, .environment, .cancun, .contextRead, .none, .read,
    .none, false⟩,
  ⟨0x4a, "BLOBBASEFEE", 0, 1, 0, .none, .block, .cancun, .contextRead, .none, .read, .none, false⟩,
  ⟨0x4b, "SLOTNUM", 0, 1, 0, .none, .block, .amsterdam, .contextRead, .none, .read, .none, false⟩,
  ⟨0x50, "POP", 1, 0, 0, .none, .stack, .frontier, .none, .none, .none, .none, false⟩,
  ⟨0x51, "MLOAD", 1, 1, 0, .none, .memory, .frontier, .none, .read, .none, .none, false⟩,
  ⟨0x52, "MSTORE", 2, 0, 0, .none, .memory, .frontier, .none, .write, .none, .none, false⟩,
  ⟨0x53, "MSTORE8", 2, 0, 0, .none, .memory, .frontier, .none, .write, .none, .none, false⟩,
  ⟨0x54, "SLOAD", 1, 1, 0, .none, .storage, .frontier, .storageRead, .none, .read, .none, false⟩,
  ⟨0x55, "SSTORE", 2, 0, 0, .none, .storage, .frontier, .storageWrite, .none, .write, .none, false⟩,
  ⟨0x56, "JUMP", 1, 0, 0, .none, .control, .frontier, .control, .none, .none, .none, true⟩,
  ⟨0x57, "JUMPI", 2, 0, 0, .none, .control, .frontier, .control, .none, .none, .none, true⟩,
  ⟨0x58, "PC", 0, 1, 0, .none, .control, .frontier, .none, .none, .none, .none, false⟩,
  ⟨0x59, "MSIZE", 0, 1, 0, .none, .memory, .frontier, .none, .none, .none, .none, false⟩,
  ⟨0x5a, "GAS", 0, 1, 0, .none, .environment, .frontier, .contextRead, .none, .read, .none, false⟩,
  ⟨0x5b, "JUMPDEST", 0, 0, 0, .none, .control, .frontier, .none, .none, .none, .none, false⟩,
  ⟨0x5c, "TLOAD", 1, 1, 0, .none, .storage, .cancun, .transientRead, .none, .read, .none, false⟩,
  ⟨0x5d, "TSTORE", 2, 0, 0, .none, .storage, .cancun, .transientWrite, .none, .write, .none, false⟩,
  ⟨0x5e, "MCOPY", 3, 0, 0, .none, .memory, .cancun, .none, .readWrite, .none, .none, false⟩,
  ⟨0x5f, "PUSH0", 0, 1, 0, .none, .stack, .shanghai, .none, .none, .none, .none, false⟩,
  ⟨0x60, "PUSH1", 0, 1, 1, .pushData, .stack, .frontier, .none, .none, .none, .none, false⟩,
  ⟨0x61, "PUSH2", 0, 1, 2, .pushData, .stack, .frontier, .none, .none, .none, .none, false⟩,
  ⟨0x62, "PUSH3", 0, 1, 3, .pushData, .stack, .frontier, .none, .none, .none, .none, false⟩,
  ⟨0x63, "PUSH4", 0, 1, 4, .pushData, .stack, .frontier, .none, .none, .none, .none, false⟩,
  ⟨0x64, "PUSH5", 0, 1, 5, .pushData, .stack, .frontier, .none, .none, .none, .none, false⟩,
  ⟨0x65, "PUSH6", 0, 1, 6, .pushData, .stack, .frontier, .none, .none, .none, .none, false⟩,
  ⟨0x66, "PUSH7", 0, 1, 7, .pushData, .stack, .frontier, .none, .none, .none, .none, false⟩,
  ⟨0x67, "PUSH8", 0, 1, 8, .pushData, .stack, .frontier, .none, .none, .none, .none, false⟩,
  ⟨0x68, "PUSH9", 0, 1, 9, .pushData, .stack, .frontier, .none, .none, .none, .none, false⟩,
  ⟨0x69, "PUSH10", 0, 1, 10, .pushData, .stack, .frontier, .none, .none, .none, .none, false⟩,
  ⟨0x6a, "PUSH11", 0, 1, 11, .pushData, .stack, .frontier, .none, .none, .none, .none, false⟩,
  ⟨0x6b, "PUSH12", 0, 1, 12, .pushData, .stack, .frontier, .none, .none, .none, .none, false⟩,
  ⟨0x6c, "PUSH13", 0, 1, 13, .pushData, .stack, .frontier, .none, .none, .none, .none, false⟩,
  ⟨0x6d, "PUSH14", 0, 1, 14, .pushData, .stack, .frontier, .none, .none, .none, .none, false⟩,
  ⟨0x6e, "PUSH15", 0, 1, 15, .pushData, .stack, .frontier, .none, .none, .none, .none, false⟩,
  ⟨0x6f, "PUSH16", 0, 1, 16, .pushData, .stack, .frontier, .none, .none, .none, .none, false⟩,
  ⟨0x70, "PUSH17", 0, 1, 17, .pushData, .stack, .frontier, .none, .none, .none, .none, false⟩,
  ⟨0x71, "PUSH18", 0, 1, 18, .pushData, .stack, .frontier, .none, .none, .none, .none, false⟩,
  ⟨0x72, "PUSH19", 0, 1, 19, .pushData, .stack, .frontier, .none, .none, .none, .none, false⟩,
  ⟨0x73, "PUSH20", 0, 1, 20, .pushData, .stack, .frontier, .none, .none, .none, .none, false⟩,
  ⟨0x74, "PUSH21", 0, 1, 21, .pushData, .stack, .frontier, .none, .none, .none, .none, false⟩,
  ⟨0x75, "PUSH22", 0, 1, 22, .pushData, .stack, .frontier, .none, .none, .none, .none, false⟩,
  ⟨0x76, "PUSH23", 0, 1, 23, .pushData, .stack, .frontier, .none, .none, .none, .none, false⟩,
  ⟨0x77, "PUSH24", 0, 1, 24, .pushData, .stack, .frontier, .none, .none, .none, .none, false⟩,
  ⟨0x78, "PUSH25", 0, 1, 25, .pushData, .stack, .frontier, .none, .none, .none, .none, false⟩,
  ⟨0x79, "PUSH26", 0, 1, 26, .pushData, .stack, .frontier, .none, .none, .none, .none, false⟩,
  ⟨0x7a, "PUSH27", 0, 1, 27, .pushData, .stack, .frontier, .none, .none, .none, .none, false⟩,
  ⟨0x7b, "PUSH28", 0, 1, 28, .pushData, .stack, .frontier, .none, .none, .none, .none, false⟩,
  ⟨0x7c, "PUSH29", 0, 1, 29, .pushData, .stack, .frontier, .none, .none, .none, .none, false⟩,
  ⟨0x7d, "PUSH30", 0, 1, 30, .pushData, .stack, .frontier, .none, .none, .none, .none, false⟩,
  ⟨0x7e, "PUSH31", 0, 1, 31, .pushData, .stack, .frontier, .none, .none, .none, .none, false⟩,
  ⟨0x7f, "PUSH32", 0, 1, 32, .pushData, .stack, .frontier, .none, .none, .none, .none, false⟩,
  ⟨0x80, "DUP1", 0, 1, 0, .none, .stack, .frontier, .none, .none, .none, .none, false⟩,
  ⟨0x81, "DUP2", 0, 1, 0, .none, .stack, .frontier, .none, .none, .none, .none, false⟩,
  ⟨0x82, "DUP3", 0, 1, 0, .none, .stack, .frontier, .none, .none, .none, .none, false⟩,
  ⟨0x83, "DUP4", 0, 1, 0, .none, .stack, .frontier, .none, .none, .none, .none, false⟩,
  ⟨0x84, "DUP5", 0, 1, 0, .none, .stack, .frontier, .none, .none, .none, .none, false⟩,
  ⟨0x85, "DUP6", 0, 1, 0, .none, .stack, .frontier, .none, .none, .none, .none, false⟩,
  ⟨0x86, "DUP7", 0, 1, 0, .none, .stack, .frontier, .none, .none, .none, .none, false⟩,
  ⟨0x87, "DUP8", 0, 1, 0, .none, .stack, .frontier, .none, .none, .none, .none, false⟩,
  ⟨0x88, "DUP9", 0, 1, 0, .none, .stack, .frontier, .none, .none, .none, .none, false⟩,
  ⟨0x89, "DUP10", 0, 1, 0, .none, .stack, .frontier, .none, .none, .none, .none, false⟩,
  ⟨0x8a, "DUP11", 0, 1, 0, .none, .stack, .frontier, .none, .none, .none, .none, false⟩,
  ⟨0x8b, "DUP12", 0, 1, 0, .none, .stack, .frontier, .none, .none, .none, .none, false⟩,
  ⟨0x8c, "DUP13", 0, 1, 0, .none, .stack, .frontier, .none, .none, .none, .none, false⟩,
  ⟨0x8d, "DUP14", 0, 1, 0, .none, .stack, .frontier, .none, .none, .none, .none, false⟩,
  ⟨0x8e, "DUP15", 0, 1, 0, .none, .stack, .frontier, .none, .none, .none, .none, false⟩,
  ⟨0x8f, "DUP16", 0, 1, 0, .none, .stack, .frontier, .none, .none, .none, .none, false⟩,
  ⟨0x90, "SWAP1", 0, 0, 0, .none, .stack, .frontier, .none, .none, .none, .none, false⟩,
  ⟨0x91, "SWAP2", 0, 0, 0, .none, .stack, .frontier, .none, .none, .none, .none, false⟩,
  ⟨0x92, "SWAP3", 0, 0, 0, .none, .stack, .frontier, .none, .none, .none, .none, false⟩,
  ⟨0x93, "SWAP4", 0, 0, 0, .none, .stack, .frontier, .none, .none, .none, .none, false⟩,
  ⟨0x94, "SWAP5", 0, 0, 0, .none, .stack, .frontier, .none, .none, .none, .none, false⟩,
  ⟨0x95, "SWAP6", 0, 0, 0, .none, .stack, .frontier, .none, .none, .none, .none, false⟩,
  ⟨0x96, "SWAP7", 0, 0, 0, .none, .stack, .frontier, .none, .none, .none, .none, false⟩,
  ⟨0x97, "SWAP8", 0, 0, 0, .none, .stack, .frontier, .none, .none, .none, .none, false⟩,
  ⟨0x98, "SWAP9", 0, 0, 0, .none, .stack, .frontier, .none, .none, .none, .none, false⟩,
  ⟨0x99, "SWAP10", 0, 0, 0, .none, .stack, .frontier, .none, .none, .none, .none, false⟩,
  ⟨0x9a, "SWAP11", 0, 0, 0, .none, .stack, .frontier, .none, .none, .none, .none, false⟩,
  ⟨0x9b, "SWAP12", 0, 0, 0, .none, .stack, .frontier, .none, .none, .none, .none, false⟩,
  ⟨0x9c, "SWAP13", 0, 0, 0, .none, .stack, .frontier, .none, .none, .none, .none, false⟩,
  ⟨0x9d, "SWAP14", 0, 0, 0, .none, .stack, .frontier, .none, .none, .none, .none, false⟩,
  ⟨0x9e, "SWAP15", 0, 0, 0, .none, .stack, .frontier, .none, .none, .none, .none, false⟩,
  ⟨0x9f, "SWAP16", 0, 0, 0, .none, .stack, .frontier, .none, .none, .none, .none, false⟩,
  ⟨0xa0, "LOG0", 2, 0, 0, .none, .log, .frontier, .logs, .read, .write, .none, false⟩,
  ⟨0xa1, "LOG1", 3, 0, 0, .none, .log, .frontier, .logs, .read, .write, .none, false⟩,
  ⟨0xa2, "LOG2", 4, 0, 0, .none, .log, .frontier, .logs, .read, .write, .none, false⟩,
  ⟨0xa3, "LOG3", 5, 0, 0, .none, .log, .frontier, .logs, .read, .write, .none, false⟩,
  ⟨0xa4, "LOG4", 6, 0, 0, .none, .log, .frontier, .logs, .read, .write, .none, false⟩,
  ⟨0xe6, "DUPN", 0, 1, 1, .eip8024Single, .stack, .amsterdam, .none, .none, .none, .none, false⟩,
  ⟨0xe7, "SWAPN", 0, 0, 1, .eip8024Single, .stack, .amsterdam, .none, .none, .none, .none, false⟩,
  ⟨0xe8, "EXCHANGE", 0, 0, 1, .eip8024Pair, .stack, .amsterdam, .none, .none, .none, .none, false⟩,
  ⟨0xf0, "CREATE", 3, 1, 0, .none, .system, .frontier, .create, .read, .write, .none, false⟩,
  ⟨0xf1, "CALL", 7, 1, 0, .none, .system, .frontier, .externalCall, .readWrite, .write,
    .none, false⟩,
  ⟨0xf2, "CALLCODE", 7, 1, 0, .none, .system, .frontier, .externalCall, .readWrite, .write,
    .none, false⟩,
  ⟨0xf3, "RETURN", 2, 0, 0, .none, .control, .frontier, .returns, .read, .none, .none, true⟩,
  ⟨0xf4, "DELEGATECALL", 6, 1, 0, .none, .system, .homestead, .externalCall, .readWrite, .write,
    .none, false⟩,
  ⟨0xf5, "CREATE2", 4, 1, 0, .none, .system, .constantinople, .create, .read, .write, .none, false⟩,
  ⟨0xfa, "STATICCALL", 6, 1, 0, .none, .system, .byzantium, .externalCall, .readWrite, .read,
    .none, false⟩,
  ⟨0xfd, "REVERT", 2, 0, 0, .none, .control, .byzantium, .revert, .read, .none, .none, true⟩,
  ⟨0xfe, "INVALID", 0, 0, 0, .none, .control, .frontier, .halt, .none, .none, .none, true⟩,
  ⟨0xff, "SELFDESTRUCT", 1, 0, 0, .none, .system, .frontier, .selfDestruct, .none, .write,
    .none, true⟩]

def assignedOpcodeInfo (byte : BitVec 8) : Option OpcodeInfo :=
  opcodeTable.find? fun info => info.op = byte

/-- The record of a byte that a fork has activated. -/
def opcodeInfo (byte : BitVec 8) (fork : Hardfork) : Option OpcodeInfo :=
  match assignedOpcodeInfo byte with
  | none => none
  | some info =>
    if !hardforkAtLeast fork info.introduced then none
    else if byte = prevrandao ∧ hardforkAtLeast fork .frontier ∧ !hardforkAtLeast fork .paris then
      some { info with name := "DIFFICULTY" }
    else some info

def unknownOpcodeInfo (byte : BitVec 8) : OpcodeInfo :=
  ⟨byte, "UNKNOWN", 0, 0, 0, .none, .unknown, .frontier, .unknown, .unknown, .unknown,
    .unknown, true⟩

/-- The depth for each immediate byte, zero where it is invalid. -/
def eip8024SingleDepths : List Nat :=
  [145, 146, 147, 148, 149, 150, 151, 152, 153, 154, 155, 156, 157, 158, 159, 160, 161, 162, 163,
    164, 165, 166,
    167, 168, 169, 170, 171, 172, 173, 174, 175, 176, 177, 178, 179, 180, 181, 182, 183, 184, 185,
      186, 187, 188,
    189, 190, 191, 192, 193, 194, 195, 196, 197, 198, 199, 200, 201, 202, 203, 204, 205, 206, 207,
      208, 209, 210,
    211, 212, 213, 214, 215, 216, 217, 218, 219, 220, 221, 222, 223, 224, 225, 226, 227, 228, 229,
      230, 231, 232,
    233, 234, 235, 0, 0, 0, 0, 0, 0, 0, 0, 0, 0, 0, 0, 0, 0, 0, 0, 0, 0, 0, 0, 0, 0, 0, 0, 0, 0, 0,
      0, 0, 0, 0, 0,
    0, 0, 0, 0, 0, 17, 18, 19, 20, 21, 22, 23, 24, 25, 26, 27, 28, 29, 30, 31, 32, 33, 34, 35, 36,
      37, 38, 39, 40,
    41, 42, 43, 44, 45, 46, 47, 48, 49, 50, 51, 52, 53, 54, 55, 56, 57, 58, 59, 60, 61, 62, 63, 64,
      65, 66, 67, 68,
    69, 70, 71, 72, 73, 74, 75, 76, 77, 78, 79, 80, 81, 82, 83, 84, 85, 86, 87, 88, 89, 90, 91, 92,
      93, 94, 95, 96,
    97, 98, 99, 100, 101, 102, 103, 104, 105, 106, 107, 108, 109, 110, 111, 112, 113, 114, 115, 116,
      117, 118, 119,
    120, 121, 122, 123, 124, 125, 126, 127, 128, 129, 130, 131, 132, 133, 134, 135, 136, 137, 138,
      139, 140, 141,
    142, 143, 144]

/-- The two depths for each immediate byte, zero where it is invalid. -/
def eip8024PairDepths : List (Nat × Nat) :=
  [(9, 16), (9, 15), (9, 14), (9, 13), (9, 12), (9, 11), (9, 10), (9, 21), (8, 21), (7, 21),
    (6, 21), (5, 21),
    (4, 21), (3, 21), (2, 21), (1, 21), (10, 16), (10, 15), (10, 14), (10, 13), (10, 12), (10, 11),
      (10, 20),
    (9, 20), (8, 20), (7, 20), (6, 20), (5, 20), (4, 20), (3, 20), (2, 20), (1, 20), (11, 16),
      (11, 15), (11, 14),
    (11, 13), (11, 12), (11, 19), (10, 19), (9, 19), (8, 19), (7, 19), (6, 19), (5, 19), (4, 19),
      (3, 19), (2, 19),
    (1, 19), (12, 16), (12, 15), (12, 14), (12, 13), (12, 18), (11, 18), (10, 18), (9, 18),
      (8, 18), (7, 18),
    (6, 18), (5, 18), (4, 18), (3, 18), (2, 18), (1, 18), (13, 16), (13, 15), (13, 14), (13, 17),
      (12, 17),
    (11, 17), (10, 17), (9, 17), (8, 17), (7, 17), (6, 17), (5, 17), (4, 17), (3, 17), (2, 17),
      (1, 17), (14, 16),
    (14, 15), (0, 0), (0, 0), (0, 0), (0, 0), (0, 0), (0, 0), (0, 0), (0, 0), (0, 0), (0, 0),
      (0, 0), (0, 0),
    (0, 0), (0, 0), (0, 0), (0, 0), (0, 0), (0, 0), (0, 0), (0, 0), (0, 0), (0, 0), (0, 0), (0, 0),
      (0, 0), (0, 0),
    (0, 0), (0, 0), (0, 0), (0, 0), (0, 0), (0, 0), (0, 0), (0, 0), (0, 0), (0, 0), (0, 0), (0, 0),
      (0, 0), (0, 0),
    (0, 0), (0, 0), (0, 0), (0, 0), (0, 0), (0, 0), (1, 16), (1, 15), (1, 14), (1, 13), (1, 12),
      (1, 11), (1, 10),
    (1, 9), (1, 8), (1, 7), (1, 6), (1, 5), (1, 4), (1, 3), (1, 2), (1, 29), (2, 16), (2, 15),
      (2, 14), (2, 13),
    (2, 12), (2, 11), (2, 10), (2, 9), (2, 8), (2, 7), (2, 6), (2, 5), (2, 4), (2, 3), (2, 28),
      (1, 28), (3, 16),
    (3, 15), (3, 14), (3, 13), (3, 12), (3, 11), (3, 10), (3, 9), (3, 8), (3, 7), (3, 6), (3, 5),
      (3, 4), (3, 27),
    (2, 27), (1, 27), (4, 16), (4, 15), (4, 14), (4, 13), (4, 12), (4, 11), (4, 10), (4, 9), (4, 8),
      (4, 7), (4, 6),
    (4, 5), (4, 26), (3, 26), (2, 26), (1, 26), (5, 16), (5, 15), (5, 14), (5, 13), (5, 12),
      (5, 11), (5, 10),
    (5, 9), (5, 8), (5, 7), (5, 6), (5, 25), (4, 25), (3, 25), (2, 25), (1, 25), (6, 16), (6, 15),
      (6, 14), (6, 13),
    (6, 12), (6, 11), (6, 10), (6, 9), (6, 8), (6, 7), (6, 24), (5, 24), (4, 24), (3, 24),
      (2, 24), (1, 24),
    (7, 16), (7, 15), (7, 14), (7, 13), (7, 12), (7, 11), (7, 10), (7, 9), (7, 8), (7, 23),
      (6, 23), (5, 23),
    (4, 23), (3, 23), (2, 23), (1, 23), (8, 16), (8, 15), (8, 14), (8, 13), (8, 12), (8, 11),
      (8, 10), (8, 9),
    (8, 22), (7, 22), (6, 22), (5, 22), (4, 22), (3, 22), (2, 22), (1, 22)]

def decodeEIP8024Single (encoded : BitVec 8) : Option Nat :=
  match eip8024SingleDepths[encoded.toNat]? with
  | some depth => if depth = 0 then none else some depth
  | none => none

def decodeEIP8024Pair (encoded : BitVec 8) : Option (Nat × Nat) :=
  match eip8024PairDepths[encoded.toNat]? with
  | some depths => if depths.1 = 0 then none else some depths
  | none => none

lemma assignedOpcodeInfo_op {byte : BitVec 8} {info : OpcodeInfo}
    (h : assignedOpcodeInfo byte = some info) : info.op = byte := by
  have hfound := find?_some h
  exact of_decide_eq_true hfound

theorem immediateBytes_le {byte : BitVec 8} {info : OpcodeInfo}
    (h : assignedOpcodeInfo byte = some info) : info.immediateBytes ≤ 32 := by
  have hall : (opcodeTable.all fun info => info.immediateBytes ≤ 32) = true := by rfl
  exact of_decide_eq_true (all_eq_true.mp hall info (mem_of_find?_eq_some h))

end NeverD.Evm
