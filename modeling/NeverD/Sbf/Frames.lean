import NeverD.Sbf.Moves
import NeverD.Sbf.Regions

namespace NeverD.Sbf

open NeverD.Lib

variable {registers : Registers}

namespace Machine

variable {σ : Type}

end Machine

namespace Executable

variable {σ : Type} {p : Executable} {environment : ExecutionEnvironment σ}
    {options : InterpreterOptions}

variable {m' m : Machine σ} {i : RawInstruction} {memory' memory : List MemoryRegion}

end Executable

end NeverD.Sbf
