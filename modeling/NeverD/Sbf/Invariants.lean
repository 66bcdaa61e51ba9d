import NeverD.Sbf.Frames

namespace NeverD.Sbf
open List

open NeverD.Lib

namespace Executable

variable {σ : Type} (p : Executable) (environment : ExecutionEnvironment σ)
    (options : InterpreterOptions)

variable {p environment options}

variable {m : Machine σ} {n : Nat}

end Executable

end NeverD.Sbf
