import JmmCompiler.Proofs.CallOrigins
import JmmCompiler.Proofs.EmittedReturns
import JmmCompiler.Proofs.FlatCode
/-! The code and the lines of a call of a method of the class: a load of the receiver, unless the method is static, a load of
each argument, and the only line of the instruction that calls a method. Other instructions have no such line. -/
namespace JmmCompiler

/-! ## Code -/

namespace SymbolTable
variable (t : SymbolTable) (m : MethodInfo)

end SymbolTable

namespace Typed
variable {s : Context} {m : MethodInfo} {receiver : Node} {args : List Node} {p : Position}
open Lower SymbolTable

end Typed

/-! ## Lines -/

namespace Jasmin

namespace Scope
open Emit
variable {s : Scope} {b b' : Body}

variable {t : SymbolTable} {m : MethodInfo}

end Scope
end Jasmin
end JmmCompiler
