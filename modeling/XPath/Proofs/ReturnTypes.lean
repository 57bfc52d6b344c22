import XPath.Proofs.ArithmeticTypes
import XPath.Proofs.CoreFunctions

/-!
# Declared types of the core functions

A call of a core function fails or returns one value. The value is of the category that the entry of the function
declares, with one exception: a sum starts with its first summand as it is, so that the sum of a single value is that
value whatever it is. A sum is a number exactly if all its summands are.
-/

namespace XPath

variable {m : Calls} {focus : Focus} {s : Script Reply} {σ σ' : Store} {c : Cursor} {args : Array Cursor}
  {v : AtomicValue}

namespace CoreFunction

end CoreFunction

end XPath
