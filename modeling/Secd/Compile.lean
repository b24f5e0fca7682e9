import Secd.Link
import Secd.Object.Generate

namespace Secd

/-! # Compilation

A program is compiled to an object program, in which names are symbolic, and that is linked.
-/

/-- The listing of a source program. -/
def compile (options : Options) (program : Program) : Except CompileError Listing := do
  (← program.object options).link options

end Secd
