import Secd.Code.Stmt
import Secd.Object

namespace Secd

/-! # From source programs to object programs

Declarations are taken in order; the first that cannot be compiled stops the work. The name of a
function is checked before its body is looked at, and a constant is entered before the next value of
its group is looked at, so that of two faults the earlier one is reported.
-/

namespace ObjectProgram

/-- Adds a compiled function. -/
def declareFunction (options : Options) (program : ObjectProgram) (decl : FunctionDecl) :
    Except CompileError ObjectProgram := do
  program.requireFresh decl.name
  return program.install decl.name decl.params (← decl.code options)

/-- Adds a constant that stands for a position in its group. -/
def declareOrdinal (program : ObjectProgram) (name : String) (ordinal : Nat) :
    Except CompileError ObjectProgram :=
  program.addConst name [(Instr.ldc (Int64.ofNat ordinal)).commented name]

/-- Adds a constant that stands for an expression. Its instructions carry its name where they have
no comment of their own. -/
def declareExpr (options : Options) (program : ObjectProgram) (name : String) (value : Expr) :
    Except CompileError ObjectProgram := do
  let body ← value.code options []
  program.addConst name (body.map (·.orCommented (some name)))

/-- Adds a group of constants. -/
def declareConsts (options : Options) (program : ObjectProgram) (group : ConstGroup) :
    Except CompileError ObjectProgram :=
  match group.values with
  | .ordinals =>
    group.names.zipIdx.foldlM (fun program (name, ordinal) => program.declareOrdinal name ordinal)
      program
  | .exprs values =>
    if values.length = group.names.length then
      (group.names.zip values).foldlM
        (fun program (name, value) => program.declareExpr options name value) program
    else
      .error <| .unsupportedWithHint
        ("const group with " ++ toString group.names.length ++ " names and " ++
          toString values.length ++ " values")
        "give every constant its own initializer"

def declare (options : Options) (program : ObjectProgram) :
    Decl → Except CompileError ObjectProgram
  | .function decl => program.declareFunction options decl
  | .consts group => program.declareConsts options group

end ObjectProgram

/-- The object program of a source program. -/
def Program.object (options : Options) (program : Program) : Except CompileError ObjectProgram :=
  program.decls.foldlM (ObjectProgram.declare options) { name := program.name }

end Secd
