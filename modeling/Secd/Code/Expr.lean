import Secd.Error
import Secd.Options
import Secd.Primitive

namespace Secd

/-! # Code of expressions

The code of an expression leaves its value on top of the stack. Names stay symbolic: which frame
or constant a name means is known only when the whole program is.

The left operand of an instruction lies below the right one, and `CONS` takes its tail from the top
of the stack, so operands and list elements are pushed in reading order.
-/

namespace BinaryOp

/-- The machine compares in one direction only: `a < b` is computed as `b > a`, and `a <= b` as
`b >= a`. -/
def swapsOperands : BinaryOp → Bool
  | .lt | .ltEq => true
  | _ => false

/-- The instructions that follow the two operands; there are none for the remainder and for the
logical operators. The machine has no inequality, so `a != b` is computed as `(a == b) == 0`. -/
def tail? : BinaryOp → Option (List Instr)
  | .add => some [.plain .add]
  | .sub => some [.plain .sub]
  | .mul => some [.plain .mul]
  | .div => some [.plain .div]
  | .eq => some [.plain .ceq]
  | .notEq => some [.plain .ceq, .ldc 0, .plain .ceq]
  | .lt | .gt => some [.plain .cgt]
  | .ltEq | .gtEq => some [.plain .cgte]
  | .rem | .and | .or => none

/-- The instructions after the operands, or a report of the operator. -/
def tail (op : BinaryOp) : Except CompileError (List Instr) :=
  match op.tail? with
  | some instrs => .ok instrs
  | none => .error <| .unsupportedWithHint ("operator " ++ op.symbol)
      "the machine has no instruction for this operator"

/-- Both operands in the order in which they are pushed. -/
def operands (op : BinaryOp) (left right : Except CompileError (List Instr)) :
    Except CompileError (List Instr) :=
  if op.swapsOperands then
    do return (← right) ++ (← left)
  else
    do return (← left) ++ (← right)

end BinaryOp

/-- Refuses a call of a primitive with the wrong number of arguments, where this is asked for. -/
def Primitive.checkArity (options : Options) (primitive : Primitive) (got : Nat) :
    Except CompileError Unit :=
  if options.checkArity ∧ got ≠ primitive.arity then
    .error (.primitiveArity primitive.name primitive.arity got)
  else
    .ok ()

/-- What follows the arguments of a call of a named function. A parameter holds a closure; any
other name stands for code. -/
def applyNamed (params : List String) (func : String) (argCount : Nat) : List Instr :=
  [(if func ∈ params then Instr.ld func else Instr.ldf func).commented func, .ap argCount]

/-- What follows the elements of a list literal. The elements `e0, e1, …, en` become the chain
`(e0 . (e1 . (… . en)))`, so one `CONS` is needed for every element but the last; the empty list is
zero. -/
def chainElements (count : Nat) : List Instr :=
  if count = 0 then [(Instr.ldc 0).commented "nil"]
  else List.replicate (count - 1) (.plain .cons)

namespace Expr

mutual

/-- The code of an expression in a function with the given parameters. -/
def code (options : Options) (params : List String) : Expr → Except CompileError (List Instr)
  | .literal (.int value) => .ok [.ldc value]
  | .literal (.text source) => .ok [.ldcText source]
  | .ident name => .ok [(Instr.ld name).commented name]
  | .binary op lhs rhs => do
    let tail ← op.tail
    let operands ← op.operands (lhs.code options params) (rhs.code options params)
    return operands ++ tail
  | .call func args =>
    match Primitive.find? func with
    | some primitive => do
      primitive.checkArity options args.length
      return (← codes options params args) ++ [.plain primitive.opcode]
    | none => do
      return (← codes options params args) ++ applyNamed params func args.length
  | .composite .array elems => do
    return (← codes options params elems) ++ chainElements elems.length
  | .composite kind _ =>
    .error <| .unsupportedWithHint (kind.render ++ " composite literal")
      "only array literals have a list representation"
  | .paren inner => inner.code options params

/-- The code of several expressions, one after the other. -/
def codes (options : Options) (params : List String) :
    List Expr → Except CompileError (List Instr)
  | [] => .ok []
  | expr :: rest => do
    let head ← expr.code options params
    let tail ← codes options params rest
    return head ++ tail

end

end Expr

end Secd
