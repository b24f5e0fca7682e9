import Secd.Code.Expr
import Secd.Code.Fragment

namespace Secd

/-! # Code of statements

A statement is compiled for a place: the block it belongs to and the number of instructions that
block already has. A conditional needs both, because its arms are named after them.
-/

/-- The choice between the two arms of a conditional, which follows its condition. -/
def branch (block : String) (position : Nat) : Instr :=
  let thenName := armName block position "t"
  let elseName := armName block position "f"
  (Instr.sel thenName elseName).commented (thenName ++ " " ++ elseName)

/-- The code of a conditional at `position` from its condition and the code of its arms. Each arm
ends in `JOIN`. -/
def conditional (block : String) (position : Nat) (cond : List Instr)
    (thenArm elseArm : Fragment) : Fragment where
  instrs := cond ++ [branch block (position + cond.length)]
  arms :=
    .node (armName block (position + cond.length) "t") (thenArm.instrs ++ [.plain .join])
      thenArm.arms
      (.node (armName block (position + cond.length) "f") (elseArm.instrs ++ [.plain .join])
        elseArm.arms .nil)

namespace Stmt

mutual

/-- The code of a statement that stands at `position` of a block. A return is no such statement:
it may only end a function body. -/
def code (options : Options) (params : List String) (block : String) (position : Nat) :
    Stmt → Except CompileError Fragment
  | .expr value => do return .ofInstrs (← value.code options params)
  | .ifElse cond thenArm elseArm => do
    let test ← cond.code options params
    let taken ← codes options params (armName block (position + test.length) "t") 0 thenArm
    let other ← elseCode options params (armName block (position + test.length) "f") elseArm
    return conditional block position test taken other
  | .ret _ => .error (.unsupportedReturn block)
  | .assign targets values => .error (.unsupportedStmt (.assign targets values))
  | .loop body => .error (.unsupportedStmt (.loop body))

/-- The code of statements one after the other, the first at `position` of the block. -/
def codes (options : Options) (params : List String) (block : String) (position : Nat) :
    List Stmt → Except CompileError Fragment
  | [] => .ok .empty
  | stmt :: rest => do
    let head ← stmt.code options params block position
    let tail ← codes options params block (position + head.instrs.length) rest
    return head ++ tail

/-- The code of the second arm of a conditional; a missing arm is empty. -/
def elseCode (options : Options) (params : List String) (block : String) :
    Option (List Stmt) → Except CompileError Fragment
  | none => .ok .empty
  | some stmts => codes options params block 0 stmts

end

/-- The code of the return that ends a function body; without a value it is empty. -/
def returnCode (options : Options) (params : List String) :
    List Expr → Except CompileError Fragment
  | [] => .ok .empty
  | [value] => do return .ofInstrs (← value.code options params)
  | values =>
    .error <| .unsupportedWithHint ("return of " ++ toString values.length ++ " values")
      "return a list literal instead"

/-- The code of a function body, from `position` of its block on. Its last statement may be a
return. -/
def bodyCode (options : Options) (params : List String) (block : String) (position : Nat) :
    List Stmt → Except CompileError Fragment
  | [] => .ok .empty
  | [.ret values] => returnCode options params values
  | stmt :: rest => do
    let head ← stmt.code options params block position
    let tail ← bodyCode options params block (position + head.instrs.length) rest
    return head ++ tail

end Stmt

/-- The code of a whole function: its body and `RTN`. -/
def FunctionDecl.code (options : Options) (decl : FunctionDecl) : Except CompileError Fragment := do
  let body ← Stmt.bodyCode options decl.params decl.name 0 decl.body
  return body ++ .ofInstrs [.plain .rtn]

end Secd
