import Secd.Link.Expansion
import Secd.Object

namespace Secd

/-! # Resolving names

Inside a block, a name means the nearest variable in scope, and only where there is none the
constant of that name. A function is called through the closure that the frame of declarations
holds, so a closure of a name in scope becomes a load of that variable. The entry function is in no
frame: it cannot be called. Any other closure waits until the offsets of blocks are known.
-/

/-- What is known at the place where a name is resolved. -/
structure Site where
  program : ObjectProgram
  /-- The constants, fully expanded. -/
  constants : Constants
  /-- The block that holds the name. -/
  block : String
  scope : Scope

namespace Site

/-- The load of a variable in the place of a symbolic load. -/
def loadVariable (instr : Instr) (address : Address) : Instr :=
  (Instr.ldAddress address).orCommented instr.comment

/-- Resolves a closure of a name; anything else stays as it is. -/
def resolveClosure (site : Site) (instr : Instr) : Except CompileError Instr :=
  match instr.opcode, instr.symbol? with
  | .ldf, some name =>
    match site.scope.address? name with
    | some address => .ok (loadVariable instr address)
    | none =>
      if (site.program.function? name).isSome then .error (.unreachableFunction name site.block)
      else .ok instr
  | _, _ => .ok instr

/-- Resolves the name of a load; anything else stays as it is. -/
def resolve (site : Site) (instr : Instr) : Except CompileError (List Instr) :=
  match instr.reference? with
  | none => .ok [instr]
  | some name =>
    match site.scope.address? name with
    | some address => .ok [loadVariable instr address]
    | none =>
      match site.constants.body? name with
      | some body => do
        return instr.splice (← body.mapM site.resolveClosure)
      | none =>
        if instr.opcode = .ldf then do
          return [← site.resolveClosure instr]
        else
          .error (.unresolvedSymbol { symbol := name, block := site.block, frames := site.scope })

/-- Resolves all names of a run of instructions. -/
def resolveAll (site : Site) (instrs : List Instr) : Except CompileError (List Instr) := do
  return (← instrs.mapM site.resolve).flatten

end Site

end Secd
