import Secd.Link.Layout
import Secd.Link.Site

namespace Secd

/-! # Linking

Calling convention: the program is called with a frame that holds the arguments of the entry
function. Where there are other functions, the preamble opens a frame for them, fills it with their
closures and enters the entry function in it; without other functions it enters the entry function
in an empty frame. So the entry function finds the declarations in its own frame and its parameters
one frame further out, and every other function has its own frame inside that of the declarations.
-/

/-- The instructions at address zero. -/
def preamble (entry : String) (declarations : List String) : List Instr :=
  let load (name : String) : Instr := (Instr.ldf name).commented ("load " ++ name)
  if declarations.isEmpty then
    [load entry, .ap 0, .plain .rtn]
  else
    (Instr.dum declarations.length).commented "top-level declarations" ::
      declarations.map load ++
        [load entry, .rap declarations.length, .plain .rtn]

namespace ObjectProgram

/-! ## Functions of a program -/

/-- The function that the preamble enters. -/
def entry (program : ObjectProgram) (name : String) : Except CompileError BlockId :=
  match program.function? name with
  | some id => .ok id
  | none => .error (.missingEntry name)

/-- The functions other than the entry function, in declaration order. -/
def others (program : ObjectProgram) (entry : BlockId) : List BlockId :=
  program.functions.filter (· ≠ entry)

/-- The names of blocks. -/
def blockNames (program : ObjectProgram) (ids : List BlockId) :
    Except CompileError (List String) :=
  ids.mapM fun id => do return (← program.block id).name

/-- Every name that some load of a block or of a constant refers to. -/
def references (program : ObjectProgram) : List String :=
  (program.blocks.flatMap Block.instrs ++ program.constants.flatMap Prod.snd).filterMap
    Instr.reference?

/-- The functions other than the entry function that nothing refers to, in declaration order. They
are linked all the same: their slots are part of the calling convention. -/
def unusedFunctions (program : ObjectProgram) (entryName : String) :
    Except CompileError (List String) := do
  let entry ← program.entry entryName
  let declarations ← program.blockNames (program.others entry)
  let used := program.references
  return declarations.filter (· ∉ used)

/-! ## Resolution -/

/-- Resolves the names of a function body and of all arms in it; all of them run in one scope. -/
def resolveTree (program : ObjectProgram) (constants : Constants) (scope : Scope) (id : BlockId) :
    Except CompileError (List LooseBlock) :=
  program.visitTree (fun block => do
    let site : Site := { program, constants, block := block.name, scope }
    return ⟨block.name, ← site.resolveAll block.instrs⟩) id

/-- Resolves a function other than the entry function, whose frame lies inside `outer`. -/
def resolveFunction (program : ObjectProgram) (constants : Constants) (outer : Scope)
    (id : BlockId) : Except CompileError (List LooseBlock) := do
  let block ← program.block id
  program.resolveTree constants (block.frame :: outer) id

/-! ## The whole of it -/

/-- Links a program. The entry function comes first, then the other functions in declaration order,
each body followed by its arms. -/
def link (options : Options) (program : ObjectProgram) : Except CompileError Listing := do
  let entry ← program.entry options.entry
  let constants ← program.constants.expandAll
  let others := program.others entry
  let declarations ← program.blockNames others
  let scope : Scope := [declarations, (← program.block entry).frame]
  let main ← program.resolveTree constants scope entry
  let rest ← others.mapM (program.resolveFunction constants scope)
  let start := preamble options.entry declarations
  let layout := placeBlocks start.length (main ++ rest.flatten)
  return {
    name := program.name
    preamble := ← start.mapM (Instr.patch options layout "preamble")
    blocks := ← layout.mapM (PlacedBlock.patch options layout) }

end ObjectProgram

end Secd
