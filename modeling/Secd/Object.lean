import Secd.Code.Fragment
import Secd.Error
import Secd.Object.Constants

namespace Secd

/-! # Object programs

An object program is what code generation hands to the linker: numbered blocks of instructions
whose operands may still be names, a table of block names, the functions among the blocks, and the
constants. A block is the body of a function or an arm of a conditional.

Programs are made by the operations of this module: `addFunction`, `addArm`, `append` and
`addConst` one step at a time, and `install` for a whole function. One that comes from elsewhere
need not hang together, so every look-up by number can fail.
-/

/-- The number of a block: its position in the program. -/
abbrev BlockId := Nat

structure Block where
  name : String
  /-- The slots of the frame it opens, in the order of the arguments. An arm of a conditional opens
  none: it runs in the frame of its function. -/
  frame : List String := []
  /-- The function it belongs to; a function body belongs to itself. -/
  scope : BlockId
  instrs : List Instr := []
  /-- The arms of its conditionals, in the order in which they were created. -/
  children : List BlockId := []
  deriving DecidableEq, Repr

structure ObjectProgram where
  name : String
  blocks : List Block := []
  /-- Block names and numbers, the latest entry first: it hides earlier ones of the same name. -/
  index : List (String × BlockId) := []
  /-- The function bodies in declaration order. -/
  functions : List BlockId := []
  constants : Constants := []
  deriving DecidableEq, Repr

namespace Forest

/-- The numbers of the outermost arms when the forest is placed from number `base` on. -/
def roots (base : BlockId) : Forest → List BlockId
  | .nil => []
  | .node _ _ nested next => base :: next.roots (base + 1 + nested.size)

/-- The arms of a function as blocks numbered from `base` on, each before those nested in it. -/
def place (scope base : BlockId) : Forest → List Block
  | .nil => []
  | .node name instrs nested next =>
    { name, scope, instrs, children := nested.roots (base + 1) } ::
      (nested.place scope (base + 1) ++ next.place scope (base + 1 + nested.size))

@[simp] theorem length_place (forest : Forest) (scope base : BlockId) :
    (forest.place scope base).length = forest.size := by
  induction forest generalizing base with
  | nil => rfl
  | node _ _ _ _ ihNested ihNext => simp [place, size, ihNested, ihNext]; omega

@[simp] theorem map_name_place (forest : Forest) (scope base : BlockId) :
    (forest.place scope base).map Block.name = forest.names := by
  induction forest generalizing base with
  | nil => rfl
  | node _ _ _ _ ihNested ihNext => simp [place, names, ihNested, ihNext]

end Forest

namespace ObjectProgram

/-! ## Look-ups -/

/-- The block of a number. -/
def block (program : ObjectProgram) (id : BlockId) : Except CompileError Block :=
  match program.blocks[id]? with
  | some block => .ok block
  | none => .error (.danglingBlock id)

/-- The number of the block of a name. -/
def find? (program : ObjectProgram) (name : String) : Option BlockId :=
  program.index.lookup name

/-- The function of a name; an arm of a conditional is none. -/
def function? (program : ObjectProgram) (name : String) : Option BlockId :=
  (program.find? name).filter (· ∈ program.functions)

/-! ## Adding blocks -/

/-- Appends blocks and enters their names. -/
def addBlocks (program : ObjectProgram) (blocks : List Block) : ObjectProgram :=
  { program with
    blocks := program.blocks ++ blocks
    index :=
      ((blocks.zipIdx program.blocks.length).map fun (block, id) => (block.name, id)).reverse ++
        program.index }

/-- Adds a function with its code: its body and, right after it, all its arms. -/
def install (program : ObjectProgram) (name : String) (frame : List String) (code : Fragment) :
    ObjectProgram :=
  let id := program.blocks.length
  let body : Block :=
    { name, frame, scope := id, instrs := code.instrs, children := code.arms.roots (id + 1) }
  { program.addBlocks (body :: code.arms.place id (id + 1)) with
    functions := program.functions ++ [id] }

/-- Refuses the name of a function that a block already has. -/
def requireFresh (program : ObjectProgram) (name : String) : Except CompileError Unit :=
  if (program.find? name).isSome then .error (.duplicateFunction name) else .ok ()

/-- Adds a function without code; gives its number. -/
def addFunction (program : ObjectProgram) (name : String) (frame : List String) :
    Except CompileError (BlockId × ObjectProgram) := do
  program.requireFresh name
  return (program.blocks.length, program.install name frame .empty)

/-- Adds an arm to a block, named after the number of instructions there; gives its number. -/
def addArm (program : ObjectProgram) (parent : BlockId) (tag : String) :
    Except CompileError (BlockId × ObjectProgram) := do
  let owner ← program.block parent
  let id := program.blocks.length
  let arm : Block := { name := armName owner.name owner.instrs.length tag, scope := owner.scope }
  let extended := program.addBlocks [arm]
  let blocks := extended.blocks.modify parent fun block =>
    { block with children := block.children ++ [id] }
  return (id, { extended with blocks })

/-- Appends instructions to a block. -/
def append (program : ObjectProgram) (id : BlockId) (instrs : List Instr) :
    Except CompileError ObjectProgram := do
  let _ ← program.block id
  let blocks := program.blocks.modify id fun block =>
    { block with instrs := block.instrs ++ instrs }
  return { program with blocks }

/-! ## Adding constants -/

def addConst (program : ObjectProgram) (name : String) (body : List Instr) :
    Except CompileError ObjectProgram :=
  if (program.constants.body? name).isSome then .error (.duplicateConstant name)
  else .ok { program with constants := program.constants.insert name body }

/-! ## Walking the blocks -/

/-- Visits a block and then, in order, its children with all that is nested in them. The walk gives
up where more blocks are nested in each other than `depth` allows. -/
def visitFrom {α : Type} (program : ObjectProgram) (visit : Block → Except CompileError α) :
    (depth : Nat) → BlockId → Except CompileError (List α)
  | 0, id => .error (.endlessNesting id)
  | depth + 1, id => do
    let block ← program.block id
    let result ← visit block
    let nested ← block.children.mapM (program.visitFrom visit depth)
    return result :: nested.flatten

/-- Visits a block and all that is nested in it. No chain of distinct blocks is longer than the
program, so the walk gives up only on blocks that are nested in themselves. -/
def visitTree {α : Type} (program : ObjectProgram) (visit : Block → Except CompileError α)
    (id : BlockId) : Except CompileError (List α) :=
  program.visitFrom visit (program.blocks.length + 1) id

/-! ## What the operations do to the look-ups -/

@[simp] theorem blocks_addBlocks (program : ObjectProgram) (blocks : List Block) :
    (program.addBlocks blocks).blocks = program.blocks ++ blocks := rfl

@[simp] theorem functions_install (program : ObjectProgram) (name : String) (frame : List String)
    (code : Fragment) :
    (program.install name frame code).functions = program.functions ++ [program.blocks.length] :=
  rfl

@[simp] theorem length_blocks_install (program : ObjectProgram) (name : String)
    (frame : List String) (code : Fragment) :
    (program.install name frame code).blocks.length =
      program.blocks.length + 1 + code.arms.size := by
  simp [install]; omega

end ObjectProgram

end Secd
