import Secd.Error
import Secd.Listing
import Secd.Options

namespace Secd

/-! # Layout

Blocks follow each other without gaps. Once every block has its offset, the names that closures and
branches still hold are replaced by offsets. Where two blocks have one name, the name means the
later one.
-/

/-- A named run of instructions without a position. -/
structure LooseBlock where
  name : String
  instrs : List Instr
  deriving DecidableEq, Repr

/-- Places blocks one after the other from an offset on. -/
def placeBlocks : (offset : Nat) → List LooseBlock → List PlacedBlock
  | _, [] => []
  | offset, block :: rest =>
    ⟨block.name, offset, block.instrs⟩ :: placeBlocks (offset + block.instrs.length) rest

/-- The offset that a name means: that of the last block of this name. -/
def targetOffset? (blocks : List PlacedBlock) (name : String) : Option Nat :=
  (blocks.reverse.find? (·.name == name)).map PlacedBlock.offset

namespace Operand

/-- Replaces the name of a block by its offset. -/
def patch (layout : List PlacedBlock) (block : String) : Operand → Except CompileError Operand
  | .name target =>
    match targetOffset? layout target with
    | some position => .ok (.offset position)
    | none => .error (.unresolvedTarget { symbol := target, block })
  | operand => .ok operand

end Operand

namespace Opcode

/-- Closures and branches are the instructions whose operands are blocks. -/
def takesBlocks : Opcode → Bool
  | .ldf | .sel => true
  | _ => false

end Opcode

namespace Instr

/-- The operands with the names of blocks replaced by offsets. -/
def patchArgs (layout : List PlacedBlock) (block : String) (instr : Instr) :
    Except CompileError (List Operand) :=
  if instr.opcode.takesBlocks then instr.args.mapM (Operand.patch layout block)
  else .ok instr.args

/-- Replaces names of blocks by offsets and drops the comment where none is wanted. -/
def patch (options : Options) (layout : List PlacedBlock) (block : String) (instr : Instr) :
    Except CompileError Instr := do
  let args ← instr.patchArgs layout block
  return { instr with args, comment := if options.comments then instr.comment else none }

end Instr

/-- The same for the instructions of a placed block. -/
def PlacedBlock.patch (options : Options) (layout : List PlacedBlock) (block : PlacedBlock) :
    Except CompileError PlacedBlock := do
  return { block with instrs := ← block.instrs.mapM (Instr.patch options layout block.name) }

@[simp] theorem length_placeBlocks (offset : Nat) (blocks : List LooseBlock) :
    (placeBlocks offset blocks).length = blocks.length := by
  induction blocks generalizing offset with
  | nil => rfl
  | cons block rest ih => simp [placeBlocks, ih]

@[simp] theorem map_name_placeBlocks (offset : Nat) (blocks : List LooseBlock) :
    (placeBlocks offset blocks).map PlacedBlock.name = blocks.map LooseBlock.name := by
  induction blocks generalizing offset with
  | nil => rfl
  | cons block rest ih => simp [placeBlocks, ih]

end Secd
