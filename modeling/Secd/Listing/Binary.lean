import Secd.Listing
import Secd.Wire

namespace Secd

/-! # Binary listings

The compact form in which a listing is handed to a loader: the parts of every record in order, in
the format of `Secd.Wire`. An opcode is the number of its place in `Opcode.all`.
-/

open Wire

namespace Opcode

def put (opcode : Opcode) : Bytes := putNat (all.idxOf opcode)

def get : Reader Opcode := do
  match all[← getVariant]? with
  | some opcode => return opcode
  | none => throw .badVariant

end Opcode

namespace Operand

def put : Operand → Bytes
  | .int value => putNat 0 ++ putInt64 value
  | .text source => putNat 1 ++ putText source
  | .name symbol => putNat 2 ++ putText symbol
  | .offset position => putNat 3 ++ putNat position

def get : Reader Operand := do
  match ← getVariant with
  | 0 => return .int (← getInt64)
  | 1 => return .text (← getText)
  | 2 => return .name (← getText)
  | 3 => return .offset (← getNat)
  | _ => throw .badVariant

end Operand

namespace Instr

def put (instr : Instr) : Bytes :=
  instr.opcode.put ++ putList Operand.put instr.args ++ putOption putText instr.comment

def get : Reader Instr := do
  let opcode ← Opcode.get
  let args ← getList Operand.get
  let comment ← getOption getText
  return { opcode, args, comment }

end Instr

namespace PlacedBlock

def put (block : PlacedBlock) : Bytes :=
  putText block.name ++ putNat block.offset ++ putList Instr.put block.instrs

def get : Reader PlacedBlock := do
  let name ← getText
  let offset ← getNat
  let instrs ← getList Instr.get
  return { name, offset, instrs }

end PlacedBlock

namespace Listing

def toBytes (listing : Listing) : Bytes :=
  putText listing.name ++ putList Instr.put listing.preamble ++
    putList PlacedBlock.put listing.blocks

def get : Reader Listing := do
  let name ← getText
  let preamble ← getList Instr.get
  let blocks ← getList PlacedBlock.get
  return { name, preamble, blocks }

/-- The listing at the front of some bytes. -/
def ofBytes (bytes : Bytes) : Except DecodeError Listing := decode get bytes

end Listing

end Secd
