import Secd.Listing

namespace Secd

/-! # Assembly text

A line for every instruction, and a heading for the program and for every block. The comments of a
block, and those of the preamble, stand in one column: to the right of the widest instruction there.
The width of an instruction is measured in UTF-8 bytes, while the padding is counted in characters,
so a line with characters beyond ASCII gets more padding than it needs.
-/

/-- Fills up with spaces to a number of characters. -/
def padTo (width : Nat) (text : String) : String :=
  text ++ String.ofList (List.replicate (width - text.length) ' ')

/-- The line of an instruction in a column of the given width. -/
def Instr.line (width : Nat) (instr : Instr) : String :=
  match instr.comment with
  | some comment => padTo width instr.render ++ " ; " ++ comment
  | none => instr.render

/-- The largest number of bytes of an instruction's text. -/
def columnWidth (instrs : List Instr) : Nat :=
  (instrs.map fun instr => instr.render.utf8ByteSize).foldl max 0

/-- The lines of a group of instructions, comments aligned. -/
def columnLines (instrs : List Instr) : List String :=
  let width := columnWidth instrs
  instrs.map (Instr.line width)

/-- The lines of a block: a blank line, its name, its instructions. -/
def PlacedBlock.lines (block : PlacedBlock) : List String :=
  "" :: ("; " ++ block.name) :: columnLines block.instrs

namespace Listing

def lines (listing : Listing) : List String :=
  ("; program: " ++ listing.name) ::
    (columnLines listing.preamble ++ listing.blocks.flatMap PlacedBlock.lines)

/-- The assembly text: every line ends in a line feed. -/
def render (listing : Listing) : String :=
  String.join (listing.lines.map (· ++ "\n"))

end Listing

end Secd
