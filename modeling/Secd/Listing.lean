import Secd.Instr

namespace Secd

/-! # Listings

A listing is a linked program: the preamble, which starts at address zero, and after it every block
at its absolute offset. A listing that the linker made holds no names of variables or blocks; one
that was read from elsewhere may hold anything.
-/

/-- A block at its final position. -/
structure PlacedBlock where
  name : String
  offset : Nat
  instrs : List Instr
  deriving DecidableEq, Repr

structure Listing where
  name : String
  preamble : List Instr
  blocks : List PlacedBlock
  deriving DecidableEq, Repr

namespace Listing

/-- All instructions in address order. -/
def instructions (listing : Listing) : List Instr :=
  listing.preamble ++ listing.blocks.flatMap PlacedBlock.instrs

/-- The number of instructions, added up over the preamble and the blocks. -/
def size (listing : Listing) : Nat :=
  listing.blocks.foldl (fun total block => total + block.instrs.length) listing.preamble.length

def isEmpty (listing : Listing) : Bool := listing.size == 0

/-- The first block of a name. -/
def block? (listing : Listing) (name : String) : Option PlacedBlock :=
  listing.blocks.find? (·.name == name)

/-- The offset of the first block of a name. -/
def offset? (listing : Listing) (name : String) : Option Nat :=
  (listing.block? name).map PlacedBlock.offset

private theorem foldl_length (blocks : List PlacedBlock) (start : Nat) :
    blocks.foldl (fun total block => total + block.instrs.length) start =
      start + (blocks.flatMap PlacedBlock.instrs).length := by
  induction blocks generalizing start with
  | nil => rfl
  | cons block rest ih => rw [List.foldl_cons, ih, List.flatMap_cons, List.length_append]; omega

@[simp] theorem length_instructions (listing : Listing) :
    listing.instructions.length = listing.size := by
  rw [instructions, size, List.length_append, foldl_length]

end Listing

end Secd
