import Mathlib.Algebra.Ring.Nat
import Secd.Proofs.Linking

namespace Secd

open Results

/-! # The two passes of the linker

Linking resolves names (`ObjectProgram.resolveNames`) and after that addresses
(`ObjectProgram.finish`), for every object program, also for one that does not hang together: blocks
may share a name, and numbers may be missing or occur twice. The second pass moves no instruction.
It replaces names of blocks in closures and branches by the offsets of such blocks
(`Instr.Relocated`), the instructions of a block stand at its offset (`Contiguous.slice_eq`), and
the offset counts what stands before it (`Contiguous.offset_eq`).
-/

/-! ## Positions in a listing -/

namespace Contiguous

/-- An offset counts the instructions of the blocks before it. -/
theorem offset_eq {start : Nat} {before after : List PlacedBlock} {block : PlacedBlock}
    (contiguous : Contiguous start (before ++ block :: after)) :
    block.offset = start + (before.map (·.instrs.length)).sum := by
  obtain ⟨-, offset, -⟩ := append.mp contiguous
  rw [offset, List.length_flatMap]

/-- A block is the run of instructions of its length at its offset. -/
theorem slice_eq {listing : Listing}
    (contiguous : Contiguous listing.preamble.length listing.blocks) {block : PlacedBlock}
    (member : block ∈ listing.blocks) :
    (listing.instructions.drop block.offset).take block.instrs.length = block.instrs := by
  obtain ⟨before, after, split⟩ := List.append_of_mem member
  rw [split, append] at contiguous
  obtain ⟨-, offset, -⟩ := contiguous
  rw [Listing.instructions, split, List.flatMap_append, List.flatMap_cons, ← List.append_assoc,
    offset, ← List.length_append, List.drop_left, List.take_left]

end Contiguous

/-! ## What address resolution does to an instruction -/

/-- What becomes of an operand of an instruction. The name of a block becomes the offset of the last
block of this name where the instruction is a closure or a branch; all else is kept. -/
inductive Operand.Relocated (blocks : List PlacedBlock) (opcode : Opcode) :
    Operand → Operand → Prop
  | target {before after : List PlacedBlock} {block : PlacedBlock}
      (takesBlocks : opcode.takesBlocks = true) (split : blocks = before ++ block :: after)
      (isLast : block.name ∉ after.map PlacedBlock.name) :
      Relocated blocks opcode (.name block.name) (.offset block.offset)
  | kept {operand : Operand}
      (noTarget : opcode.takesBlocks = true → ∀ name, operand ≠ .name name) :
      Relocated blocks opcode operand operand

/-- What becomes of an instruction: its comment is kept where comments are wanted. -/
structure Instr.Relocated (options : Options) (blocks : List PlacedBlock) (before after : Instr) :
    Prop where
  opcode : after.opcode = before.opcode
  args : List.Forall₂ (Operand.Relocated blocks before.opcode) before.args after.args
  comment : after.comment = if options.comments then before.comment else none

/-- A name means the last block that has it. -/
theorem exists_of_targetOffset? {blocks : List PlacedBlock} {name : String} {position : Nat}
    (found : targetOffset? blocks name = some position) :
    ∃ before block after, blocks = before ++ block :: after ∧ block.name = name ∧
      block.offset = position ∧ name ∉ after.map PlacedBlock.name := by
  obtain ⟨block, isFound, atPosition⟩ := Option.map_eq_some_iff.mp found
  obtain ⟨named, later, earlier, split, others⟩ := List.find?_eq_some_iff_append.mp isFound
  refine ⟨earlier.reverse, block, later.reverse, ?_, by simpa using named, atPosition, ?_⟩
  · rw [← List.reverse_reverse blocks, split]
    simp
  · simpa using others

theorem Operand.relocated_of_patch {blocks : List PlacedBlock} {block : String} {opcode : Opcode}
    {operand result : Operand} (takesBlocks : opcode.takesBlocks = true)
    (patched : operand.patch blocks block = .ok result) :
    Operand.Relocated blocks opcode operand result := by
  unfold Operand.patch at patched
  split at patched
  · rename_i name
    split at patched
    · rename_i found
      obtain ⟨before, target, after, split, rfl, rfl, isLast⟩ := exists_of_targetOffset? found
      cases patched
      exact .target takesBlocks split isLast
    · cases patched
  · rename_i noName
    cases patched
    exact .kept fun _ => noName

theorem Instr.relocated_of_patch {options : Options} {blocks : List PlacedBlock} {block : String}
    {instr result : Instr} (patched : instr.patch options blocks block = .ok result) :
    Instr.Relocated options blocks instr result := by
  obtain ⟨args, isArgs, rfl⟩ := Instr.patch_eq_ok.mp patched
  refine ⟨rfl, ?_, rfl⟩
  unfold Instr.patchArgs at isArgs
  split at isArgs
  · rename_i takesBlocks
    exact (mapM_eq_ok.mp isArgs).imp fun _ _ => Operand.relocated_of_patch takesBlocks
  · rename_i noBlocks
    cases isArgs
    exact List.forall₂_same.mpr fun _ _ => .kept fun takesBlocks => absurd takesBlocks noBlocks

/-! ## The passes -/

namespace ObjectProgram

/-- Resolves the names of a whole program. The result holds the names of the functions other than
the entry function, which the preamble binds, and the blocks in the order of the listing. -/
def resolveNames (options : Options) (program : ObjectProgram) :
    Except CompileError (List String × List LooseBlock) := do
  let entry ← program.entry options.entry
  let constants ← program.constants.expandAll
  let others := program.others entry
  let declarations ← program.blockNames others
  let scope : Scope := [declarations, (← program.block entry).frame]
  let main ← program.resolveTree constants scope entry
  let rest ← others.mapM (program.resolveFunction constants scope)
  return (declarations, main ++ rest.flatten)

/-- Linking is the one pass after the other. -/
theorem link_eq_resolveNames (options : Options) (program : ObjectProgram) :
    program.link options = (do
      let (declared, loose) ← program.resolveNames options
      finish options program.name declared loose) := by
  simp only [link, resolveNames, finish, bind_assoc, pure_bind]

/-- What address resolution makes of any object program whose names are resolved: offsets count the
instructions before them, the instructions of a block are found at its offset, and nothing changes
but that names of blocks become offsets of such blocks. -/
theorem layout_of_link {options : Options} {program : ObjectProgram} {listing : Listing}
    (linked : program.link options = .ok listing) :
    (∀ before block after, listing.blocks = before ++ block :: after →
      block.offset = listing.preamble.length + (before.map (·.instrs.length)).sum) ∧
    (∀ block ∈ listing.blocks,
      (listing.instructions.drop block.offset).take block.instrs.length = block.instrs) ∧
    listing.size = listing.instructions.length ∧
    ∃ declared loose, program.resolveNames options = .ok (declared, loose) ∧
      List.Forall₂ (Instr.Relocated options listing.blocks)
        (Secd.preamble options.entry declared) listing.preamble ∧
      List.Forall₂ (fun block placed => placed.name = block.name ∧
        List.Forall₂ (Instr.Relocated options listing.blocks) block.instrs placed.instrs)
        loose listing.blocks := by
  rw [link_eq_resolveNames] at linked
  obtain ⟨⟨declared, loose⟩, resolved, finished⟩ := bind_eq_ok.mp linked
  obtain ⟨start, placed, contiguous⟩ := finish_eq_ok finished
  refine ⟨fun before block after split => ?_, fun block member => contiguous.slice_eq member,
    listing.length_instructions.symm, declared, loose, resolved, ?_, ?_⟩
  · rw [split] at contiguous
    exact contiguous.offset_eq
  · exact (mapM_eq_ok.mp start).imp fun _ _ => Instr.relocated_of_patch
  · refine placed.imp fun block placed ⟨named, patched⟩ => ⟨named, ?_⟩
    exact (mapM_eq_ok.mp patched).imp fun _ _ => Instr.relocated_of_patch

/-- Two arms have the name of a branch, a function occurs twice among the functions, and a constant
makes two instructions of one. -/
def inconsistent : ObjectProgram where
  name := "inconsistent"
  blocks := [
    ⟨"main", [], 0, [.ld "PAIR", .sel "arm" "arm", .ldf "arm", .ldf "helper"], [1, 2]⟩,
    ⟨"arm", [], 0, [.ldcText "then", .plain .join], []⟩,
    ⟨"arm", [], 0, [.plain .join], []⟩,
    ⟨"helper", ["x"], 3, [.ld "x", .plain .rtn], []⟩]
  index := [("main", 0)]
  functions := [0, 3, 3]
  constants := [("PAIR", [.ldc 1, .ldc 2])]

/-- The branch enters the later arm on both sides. -/
theorem layout_of_link_inconsistent : ∃ listing, inconsistent.link {} = .ok listing ∧
    listing.instructions[8]? = some ⟨.sel, [.offset 13, .offset 13], none⟩ ∧
    ∀ block ∈ listing.blocks,
      (listing.instructions.drop block.offset).take block.instrs.length = block.instrs := by
  obtain ⟨listing, linked, atBranch⟩ := exists_ok_of_any (inconsistent.link {})
    (fun listing => listing.instructions[8]? == some ⟨.sel, [.offset 13, .offset 13], none⟩)
    (by decide)
  exact ⟨listing, linked, by simpa using atBranch, (layout_of_link linked).2.1⟩

end ObjectProgram

end Secd
