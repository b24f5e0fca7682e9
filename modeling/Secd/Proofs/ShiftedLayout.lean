import Secd.Proofs.AddressResolution

namespace Secd

open Results

/-! # Blocks that move together

More instructions in front of some blocks and more blocks behind them change nothing about these
blocks but their offsets, those that they hold and those at which they stand
(`shifted_of_madeAlike`). The blocks keep their lengths, so they all move by the same
number of instructions (`Contiguous.shifted`); and a name goes on meaning the block that it meant,
as long as no block that is added has this name.
-/

/-! ## Shifts -/

def Operand.shifted (distance : Nat) : Operand → Operand
  | .offset position => .offset (position + distance)
  | operand => operand

/-- Closures and branches enter blocks that stand further back. -/
def Instr.shifted (distance : Nat) (instr : Instr) : Instr :=
  if instr.opcode.takesBlocks then
    { instr with args := instr.args.map (Operand.shifted distance) }
  else instr

/-- A block further back, among others that have moved as far. -/
def PlacedBlock.shifted (distance : Nat) (block : PlacedBlock) : PlacedBlock :=
  ⟨block.name, block.offset + distance, block.instrs.map (Instr.shifted distance)⟩

/-- What a closure or a branch enters is known by name. -/
def Instr.Symbolic (instr : Instr) : Prop :=
  instr.opcode.takesBlocks = true → ∀ operand ∈ instr.args, ∃ name, operand = .name name

/-! ## Patching against moved blocks -/

/-- Every name means the block further back. -/
def Shifts (distance : Nat) (layout further : List PlacedBlock) : Prop :=
  ∀ name position, targetOffset? layout name = some position →
    targetOffset? further name = some (position + distance)

namespace Shifts

variable {distance : Nat} {layout further : List PlacedBlock} {block : String}

theorem patch_operand (shifts : Shifts distance layout further) {name : String} {result : Operand}
    (patched : (Operand.name name).patch layout block = .ok result) :
    (Operand.name name).patch further block = .ok (result.shifted distance) := by
  cases found : targetOffset? layout name with
  | some position =>
    simp only [Operand.patch, found, Except.ok.injEq] at patched
    subst patched
    simp [Operand.patch, shifts name position found, Operand.shifted]
  | none => simp [Operand.patch, found] at patched

theorem patch_instr (shifts : Shifts distance layout further) {options : Options}
    {instr result : Instr} (symbolic : instr.Symbolic)
    (patched : instr.patch options layout block = .ok result) :
    instr.patch options further block = .ok (result.shifted distance) := by
  obtain ⟨args, argsOk, rfl⟩ := Instr.patch_eq_ok.mp patched
  rw [Instr.patch_eq_ok]
  unfold Instr.patchArgs at argsOk ⊢
  unfold Instr.shifted
  cases takesBlocks : instr.opcode.takesBlocks with
  | true =>
    simp only [takesBlocks, if_true, mapM_eq_ok] at argsOk ⊢
    refine ⟨args.map (Operand.shifted distance), ?_, rfl⟩
    rw [List.forall₂_map_right_iff]
    refine forall₂_imp_of_mem argsOk fun operand member other isOther => ?_
    obtain ⟨name, rfl⟩ := symbolic takesBlocks operand member
    exact shifts.patch_operand isOther
  | false =>
    simp only [takesBlocks, Bool.false_eq_true, if_false, Except.ok.injEq] at argsOk ⊢
    subst argsOk
    exact ⟨instr.args, rfl, rfl⟩

theorem patch_instrs (shifts : Shifts distance layout further) {options : Options}
    {instrs results : List Instr} (symbolic : ∀ instr ∈ instrs, instr.Symbolic)
    (patched : instrs.mapM (Instr.patch options layout block) = .ok results) :
    instrs.mapM (Instr.patch options further block) =
      .ok (results.map (Instr.shifted distance)) := by
  rw [mapM_eq_ok] at patched ⊢
  rw [List.forall₂_map_right_iff]
  exact forall₂_imp_of_mem patched fun instr member _ => shifts.patch_instr (symbolic instr member)

end Shifts

/-! ## Blocks further back -/

/-- Blocks as long as others, from further back on. -/
theorem Contiguous.shifted {blocks others : List PlacedBlock}
    (same : List.Forall₂ (fun block other => other.name = block.name ∧
      other.instrs.length = block.instrs.length) blocks others) {distance : Nat} :
    ∀ {start : Nat}, Contiguous start blocks → Contiguous (start + distance) others →
      List.Forall₂ (fun block other => other.name = block.name ∧
        other.offset = block.offset + distance) blocks others := by
  induction same with
  | nil => exact fun _ _ => .nil
  | cons head _ ih =>
    rintro start ⟨rfl, next⟩ ⟨offset, otherNext⟩
    refine .cons ⟨head.1, offset⟩ (ih next ?_)
    rwa [head.2, Nat.add_right_comm] at otherNext

/-- If names of blocks are unique, names mean the same blocks further back. -/
theorem Shifts.of_forall₂ {distance : Nat} {layout others added : List PlacedBlock}
    (same : List.Forall₂ (fun block other => other.name = block.name ∧
      other.offset = block.offset + distance) layout others)
    (nodup : ((others ++ added).map PlacedBlock.name).Nodup) :
    Shifts distance layout (others ++ added) := by
  intro name position found
  obtain ⟨before, block, after, split, named, atPosition, -⟩ := exists_of_targetOffset? found
  obtain ⟨other, isOther, otherNamed, offset⟩ := exists_of_mem_left same
    (show block ∈ layout by simp [split])
  exact (targetOffset?_eq_some_iff nodup).mpr ⟨other, List.mem_append_left _ isOther,
    otherNamed.trans named, offset.trans (by rw [atPosition])⟩

/-- What is left of a block once it has a place and holds offsets. -/
def LooseBlock.Becomes (options : Options) (layout : List PlacedBlock) (source : LooseBlock)
    (block : PlacedBlock) : Prop :=
  block.name = source.name ∧
    source.instrs.mapM (Instr.patch options layout source.name) = .ok block.instrs

/-- Two blocks that were made from the same instructions, each among the blocks of its layout. -/
def MadeAlike (options : Options) (layout otherLayout : List PlacedBlock)
    (block other : PlacedBlock) : Prop :=
  ∃ source : LooseBlock, (∀ instr ∈ source.instrs, instr.Symbolic) ∧
    source.Becomes options layout block ∧ source.Becomes options otherLayout other

/-- Blocks that were made from the same, with other instructions in front of them and other blocks
behind them, are the same blocks further back. -/
theorem shifted_of_madeAlike {options : Options} {blocks others added : List PlacedBlock}
    (both : List.Forall₂ (MadeAlike options blocks (others ++ added)) blocks others)
    {start distance : Nat} (contiguous : Contiguous start blocks)
    (further : Contiguous (start + distance) (others ++ added))
    (nodup : ((others ++ added).map PlacedBlock.name).Nodup) :
    others = blocks.map (PlacedBlock.shifted distance) := by
  have lengths : List.Forall₂ (fun block other => other.name = block.name ∧
      other.instrs.length = block.instrs.length) blocks others := by
    refine both.imp ?_
    rintro _ _ ⟨source, -, ⟨named, patched⟩, otherNamed, otherPatched⟩
    exact ⟨otherNamed.trans named.symm, (mapM_eq_ok.mp otherPatched).length_eq.symm.trans
      (mapM_eq_ok.mp patched).length_eq⟩
  have offsets := contiguous.shifted lengths (Contiguous.append.mp further).1
  have shifts : Shifts distance blocks (others ++ added) := .of_forall₂ offsets nodup
  have same : List.Forall₂ (fun block other => PlacedBlock.shifted distance block = other) blocks
      others := by
    refine List.forall₂_iff_zip.mpr ⟨both.length_eq, fun {block other} inBoth => ?_⟩
    obtain ⟨source, symbolic, ⟨-, patched⟩, -, otherPatched⟩ :=
      (List.forall₂_iff_zip.mp both).2 inBoth
    obtain ⟨sameName, offset⟩ := (List.forall₂_iff_zip.mp offsets).2 inBoth
    rw [shifts.patch_instrs symbolic patched] at otherPatched
    obtain ⟨name, position, instrs⟩ := other
    cases otherPatched
    simp only at sameName offset
    rw [PlacedBlock.shifted, sameName, offset]
  rw [← List.forall₂_map_left_iff, List.forall₂_eq_eq_eq] at same
  exact same.symm

theorem PlacedBlock.shifted_zero (block : PlacedBlock) : block.shifted 0 = block := by
  have operand : Operand.shifted 0 = id := by
    funext operand
    cases operand <;> rfl
  have instr : Instr.shifted 0 = id := by
    funext instr
    simp [Instr.shifted, operand]
  rw [shifted, instr, List.map_id, Nat.add_zero]

end Secd
