import Mathlib.Data.List.Nodup
import Secd.Link.Layout
import Secd.Proofs.Results

namespace Secd

open Results

/-! # Blocks at their offsets

Patching changes neither names nor offsets nor lengths, so the offsets that names mean can be read
off the finished listing (`Listing.targetOffset?_eq`), and in the finished listing blocks follow
each other without gaps (`Contiguous`). So a block's instructions stand at its offset
(`Contiguous.getElem?_eq`) and an address lies in one block (`Contiguous.eq_of_mem`).
-/

/-! ## What a name means -/

/-- What the layout knows of a block. -/
def PlacedBlock.label (block : PlacedBlock) : String × Nat := (block.name, block.offset)

theorem targetOffset?_eq_lookup (blocks : List PlacedBlock) (name : String) :
    targetOffset? blocks name = (blocks.map PlacedBlock.label).reverse.lookup name := by
  rw [targetOffset?, ← List.map_reverse]
  induction blocks.reverse with
  | nil => rfl
  | cons block rest ih =>
    rw [List.map_cons, PlacedBlock.label, List.find?_cons, List.lookup_cons, Bool.beq_comm]
    cases name == block.name with
    | true => rfl
    | false => exact ih

theorem targetOffset?_eq_none_iff {blocks : List PlacedBlock} {name : String} :
    targetOffset? blocks name = none ↔ name ∉ blocks.map PlacedBlock.name := by
  simp [targetOffset?]

/-- Where no two blocks have one name, a name means the offset of its block. -/
theorem targetOffset?_eq_some_iff {blocks : List PlacedBlock}
    (nodup : (blocks.map PlacedBlock.name).Nodup) {name : String} {position : Nat} :
    targetOffset? blocks name = some position ↔
      ∃ block ∈ blocks, block.name = name ∧ block.offset = position := by
  constructor
  · intro found
    obtain ⟨block, isFound, atPosition⟩ := Option.map_eq_some_iff.mp found
    refine ⟨block, ?_, by simpa using List.find?_some isFound, atPosition⟩
    exact List.mem_reverse.mp (List.mem_of_find?_eq_some isFound)
  · rintro ⟨block, member, rfl, rfl⟩
    cases found : targetOffset? blocks block.name with
    | none => exact absurd (List.mem_map_of_mem member) (targetOffset?_eq_none_iff.mp found)
    | some position =>
      obtain ⟨other, isFound, rfl⟩ := Option.map_eq_some_iff.mp found
      have isOther : other ∈ blocks := List.mem_reverse.mp (List.mem_of_find?_eq_some isFound)
      have sameName : other.name = block.name := by simpa using List.find?_some isFound
      rw [List.inj_on_of_nodup_map nodup isOther member sameName]

/-- Names lead to their blocks. -/
theorem offset_eq_of_target {blocks : List PlacedBlock}
    (nodup : (blocks.map PlacedBlock.name).Nodup) {block : PlacedBlock} (member : block ∈ blocks)
    {name : String} (named : block.name = name) {position : Nat}
    (found : targetOffset? blocks name = some position) : position = block.offset := by
  rw [(targetOffset?_eq_some_iff nodup).mpr ⟨block, member, named, rfl⟩] at found
  exact (Option.some.inj found).symm

/-! ## Patching -/

theorem Instr.patch_eq_ok {options : Options} {layout : List PlacedBlock} {block : String}
    {instr result : Instr} :
    instr.patch options layout block = .ok result ↔
      ∃ args, instr.patchArgs layout block = .ok args ∧
        result = ⟨instr.opcode, args, if options.comments then instr.comment else none⟩ := by
  simp only [Instr.patch, bind_eq_ok, pure_eq_ok]
  exact exists_congr fun _ => and_congr_right' eq_comm

theorem PlacedBlock.patch_eq_ok {options : Options} {layout : List PlacedBlock}
    {block result : PlacedBlock} :
    block.patch options layout = .ok result ↔
      result.label = block.label ∧
        block.instrs.mapM (Instr.patch options layout block.name) = .ok result.instrs := by
  obtain ⟨name, offset, instrs⟩ := result
  simp only [PlacedBlock.patch, bind_eq_ok, pure_eq_ok, PlacedBlock.label, PlacedBlock.mk.injEq,
    Prod.mk.injEq]
  constructor
  · rintro ⟨patched, patches, rfl, rfl, rfl⟩
    exact ⟨⟨rfl, rfl⟩, patches⟩
  · rintro ⟨⟨rfl, rfl⟩, patches⟩
    exact ⟨instrs, patches, rfl, rfl, rfl⟩

/-- Patching reads the layout for offsets only. -/
theorem Instr.patch_congr {first second : List PlacedBlock}
    (same : first.map PlacedBlock.label = second.map PlacedBlock.label) :
    (Instr.patch · first) = (Instr.patch · second) := by
  have offsets : targetOffset? first = targetOffset? second := by
    funext name
    rw [targetOffset?_eq_lookup, targetOffset?_eq_lookup, same]
  funext options block instr
  rw [Instr.patch, Instr.patch, Instr.patchArgs, Instr.patchArgs]
  have operands : Operand.patch first = Operand.patch second := by
    funext block operand
    cases operand <;> simp only [Operand.patch, offsets]
  rw [operands]

theorem map_label_of_patch {options : Options} {layout before after : List PlacedBlock}
    (patched : before.mapM (PlacedBlock.patch options layout) = .ok after) :
    after.map PlacedBlock.label = before.map PlacedBlock.label := by
  refine map_eq_map_of_forall₂ (mapM_eq_ok.mp patched) fun block result isResult => ?_
  exact (PlacedBlock.patch_eq_ok.mp isResult).1

/-! ## Blocks without gaps -/

/-- Blocks that follow each other from an offset on. -/
def Contiguous : Nat → List PlacedBlock → Prop
  | _, [] => True
  | start, block :: rest =>
    block.offset = start ∧ Contiguous (start + block.instrs.length) rest

/-- Placing blocks adds their offsets and nothing else. -/
theorem map_loose_placeBlocks (start : Nat) (loose : List LooseBlock) :
    (placeBlocks start loose).map (fun block => ⟨block.name, block.instrs⟩) = loose := by
  induction loose generalizing start with
  | nil => rfl
  | cons block rest ih => rw [placeBlocks, List.map_cons, ih]

/-- Blocks that are placed and patched keep their names and follow each other. -/
theorem placed_of_patch {options : Options} {layout : List PlacedBlock} :
    ∀ {loose : List LooseBlock} {start : Nat} {after : List PlacedBlock},
      (placeBlocks start loose).mapM (PlacedBlock.patch options layout) = .ok after →
      Contiguous start after ∧
        List.Forall₂ (fun block placed => placed.name = block.name ∧
          block.instrs.mapM (Instr.patch options layout block.name) = .ok placed.instrs) loose after
  | [], _, _, patched => by
    rw [placeBlocks, List.mapM_nil, pure_eq_ok] at patched
    subst patched
    exact ⟨trivial, .nil⟩
  | block :: rest, start, _, patched => by
    rw [placeBlocks, List.mapM_cons] at patched
    obtain ⟨head, headOk, tail, tailOk, rfl⟩ := by
      simpa only [bind_eq_ok, pure_eq_ok] using patched
    obtain ⟨sameLabel, patches⟩ := PlacedBlock.patch_eq_ok.mp headOk
    obtain ⟨contiguous, placed⟩ := placed_of_patch tailOk
    have length : block.instrs.length = head.instrs.length := (mapM_eq_ok.mp patches).length_eq
    exact ⟨⟨congrArg Prod.snd sameLabel, length ▸ contiguous⟩,
      .cons ⟨congrArg Prod.fst sameLabel, patches⟩ placed⟩

namespace Contiguous

theorem append {first second : List PlacedBlock} : ∀ {start : Nat},
    Contiguous start (first ++ second) ↔ Contiguous start first ∧
      Contiguous (start + (first.flatMap PlacedBlock.instrs).length) second := by
  induction first with
  | nil => simp [Contiguous]
  | cons block rest ih =>
    intro start
    simp only [List.cons_append, Contiguous, ih, List.flatMap_cons, List.length_append,
      Nat.add_assoc, and_assoc]

/-- The instructions of a block stand at its offset. -/
theorem getElem?_eq {listing : Listing}
    (contiguous : Contiguous listing.preamble.length listing.blocks) {block : PlacedBlock}
    (member : block ∈ listing.blocks) {index : Nat} {instr : Instr}
    (inBlock : block.instrs[index]? = some instr) :
    listing.instructions[block.offset + index]? = some instr := by
  obtain ⟨before, after, split⟩ := List.append_of_mem member
  rw [split, append] at contiguous
  obtain ⟨-, offset, -⟩ := contiguous
  obtain ⟨bound, -⟩ := List.getElem?_eq_some_iff.mp inBlock
  rw [Listing.instructions, split, List.flatMap_append, List.flatMap_cons, offset,
    List.getElem?_append_right (by omega), List.getElem?_append_right (by omega),
    List.getElem?_append_left (by omega)]
  rw [← inBlock]
  congr 1
  omega

theorem offset_ge {blocks : List PlacedBlock} : ∀ {start : Nat}, Contiguous start blocks →
    ∀ block ∈ blocks, start ≤ block.offset := by
  induction blocks with
  | nil => simp
  | cons head rest ih =>
    rintro start ⟨offset, next⟩ block member
    rcases List.mem_cons.mp member with rfl | inRest
    · omega
    · have later := ih next block inRest
      omega

/-- An address lies in one block. -/
theorem eq_of_mem {blocks : List PlacedBlock} : ∀ {start : Nat}, Contiguous start blocks →
    ∀ {first second : PlacedBlock} {address : Nat}, first ∈ blocks → second ∈ blocks →
      first.offset ≤ address → address < first.offset + first.instrs.length →
      second.offset ≤ address → address < second.offset + second.instrs.length →
      first = second := by
  induction blocks with
  | nil => simp
  | cons head rest ih =>
    rintro start ⟨offset, next⟩ first second address isFirst isSecond
    have later := next.offset_ge
    rcases List.mem_cons.mp isFirst with rfl | firstInRest
    · rcases List.mem_cons.mp isSecond with rfl | secondInRest
      · intros
        rfl
      · have := later second secondInRest
        omega
    · rcases List.mem_cons.mp isSecond with rfl | secondInRest
      · have := later first firstInRest
        omega
      · exact ih next firstInRest secondInRest

end Contiguous

end Secd
