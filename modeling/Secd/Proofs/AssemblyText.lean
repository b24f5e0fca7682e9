import Mathlib.Data.List.DropRight
import Secd.Listing.Text
import Secd.Proofs.Comments

namespace Secd

open Results

/-! # Addresses in assembly text

A machine that loads assembly text numbers the instructions by their lines: it skips headings, blank
lines and comments and strips the padding (`codeLines`). What it finds are the instructions of the
listing in address order, one for each line: a line keeps all of its instruction before the first
semicolon (`Instr.FitsLine.codePart_line`), and a heading has nothing there. So an offset counts the
lines above the heading of its block (`Listing.render_preserves_addresses`).
-/

/-! ## Reading assembly text -/

/-- What stands on a line before a comment, without trailing spaces. -/
def codePart (line : List Char) : List Char :=
  (line.takeWhile (· ≠ ';')).rdropWhile (· = ' ')

/-- The code on some lines, where there is any. -/
def codeOf (lines : List (List Char)) : List (List Char) :=
  (lines.map codePart).filter (· ≠ [])

/-- The code in a text, line by line. -/
def codeLines (text : String) : List (List Char) := codeOf (text.toList.splitOn '\n')

/-- The text of an instruction without trailing spaces. -/
def Instr.text (instr : Instr) : List Char := instr.render.toList.rdropWhile (· = ' ')

@[simp] theorem codeOf_nil : codeOf [] = [] := rfl

theorem codeOf_append (first second : List (List Char)) :
    codeOf (first ++ second) = codeOf first ++ codeOf second := by
  simp [codeOf]

@[simp] theorem codeOf_blank (rest : List (List Char)) : codeOf ([] :: rest) = codeOf rest := rfl

/-- A line that starts with a semicolon holds no code. -/
@[simp] theorem codeOf_heading (heading : List Char) (rest : List (List Char)) :
    codeOf ((';' :: heading) :: rest) = codeOf rest := by
  simp [codeOf, codePart]

theorem splitOn_append_break {line : List Char} (noBreak : '\n' ∉ line) (rest : List Char) :
    (line ++ '\n' :: rest).splitOn '\n' = line :: rest.splitOn '\n' := by
  have whole : line.splitOnP (· == '\n') = [line] := by
    refine List.splitOnP_eq_singleton fun char member => ?_
    rw [beq_eq_false_iff_ne]
    rintro rfl
    exact noBreak member
  rw [List.splitOn, List.splitOnP_append_cons (p := (· == '\n')) line rest rfl, whole]
  rfl

/-- Lines one after the other, each with a line feed. -/
def unlines (lines : List String) : String := String.join (lines.map (· ++ "\n"))

theorem codeLines_unlines_cons {line : String} (noBreak : '\n' ∉ line.toList)
    (lines : List String) :
    codeLines (unlines (line :: lines)) = codeOf [line.toList] ++ codeLines (unlines lines) := by
  have split : (unlines (line :: lines)).toList =
      line.toList ++ '\n' :: (unlines lines).toList := by
    simp [unlines, String.toList_join]
  rw [codeLines, split, splitOn_append_break noBreak, ← List.singleton_append, codeOf_append,
    codeLines]

/-- Lines that are written one after the other are read one after the other. -/
theorem codeLines_unlines {lines : List String} (noBreak : ∀ line ∈ lines, '\n' ∉ line.toList) :
    codeLines (unlines lines) = codeOf (lines.map String.toList) := by
  induction lines with
  | nil => rfl
  | cons line lines ih =>
    obtain ⟨ofLine, ofRest⟩ := List.forall_mem_cons.mp noBreak
    rw [codeLines_unlines_cons ofLine, ih ofRest, ← codeOf_append]
    rfl

/-! ## Lines of instructions -/

/-- Comment and operands stay on one line, and no operand starts a comment. -/
structure Instr.FitsLine (instr : Instr) : Prop where
  comment : ∀ comment ∈ instr.comment, '\n' ∉ comment.toList
  operands : ∀ arg ∈ instr.args, '\n' ∉ arg.render.toList ∧ ';' ∉ arg.render.toList

instance : DecidablePred Instr.FitsLine := fun instr =>
  decidable_of_iff ((∀ comment ∈ instr.comment, '\n' ∉ comment.toList) ∧
      ∀ arg ∈ instr.args, '\n' ∉ arg.render.toList ∧ ';' ∉ arg.render.toList)
    ⟨fun ⟨comment, operands⟩ => ⟨comment, operands⟩, fun ⟨comment, operands⟩ => ⟨comment, operands⟩⟩

/-- Mnemonics are made of capital letters. -/
theorem Opcode.isUpper_of_mem_mnemonic {opcode : Opcode} {char : Char}
    (member : char ∈ opcode.mnemonic.toList) : char.isUpper := by
  have letters : opcode.mnemonic.toList.all Char.isUpper := by cases opcode <;> decide
  exact List.all_eq_true.mp letters char member

theorem rdropWhile_append_spaces (text : List Char) (count : Nat) :
    (text ++ List.replicate count ' ').rdropWhile (· = ' ') = text.rdropWhile (· = ' ') := by
  induction count with
  | zero => simp
  | succ count ih =>
    rw [List.replicate_succ', ← List.append_assoc, List.rdropWhile_concat_pos _ _ _ (by simp), ih]

namespace Instr

variable {instr : Instr}

/-- Every instruction leaves something on its line. -/
theorem text_ne_nil (instr : Instr) : instr.text ≠ [] := by
  intro isEmpty
  rw [text, List.rdropWhile_eq_nil_iff] at isEmpty
  obtain ⟨char, member⟩ : ∃ char, char ∈ instr.opcode.mnemonic.toList := by
    cases instr.opcode <;> exact ⟨_, List.mem_cons_self⟩
  have isSpace := isEmpty char (by simp [render, member])
  have isUpper := Opcode.isUpper_of_mem_mnemonic member
  rw [of_decide_eq_true isSpace] at isUpper
  cases isUpper

theorem FitsLine.mem_render (fits : instr.FitsLine) {char : Char}
    (member : char ∈ instr.render.toList) : char ≠ '\n' ∧ char ≠ ';' := by
  simp only [render, String.toList_append, List.mem_append, String.toList_join, List.mem_flatMap,
    List.mem_map, exists_exists_and_eq_and] at member
  rcases member with inMnemonic | ⟨arg, isArg, isSpace | inArg⟩
  · have isUpper := Opcode.isUpper_of_mem_mnemonic inMnemonic
    constructor <;> rintro rfl <;> cases isUpper
  · obtain rfl : char = ' ' := by simpa using isSpace
    decide
  · obtain ⟨noBreak, noComment⟩ := fits.operands arg isArg
    constructor
    · rintro rfl
      exact noBreak inArg
    · rintro rfl
      exact noComment inArg

theorem FitsLine.break_notMem_line (fits : instr.FitsLine) (width : Nat) :
    '\n' ∉ (instr.line width).toList := by
  have inRender : '\n' ∉ instr.render.toList := fun member => (fits.mem_render member).1 rfl
  unfold line
  split
  · rename_i comment isComment
    have inComment := fits.comment comment isComment
    simp [padTo, inRender, inComment]
  · exact inRender

/-- What stands before the comment is the instruction with its padding. -/
theorem FitsLine.codePart_line (fits : instr.FitsLine) (width : Nat) :
    codePart (instr.line width).toList = instr.text := by
  have before : ∀ char ∈ instr.render.toList, decide (char ≠ ';') = true := by
    intro char member
    simpa using (fits.mem_render member).2
  unfold line
  split
  · rename_i comment isComment
    -- between the instruction and the semicolon there are only spaces, however many
    have split : (padTo width instr.render ++ " ; " ++ comment).toList =
        (instr.render.toList ++ List.replicate (width - instr.render.length + 1) ' ') ++
          ';' :: ' ' :: comment.toList := by
      simp [padTo, List.replicate_succ']
    have padded : ∀ char ∈ instr.render.toList ++
        List.replicate (width - instr.render.length + 1) ' ', decide (char ≠ ';') = true := by
      refine List.forall_mem_append.mpr ⟨before, fun char member => ?_⟩
      rw [(List.mem_replicate.mp member).2]
      decide
    rw [codePart, split, List.takeWhile_append_of_pos padded]
    simpa [text] using rdropWhile_append_spaces instr.render.toList _
  · rw [codePart, List.takeWhile_eq_self_iff.mpr before, text]

end Instr

/-- A group of instructions is read back from its lines. -/
theorem codeOf_columnLines {instrs : List Instr} (fit : ∀ instr ∈ instrs, instr.FitsLine) :
    codeOf ((columnLines instrs).map String.toList) = instrs.map Instr.text := by
  have parts : ((columnLines instrs).map String.toList).map codePart = instrs.map Instr.text := by
    rw [columnLines, List.map_map, List.map_map]
    exact List.map_congr_left fun instr member => (fit instr member).codePart_line _
  rw [codeOf, parts, List.filter_eq_self]
  intro text member
  obtain ⟨instr, -, rfl⟩ := List.mem_map.mp member
  simpa using instr.text_ne_nil

theorem break_notMem_columnLines {instrs : List Instr} (fit : ∀ instr ∈ instrs, instr.FitsLine) :
    ∀ line ∈ columnLines instrs, '\n' ∉ line.toList := by
  intro line member
  obtain ⟨instr, isInstr, rfl⟩ := List.mem_map.mp member
  exact (fit instr isInstr).break_notMem_line _

/-! ## The whole text -/

/-- Names and comments stay on one line, and no operand starts a comment. -/
structure Listing.FitsLines (listing : Listing) : Prop where
  name : '\n' ∉ listing.name.toList
  blocks : ∀ block ∈ listing.blocks, '\n' ∉ block.name.toList
  instrs : ∀ instr ∈ listing.instructions, instr.FitsLine

/-- The lines of blocks hold their instructions. -/
theorem codeOf_blocks {blocks : List PlacedBlock}
    (fit : ∀ instr ∈ blocks.flatMap PlacedBlock.instrs, instr.FitsLine) :
    codeOf ((blocks.flatMap PlacedBlock.lines).map String.toList) =
      (blocks.flatMap PlacedBlock.instrs).map Instr.text := by
  induction blocks with
  | nil => rfl
  | cons block rest ih =>
    rw [List.flatMap_cons, List.forall_mem_append] at fit
    obtain ⟨ofBlock, ofRest⟩ := fit
    have ofLines : codeOf (block.lines.map String.toList) = block.instrs.map Instr.text := by
      simpa [PlacedBlock.lines] using codeOf_columnLines ofBlock
    rw [List.flatMap_cons, List.flatMap_cons, List.map_append, List.map_append, codeOf_append,
      ih ofRest, ofLines]

theorem break_notMem_blocks {blocks : List PlacedBlock}
    (names : ∀ block ∈ blocks, '\n' ∉ block.name.toList)
    (fit : ∀ instr ∈ blocks.flatMap PlacedBlock.instrs, instr.FitsLine) :
    ∀ line ∈ blocks.flatMap PlacedBlock.lines, '\n' ∉ line.toList := by
  intro line member
  obtain ⟨block, isBlock, inBlock⟩ := List.mem_flatMap.mp member
  rcases List.mem_cons.mp inBlock with rfl | later
  · simp
  rcases List.mem_cons.mp later with rfl | inColumn
  · simpa using names block isBlock
  · refine break_notMem_columnLines (fun instr isInstr => fit instr ?_) line inColumn
    exact List.mem_flatMap.mpr ⟨block, isBlock, isInstr⟩

/-- Instructions and blocks are read back from their lines. -/
theorem codeLines_columnLines_blocks {instrs : List Instr} {blocks : List PlacedBlock}
    (names : ∀ block ∈ blocks, '\n' ∉ block.name.toList)
    (fit : ∀ instr ∈ instrs ++ blocks.flatMap PlacedBlock.instrs, instr.FitsLine) :
    codeLines (unlines (columnLines instrs ++ blocks.flatMap PlacedBlock.lines)) =
      (instrs ++ blocks.flatMap PlacedBlock.instrs).map Instr.text := by
  obtain ⟨ofInstrs, ofBlocks⟩ := List.forall_mem_append.mp fit
  have noBreak : ∀ line ∈ columnLines instrs ++ blocks.flatMap PlacedBlock.lines,
      '\n' ∉ line.toList := List.forall_mem_append.mpr
    ⟨break_notMem_columnLines ofInstrs, break_notMem_blocks names ofBlocks⟩
  rw [codeLines_unlines noBreak, List.map_append, codeOf_append, codeOf_columnLines ofInstrs,
    codeOf_blocks ofBlocks, List.map_append]

namespace Listing

variable {listing : Listing}

theorem FitsLines.codeLines_render (fits : listing.FitsLines) :
    codeLines listing.render = listing.instructions.map Instr.text := by
  have heading : '\n' ∉ ("; program: " ++ listing.name).toList := by simpa using fits.name
  have text : listing.render = unlines (("; program: " ++ listing.name) ::
      (columnLines listing.preamble ++ listing.blocks.flatMap PlacedBlock.lines)) := rfl
  rw [text, codeLines_unlines_cons heading, codeLines_columnLines_blocks fits.blocks fits.instrs]
  simp [instructions]

/-- The text of a listing from the heading of a block on. -/
theorem FitsLines.render_split (fits : listing.FitsLines) {before after : List PlacedBlock}
    {block : PlacedBlock} (blocks : listing.blocks = before ++ block :: after) :
    ∃ above below, above = Listing.render { listing with blocks := before } ∧
      listing.render = above ++ "\n; " ++ block.name ++ "\n" ++ below ∧
      codeLines above = (listing.preamble ++ before.flatMap PlacedBlock.instrs).map Instr.text ∧
      codeLines below = (block.instrs ++ after.flatMap PlacedBlock.instrs).map Instr.text := by
  obtain ⟨beforeNames, -, afterNames⟩ := by
    simpa only [blocks, List.forall_mem_append, List.forall_mem_cons] using fits.blocks
  obtain ⟨ofPreamble, ofBefore, ofBlock, ofAfter⟩ := by
    simpa only [instructions, blocks, List.flatMap_append, List.flatMap_cons,
      List.forall_mem_append] using fits.instrs
  have above : FitsLines { listing with blocks := before } :=
    ⟨fits.name, beforeNames, List.forall_mem_append.mpr ⟨ofPreamble, ofBefore⟩⟩
  refine ⟨_, unlines (columnLines block.instrs ++ after.flatMap PlacedBlock.lines), rfl, ?_,
    above.codeLines_render,
    codeLines_columnLines_blocks afterNames (List.forall_mem_append.mpr ⟨ofBlock, ofAfter⟩)⟩
  rw [← String.toList_inj]
  simp [render, lines, blocks, unlines, PlacedBlock.lines, String.toList_join]

end Listing

/-- Whatever is linked has its blocks one after the other, behind the preamble. -/
theorem ObjectProgram.contiguous_of_link {options : Options} {object : ObjectProgram}
    {listing : Listing} (linked : object.link options = .ok listing) :
    Contiguous listing.preamble.length listing.blocks := by
  rw [link_eq_finish] at linked
  simp only [bind_eq_ok] at linked
  obtain ⟨entry, -, table, -, declared, -, body, -, first, -, later, -, finished⟩ := linked
  exact (finish_eq_ok finished).2.2

/-- The lines of the assembly text that are left without comments, trailing spaces and empty lines
are the instructions in address order. In the text of a linked program, the lines above the heading
of a block are as many as its offset says, and the next one below is its first instruction. -/
theorem Listing.render_preserves_addresses {listing : Listing} (fits : listing.FitsLines) :
    codeLines listing.render = listing.instructions.map Instr.text ∧
    ∀ (options : Options) (object : ObjectProgram), object.link options = .ok listing →
      ∀ before block after first others, listing.blocks = before ++ block :: after →
        block.instrs = first :: others →
        ∃ above below, above = Listing.render { listing with blocks := before } ∧
          listing.render = above ++ "\n; " ++ block.name ++ "\n" ++ below ∧
          codeLines listing.render = codeLines above ++ codeLines below ∧
          (codeLines above).length = block.offset ∧
          (codeLines below).head? = some first.text ∧
          (codeLines listing.render)[block.offset]? = some first.text := by
  refine ⟨fits.codeLines_render, ?_⟩
  intro options object linked before block after first others blocks instrs
  obtain ⟨above, below, isAbove, text, readAbove, readBelow⟩ := fits.render_split blocks
  -- blocks follow each other, so an offset counts the instructions of all that is above
  have contiguous := ObjectProgram.contiguous_of_link linked
  rw [blocks, Contiguous.append] at contiguous
  have offset : (codeLines above).length = block.offset := by
    rw [contiguous.2.1, readAbove, List.length_map, List.length_append]
  have split : codeLines listing.render = codeLines above ++ codeLines below := by
    rw [fits.codeLines_render, readAbove, readBelow, ← List.map_append, instructions, blocks,
      List.flatMap_append, List.flatMap_cons, List.append_assoc]
  have head : (codeLines below).head? = some first.text := by simp [readBelow, instrs]
  refine ⟨above, below, isAbove, text, split, offset, head, ?_⟩
  rw [split, ← offset, List.getElem?_append_right (Nat.le_refl _), Nat.sub_self,
    ← List.head?_eq_getElem?, head]

/-- A program with an operand beyond ASCII and a semicolon in a comment. -/
def greeting : ObjectProgram where
  name := "greeting"
  blocks := [{
    name := "main"
    scope := 0
    instrs := [(Instr.ldcText "'é'").commented "hello; again", .ldc 1, .plain .cons, .plain .rtn] }]
  index := [("main", 0)]
  functions := [0]

theorem greeting_preserves_addresses :
    ∃ listing block first, greeting.link {} = .ok listing ∧ listing.FitsLines ∧
      listing.blocks = [block] ∧ block.offset = 3 ∧ block.instrs.head? = some first ∧
      (codeLines listing.render)[3]? = some first.text := by
  obtain ⟨listing, linked, holds⟩ := exists_ok_of_any (greeting.link {})
    (fun listing => listing.name = "greeting" ∧ listing.preamble =
        [⟨.ldf, [.offset 3], some "load main"⟩, .ap 0, .plain .rtn] ∧
      listing.blocks = [⟨"main", 3, [⟨.ldc, [.text "'é'"], some "hello; again"⟩, .ldc 1,
        .plain .cons, .plain .rtn]⟩]) (by decide)
  obtain ⟨name, preamble, blocks⟩ := of_decide_eq_true holds
  have fits : listing.FitsLines := by
    refine ⟨by simp [name], by simp [blocks], ?_⟩
    rw [Listing.instructions, preamble, blocks]
    decide
  obtain ⟨-, text⟩ := Listing.render_preserves_addresses fits
  obtain ⟨-, -, -, -, -, -, -, atOffset⟩ := text {} greeting linked [] _ [] _ _ blocks rfl
  exact ⟨listing, _, _, linked, fits, blocks, rfl, rfl, atOffset⟩

end Secd
