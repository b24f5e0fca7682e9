import Secd.Proofs.Emission

namespace Secd

open Results

/-! # What a listing consists of

A listing holds, for the entry function and then for every other function, its body and its arms
(`Routine`). `Realises next stmts out` says by rules that `out` is the code of statements and that
the blocks of the function from number `next` on are the arms of their conditionals: each branch
holds the offsets of the two blocks made for it. Every listing that compilation gives is such an
image of its source (`Image.of_compile`). What is said of listings elsewhere follows from this
alone.
-/

/-! ## Statements -/

/-- The branch to two blocks. -/
def Instr.selOffsets (thenBlock elseBlock : PlacedBlock) : Instr :=
  { opcode := .sel, args := [.offset thenBlock.offset, .offset elseBlock.offset] }

/-- Instructions without their comments. -/
def PlacedBlock.bare (block : PlacedBlock) : List Instr := block.instrs.map Instr.uncommented

/-- The code of statements in a function with the given blocks, by rules; `emits` gives the code of
expressions. The arms of the statements are the blocks from number `next` on. -/
inductive Realises (emits : Expr → List Instr → Prop) (blocks : List PlacedBlock) :
    Nat → List Stmt → List Instr → Prop where
  | nil (next : Nat) : Realises emits blocks next [] []
  | expr {next : Nat} {value : Expr} {code : List Instr} {rest : List Stmt} {out : List Instr}
      (emitted : emits value code) (after : Realises emits blocks next rest out) :
    Realises emits blocks next (.expr value :: rest) (code ++ out)
  | ret {next : Nat} {value : Expr} {code : List Instr} {rest : List Stmt} {out : List Instr}
      (emitted : emits value code) (after : Realises emits blocks next rest out) :
    Realises emits blocks next (.ret [value] :: rest) (code ++ out)
  | retNothing {next : Nat} {rest : List Stmt} {out : List Instr}
      (after : Realises emits blocks next rest out) :
    Realises emits blocks next (.ret [] :: rest) out
  | ifElse {next : Nat} {cond : Expr} {thenArm : List Stmt} {elseArm : Option (List Stmt)}
      {test taken other : List Instr} {thenBlock elseBlock : PlacedBlock} {rest : List Stmt}
      {out : List Instr} (emitted : emits cond test)
      (isThen : blocks[next]? = some thenBlock)
      (thenCode : thenBlock.bare = taken ++ [.plain .join])
      (thenRealises : Realises emits blocks (next + 1) thenArm taken)
      (isElse : blocks[next + 1 + Stmt.armCountOfAll thenArm]? = some elseBlock)
      (elseCode : elseBlock.bare = other ++ [.plain .join])
      (elseRealises : Realises emits blocks (next + 1 + Stmt.armCountOfAll thenArm + 1)
        (elseArm.getD []) other)
      (after : Realises emits blocks
        (next + Stmt.armCount (.ifElse cond thenArm elseArm)) rest out) :
    Realises emits blocks next (.ifElse cond thenArm elseArm :: rest)
      (test ++ .selOffsets thenBlock elseBlock :: out)

/-- A block that ends without naming a block is its code and the same ending. -/
theorem SettlesBlock.code_of_ending {constants : Constants} {blocks : List PlacedBlock} {depth : Nat}
    {scope : Scope} {block : Block} {placed : PlacedBlock}
    (settles : SettlesBlock constants blocks depth (scope, block) placed) {code : List Instr}
    {last : Opcode} (isCode : block.instrs = code ++ [.plain last])
    (noBlocks : last.takesBlocks = false) :
    placed.name = block.name ∧ ∃ out, placed.bare = out ++ [.plain last] ∧
      Settles scope constants blocks depth .function (code.map Instr.uncommented) out := by
  obtain ⟨named, settled⟩ := settles
  simp only [isCode, List.map_append] at settled
  obtain ⟨out, ending, split, ofCode, ofLast⟩ := settled.append
  have noName : (Instr.plain last).reference? = none := by cases last <;> rfl
  obtain ⟨nothing, rfl, ended⟩ := ofLast.keep_inv noName noBlocks
  cases ended
  exact ⟨named, out, split, ofCode⟩

/-- Settled code of statements realises them. -/
theorem realises_of_yields {options : Options} {params : List String} {scope : Scope}
    {definitions : List (String × Expr)} {constants : Constants}
    (defines : Defines options definitions constants) {blocks segment : List PlacedBlock}
    (nodup : (blocks.map PlacedBlock.name).Nodup) (within : segment ⊆ blocks) {depth number : Nat}
    {block : String} {position : Nat} {stmts : List Stmt} {fragment : Fragment}
    (yields : Yields options params block position stmts fragment) :
    ∀ {base : Nat} (before : List PlacedBlock) {arms : List PlacedBlock} (after : List PlacedBlock)
      {out : List Instr},
      segment = before ++ arms ++ after →
      List.Forall₂ (fun block placed => SettlesBlock constants blocks depth (scope, block) placed)
        (fragment.arms.place number base) arms →
      Settles scope constants blocks depth .function (fragment.instrs.map Instr.uncommented) out →
      Realises (fun expr code => Emits scope definitions depth .function [expr] code) segment
        before.length stmts out := by
  induction yields with
  | nil block position =>
    intro base before arms after out split ofArms settles
    cases settles
    exact .nil _
  | expr compiled next ih =>
    intro base before arms after out split ofArms settles
    rw [Fragment.instrs_append, List.map_append] at settles
    obtain ⟨code, rest, rfl, ofCode, ofRest⟩ := settles.append
    exact .expr (emits_of_settles defines depth (by simp) compiled ofCode)
      (ih before after split ofArms ofRest)
  | ret compiled next ih =>
    intro base before arms after out split ofArms settles
    rw [Fragment.instrs_append, List.map_append] at settles
    obtain ⟨code, rest, rfl, ofCode, ofRest⟩ := settles.append
    exact .ret (emits_of_settles defines depth (by simp) compiled ofCode)
      (ih before after split ofArms ofRest)
  | retNothing next ih =>
    intro base before arms after out split ofArms settles
    exact .retNothing (ih before after split ofArms settles)
  | @ifElse block position cond thenArm elseArm test taken other rest tail compiled thenYields
      elseYields next ihThen ihElse ihNext =>
    intro base before arms after out split ofArms settles
    simp only [Fragment.arms_append, conditional_arms, Forest.node_append, Forest.nil_append,
      Forest.place] at ofArms
    -- one arm with what is nested in it, the other with what is nested there, then later statements
    obtain ⟨thenBlock, afterThen, ofThen, ofAfterThen, rfl⟩ := List.forall₂_cons_left_iff.mp ofArms
    obtain ⟨thenArms, fromElse, rfl, ofThenArms, ofFromElse⟩ := forall₂_append ofAfterThen
    obtain ⟨elseBlock, afterElse, ofElse, ofAfterElse, rfl⟩ :=
      List.forall₂_cons_left_iff.mp ofFromElse
    obtain ⟨elseArms, tailArms, rfl, ofElseArms, ofTailArms⟩ := forall₂_append ofAfterElse
    have thenCount : thenArms.length = Stmt.armCountOfAll thenArm := by
      rw [← ofThenArms.length_eq, Forest.length_place, thenYields.size_arms]
    have elseCount : elseArms.length = Stmt.armCountOfArm elseArm := by
      rw [← ofElseArms.length_eq, Forest.length_place, elseYields.size_arms, Stmt.armCountOfArm_eq]
    obtain ⟨thenNamed, thenOut, thenCode, thenSettles⟩ := ofThen.code_of_ending rfl rfl
    obtain ⟨elseNamed, elseOut, elseCode, elseSettles⟩ := ofElse.code_of_ending rfl rfl
    simp only [Fragment.instrs_append, conditional_instrs, List.map_append, List.append_assoc]
      at settles
    obtain ⟨testOut, rest, rfl, ofTest, ofRest⟩ := settles.append
    obtain ⟨thenOffset, elseOffset, tailOut, isThen, isElse, rfl, ofTail⟩ := ofRest.branch_inv
    -- names of blocks are unique, so the branch leads to the two blocks of this conditional
    obtain rfl := offset_eq_of_target nodup (within (by simp [split])) thenNamed isThen
    obtain rfl := offset_eq_of_target nodup (within (by simp [split])) elseNamed isElse
    refine .ifElse (emits_of_settles defines depth (by simp) compiled ofTest) ?_ thenCode ?_ ?_
      elseCode ?_ ?_
    · simp [split]
    · have realises := ihThen (before ++ [thenBlock])
        (elseBlock :: (elseArms ++ tailArms) ++ after) (by simp [split]) ofThenArms
        thenSettles
      simpa using realises
    · have place : before.length + 1 + Stmt.armCountOfAll thenArm =
          (before ++ thenBlock :: thenArms).length := by
        simp only [List.length_append, List.length_cons, thenCount]
        omega
      have position : segment =
          (before ++ thenBlock :: thenArms) ++ elseBlock :: (elseArms ++ tailArms ++ after) := by
        simp [split]
      rw [place, position, List.getElem?_append_right (Nat.le_refl _), Nat.sub_self]
      rfl
    · have realises := ihElse (before ++ thenBlock :: thenArms ++ [elseBlock])
        (tailArms ++ after) (by simp [split]) ofElseArms elseSettles
      simpa [thenCount, Nat.add_assoc, Nat.add_comm 1] using realises
    · have realises := ihNext (before ++ thenBlock :: thenArms ++ elseBlock :: elseArms) after
        (by simp [split]) ofTailArms ofTail
      convert realises using 1
      simp only [Stmt.armCount, List.length_append, List.length_cons, thenCount, elseCount]
      omega

/-! ## Functions -/

/-- A function with its blocks in a listing. -/
structure Routine where
  decl : FunctionDecl
  body : PlacedBlock
  arms : List PlacedBlock

namespace Routine

def blocks (routine : Routine) : List PlacedBlock := routine.body :: routine.arms

/-- The blocks are the code of the function, where `scope` gives the names in reach. -/
structure Realised (scope : Scope) (definitions : List (String × Expr)) (depth : Nat)
    (routine : Routine) : Prop where
  name : routine.body.name = routine.decl.name
  armNames : ∀ arm ∈ routine.arms, Under routine.decl.name arm.name
  armCount : routine.arms.length = Stmt.armCountOfAll routine.decl.body
  code : ∃ code, routine.body.bare = code ++ [.plain .rtn] ∧
    Realises (fun expr out => Emits scope definitions depth .function [expr] out) routine.blocks 1
      routine.decl.body code

end Routine

/-- Blocks that were made from the blocks of a function are that function's code. -/
theorem Linked.exists_routine {options : Options} {program : Program} {object : ObjectProgram}
    {functions : List CompiledFunction} {id : Nat} {main : CompiledFunction} {table : Constants}
    {listing : Listing} (linked : Linked options program object functions id main table listing)
    {depth number : Nat} {function : CompiledFunction} (member : function ∈ functions)
    {segment : List PlacedBlock} (within : segment ⊆ listing.blocks)
    (settled : List.Forall₂ (SettlesBlock object.constants listing.blocks depth)
      (CompiledFunction.sites program.functions main.decl (number, function)) segment) :
    ∃ routine : Routine, routine.decl = function.decl ∧ routine.blocks = segment ∧
      routine.Realised (framesOf program.functions main.decl function.decl) program.constants
        depth := by
  have compiled := linked.assembled.code function member
  obtain ⟨code, yields, instrs, arms⟩ := FunctionDecl.yields_of_code compiled
  rw [CompiledFunction.sites, List.forall₂_map_left_iff, CompiledFunction.blocks] at settled
  obtain ⟨body, armBlocks, ofBody, ofArms, rfl⟩ := List.forall₂_cons_left_iff.mp settled
  obtain ⟨named, out, bare, ofCode⟩ := ofBody.code_of_ending instrs rfl
  refine ⟨⟨function.decl, body, armBlocks⟩, rfl, rfl, named, ?_, ?_, out, bare, ?_⟩
  · intro arm isArm
    obtain ⟨block, isBlock, sameName, -⟩ := exists_of_mem_right ofArms isArm
    refine CompiledFunction.under_of_mem_names compiled (List.mem_cons_of_mem _ ?_)
    rw [sameName, ← Forest.map_name_place]
    exact List.mem_map_of_mem isBlock
  · rw [← ofArms.length_eq, Forest.length_place, arms, yields.size_arms]
  · rw [arms] at ofArms
    exact realises_of_yields linked.assembled.constants linked.nodup_names within yields
      [body] [] (by simp) ofArms ofCode

/-! ## Programs -/

/-- Makes a closure of the code at an offset. -/
def Instr.ldfOffset (offset : Nat) : Instr := { opcode := .ldf, args := [.offset offset] }

/-- The instructions at address zero, given where the entry function and the others start. -/
def startCode (entry : Nat) (declared : List Nat) : List Instr :=
  if declared.isEmpty then [.ldfOffset entry, .ap 0, .plain .rtn]
  else .dum declared.length :: declared.map Instr.ldfOffset ++
    [.ldfOffset entry, .rap declared.length, .plain .rtn]

/-- A listing as the image of a program: the entry function and the others with their blocks. At
most `depth` constants stand inside each other. -/
structure Image (options : Options) (program : Program) (listing : Listing) (main : Routine)
    (others : List Routine) (depth : Nat) : Prop where
  isFunction : main.decl ∈ program.functions
  isEntry : main.decl.name = options.entry
  decls : others.map Routine.decl = functionsExcept program.functions options.entry
  blocks : listing.blocks = (main :: others).flatMap Routine.blocks
  realised : ∀ routine ∈ main :: others, routine.Realised
    (framesOf program.functions main.decl routine.decl) program.constants depth
  start : listing.preamble.map Instr.uncommented =
    startCode main.body.offset (others.map (·.body.offset))
  nodupFunctions : (program.functions.map FunctionDecl.name).Nodup
  nodup : (listing.blocks.map PlacedBlock.name).Nodup
  contiguous : Contiguous listing.preamble.length listing.blocks

theorem Linked.exists_routines {options : Options} {program : Program} {object : ObjectProgram}
    {functions : List CompiledFunction} {id : Nat} {main : CompiledFunction} {table : Constants}
    {listing : Listing} (linked : Linked options program object functions id main table listing)
    {depth : Nat} {order : List (Nat × CompiledFunction)} {segments : List (List PlacedBlock)}
    (settled : List.Forall₂ (fun function segment =>
      List.Forall₂ (SettlesBlock object.constants listing.blocks depth)
        (CompiledFunction.sites program.functions main.decl function) segment) order segments) :
    (∀ function ∈ order, function.2 ∈ functions) → segments.flatten ⊆ listing.blocks →
    ∃ routines : List Routine, routines.map Routine.decl = order.map (·.2.decl) ∧
      routines.flatMap Routine.blocks = segments.flatten ∧
      ∀ routine ∈ routines, routine.Realised
        (framesOf program.functions main.decl routine.decl) program.constants depth := by
  induction settled with
  | nil => exact fun _ _ => ⟨[], rfl, rfl, by simp⟩
  | cons head _ ih =>
    intro members within
    rw [List.flatten_cons] at within
    obtain ⟨routine, isDecl, isSegment, realised⟩ := linked.exists_routine
      (members _ List.mem_cons_self) (fun _ isBlock => within (List.mem_append_left _ isBlock)) head
    obtain ⟨routines, decls, blocks, restRealised⟩ := ih
      (fun function member => members function (List.mem_cons_of_mem _ member))
      (fun _ isBlock => within (List.mem_append_right _ isBlock))
    refine ⟨routine :: routines, by simp [isDecl, decls], by simp [isSegment, blocks], ?_⟩
    intro other isOther
    rcases List.mem_cons.mp isOther with rfl | inRest
    · rw [isDecl]
      exact realised
    · exact restRealised other inRest

/-- The preamble holds the offsets of the function bodies. -/
theorem startCode_of_patches (blocks : List PlacedBlock) {main : Routine} {others : List Routine}
    {out : List Instr} (placed : ∀ routine ∈ main :: others,
      targetOffset? blocks routine.decl.name = some routine.body.offset)
    (patches : List.Forall₂ (Patches blocks)
      (preamble main.decl.name (others.map (·.decl.name))) out) :
    out = startCode main.body.offset (others.map (·.body.offset)) := by
  have closure : ∀ routine ∈ main :: others, ∀ {comment : Option String} {result : Instr},
      Patches blocks ⟨.ldf, [.name routine.decl.name], comment⟩ result →
      result = .ldfOffset routine.body.offset := by
    intro routine member comment result patched
    obtain ⟨position, found, rfl⟩ := patched.target_of_closure
    rw [placed routine member] at found
    cases found
    rfl
  -- both shapes end in the closure of the entry function, its application and `RTN`
  have last : ∀ {instr : Instr} {outs : List Instr}, instr.opcode.takesBlocks = false →
      List.Forall₂ (Patches blocks)
        [(Instr.ldf main.decl.name).commented ("load " ++ main.decl.name), instr, .plain .rtn] outs →
      outs = [.ldfOffset main.body.offset, instr.uncommented, .plain .rtn] := by
    intro instr outs noBlocks three
    obtain ⟨first, afterFirst, isFirst, two, rfl⟩ := List.forall₂_cons_left_iff.mp three
    obtain ⟨second, afterSecond, isSecond, one, rfl⟩ := List.forall₂_cons_left_iff.mp two
    obtain ⟨third, nothing, isThird, none, rfl⟩ := List.forall₂_cons_left_iff.mp one
    cases none
    rw [closure main List.mem_cons_self isFirst, isSecond.eq_uncommented noBlocks,
      isThird.eq_uncommented rfl]
    rfl
  cases others with
  | nil => exact last rfl patches
  | cons other rest =>
    obtain ⟨opened, afterOpened, isOpened, ofRest, rfl⟩ := List.forall₂_cons_left_iff.mp patches
    obtain ⟨closures, ending, rfl, ofClosures, ofEnding⟩ := forall₂_append ofRest
    rw [List.map_map, List.forall₂_map_left_iff] at ofClosures
    have loaded : closures.map id = (other :: rest).map fun routine => .ldfOffset routine.body.offset :=
      map_eq_map_of_forall₂
        (forall₂_imp_of_mem ofClosures fun routine member result isResult =>
          closure routine (List.mem_cons_of_mem _ member) isResult)
        fun routine result isResult => isResult
    rw [List.map_id] at loaded
    rw [last rfl ofEnding, isOpened.eq_uncommented rfl, loaded]
    simp [startCode, Instr.dum, Instr.rap, Instr.uncommented, Instr.commented]

theorem Image.of_compile {options : Options} {program : Program} {listing : Listing}
    (dotFree : program.DotFree) (compiled : compile options program = .ok listing) :
    ∃ main others depth, Image options program listing main others depth := by
  obtain ⟨object, generated, isLinked⟩ := bind_eq_ok.mp compiled
  obtain ⟨functions, id, entry, table, linked⟩ := Linked.of_link dotFree generated isLinked
  obtain ⟨depth, settled⟩ := linked.settles
  obtain ⟨segments, split, parts⟩ := forall₂_flatMap settled
  obtain ⟨routines, decls, blocks, realised⟩ := linked.exists_routines parts
    (fun function member => linked.order_perm.mem_iff.mp (List.mem_map_of_mem (f := Prod.snd) member))
    (by rw [← split]; exact List.Subset.refl _)
  rw [List.map_cons, CompiledFunction.map_decl_others, linked.assembled.decls] at decls
  -- linking begins with the entry function
  obtain ⟨main, others, rfl, isMain, otherDecls⟩ := List.map_eq_cons_iff.mp decls
  have isEntry : main.decl.name = options.entry := by rw [isMain, linked.isEntry]
  have isBlock : ∀ routine ∈ main :: others, routine.body ∈ listing.blocks := by
    intro routine member
    rw [split, ← blocks]
    exact List.mem_flatMap.mpr ⟨routine, member, List.mem_cons_self⟩
  have frames : framesOf program.functions entry.decl = framesOf program.functions main.decl := by
    rw [isMain]
  refine ⟨main, others, depth, ?_, isEntry, otherDecls, split.trans blocks.symm, ?_, ?_,
    linked.assembled.nodup, linked.nodup_names, linked.contiguous⟩
  · rw [isMain]
    exact linked.main_mem
  · rw [← frames]
    exact realised
  · refine startCode_of_patches listing.blocks (fun routine member => ?_) ?_
    · exact (targetOffset?_eq_some_iff linked.nodup_names).mpr
        ⟨routine.body, isBlock routine member, (realised routine member).name, rfl⟩
    · have names : others.map (·.decl.name) = declarations program.functions options.entry := by
        rw [declarations, ← otherDecls, List.map_map]
        rfl
      rw [names, isEntry, List.forall₂_map_right_iff]
      exact (mapM_eq_ok.mp linked.preamble).imp fun _ _ => patches_of_patch

end Secd
