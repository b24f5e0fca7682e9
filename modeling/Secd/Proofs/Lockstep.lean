import Secd.Proofs.Passes
import Secd.Proofs.Variants

namespace Secd

open Results

/-! # Linking two programs in step

Two generated programs are in step (`InStep`) if they have the same constants and the same functions
in the same order, with as many arms, and if the code of corresponding blocks differs at most in
runs of instructions that are resolved to the same. Then each step of linking does the same to both
or refuses both: names mean the same at corresponding places (`Site.Parallel`), so that what was as
long stays as long, the blocks get the same offsets, and these are all that is left of the names of
blocks. So either both programs are linked, to the same code, or none is (`InStep.agree_link`).
-/

/-! ## Instructions -/

/-- The same instruction up to its comment, or one that enters corresponding blocks. -/
inductive Instr.Matches (paired : String → String → Prop) : Instr → Instr → Prop where
  | same {instr other : Instr} (noBlocks : instr.opcode.takesBlocks = false)
      (bare : other.uncommented = instr.uncommented) : Matches paired instr other
  | targets {opcode : Opcode} (names others : List String) {comment otherComment : Option String}
      (takesBlocks : opcode.takesBlocks) (arePaired : List.Forall₂ paired names others) :
    Matches paired ⟨opcode, names.map .name, comment⟩ ⟨opcode, others.map .name, otherComment⟩

namespace Instr.Matches

variable {paired : String → String → Prop} {instr other : Instr}

/-- Comments do not matter. -/
theorem recommented (isMatch : Matches paired instr other) {copy otherCopy : Instr}
    (same : copy.uncommented = instr.uncommented)
    (otherSame : otherCopy.uncommented = other.uncommented) : Matches paired copy otherCopy := by
  obtain ⟨opcode, args, comment⟩ := copy
  obtain ⟨otherOpcode, otherArgs, otherComment⟩ := otherCopy
  obtain ⟨rfl, rfl, -⟩ := Instr.mk.inj same
  obtain ⟨rfl, rfl, -⟩ := Instr.mk.inj otherSame
  cases isMatch with
  | same noBlocks bare => exact .same noBlocks bare
  | targets names others takesBlocks arePaired => exact .targets names others takesBlocks arePaired

/-- Where corresponding blocks have the same offsets, both become the same instruction. -/
theorem agree_patch (isMatch : Matches paired instr other) {options : Options}
    {layout otherLayout : List PlacedBlock}
    (offsets : ∀ name otherName, paired name otherName →
      targetOffset? otherLayout otherName = targetOffset? layout name) (block otherBlock : String) :
    Agree (fun result otherResult => otherResult.uncommented = result.uncommented)
      (instr.patch options layout block) (other.patch options otherLayout otherBlock) := by
  have args : Agree Eq (instr.patchArgs layout block) (other.patchArgs otherLayout otherBlock) := by
    cases isMatch with
    | same noBlocks bare =>
      obtain ⟨sameOpcode, sameArgs, -⟩ := Instr.mk.inj bare
      rw [patchArgs, patchArgs, sameOpcode, sameArgs, noBlocks]
      exact .ok rfl
    | targets names others takesBlocks arePaired =>
      simp only [patchArgs, takesBlocks, if_true, List.mapM_map]
      refine (Agree.mapM (R := Eq) (arePaired.imp fun name otherName isPair => ?_)).imp ?_
      · simp only [Function.comp_apply, Operand.patch, offsets name otherName isPair]
        cases targetOffset? layout name with
        | none => exact .error _ _
        | some position => exact .ok rfl
      · intro results otherResults _ _ same
        exact List.forall₂_eq_eq_eq ▸ same
  have sameOpcode : other.opcode = instr.opcode := by
    cases isMatch with
    | same _ bare => exact (Instr.mk.inj bare).1
    | targets _ _ _ _ => rfl
  refine args.bind fun result _ same => .ok ?_
  subst same
  simp only [uncommented, sameOpcode]

end Instr.Matches

/-! ## Resolving names -/

namespace Site

/-- Two places where names mean the same. -/
structure Parallel (called : CallSite → Prop) (paired : String → String → Prop)
    (site other : Site) : Prop where
  constants : other.constants = site.constants
  scope : other.scope = site.scope
  functions : ∀ name, other.program.function? name = site.program.function? name
  straight : ∀ name body, site.constants.body? name = some body →
    ∀ instr ∈ body, Straight called instr
  /-- What is called and is no function names no block in either program, or blocks that
  correspond. -/
  calls : ∀ call, called call → site.program.function? call.func = none →
    paired call.func call.func

namespace Parallel

variable {called : CallSite → Prop} {paired : String → String → Prop} {site other : Site}

theorem agree_resolveClosure (parallel : site.Parallel called paired other) {instr otherInstr : Instr}
    (straight : Straight called instr) (bare : otherInstr.uncommented = instr.uncommented) :
    Agree (Instr.Matches paired) (site.resolveClosure instr) (other.resolveClosure otherInstr) := by
  by_cases isClosure : instr.opcode = .ldf
  · obtain ⟨call, comment, isCalled, rfl⟩ := straight.eq_of_closure isClosure
    obtain ⟨opcode, args, otherComment⟩ := otherInstr
    obtain ⟨rfl, rfl, -⟩ := Instr.mk.inj bare
    simp only [resolveClosure, Instr.symbol?, parallel.scope, parallel.functions]
    cases site.scope.address? call.func with
    | some address => exact .ok (.same rfl rfl)
    | none =>
      by_cases isFunction : (site.program.function? call.func).isSome
      · simp only [if_pos isFunction]
        exact .error _ _
      · simp only [if_neg isFunction]
        have isPair := parallel.calls call isCalled (by simpa using isFunction)
        exact .ok (.targets [call.func] [call.func] rfl (.cons isPair .nil))
  · have noBlocks : instr.opcode.takesBlocks = false := by
      cases straight with
      | closure _ _ => exact absurd rfl isClosure
      | @operation opcode computes comment => cases opcode <;> trivial
      | _ => rfl
    have otherNoBlocks : otherInstr.opcode.takesBlocks = false := by
      rw [(Instr.mk.inj bare).1]
      exact noBlocks
    rw [site.resolveClosure_of_takesBlocks noBlocks,
      other.resolveClosure_of_takesBlocks otherNoBlocks]
    exact .ok (.same noBlocks bare)

/-- The code of a constant, with its comments changed or not. -/
theorem agree_closures (parallel : site.Parallel called paired other) {code otherCode : List Instr}
    (straight : ∀ instr ∈ code, Straight called instr)
    (bare : List.Forall₂ (fun instr otherInstr => otherInstr.uncommented = instr.uncommented) code
      otherCode) :
    Agree (List.Forall₂ (Instr.Matches paired)) (code.mapM site.resolveClosure)
      (otherCode.mapM other.resolveClosure) :=
  Agree.mapM (forall₂_imp_of_mem bare fun instr member _ same =>
    parallel.agree_resolveClosure (straight instr member) same)

/-- An instruction that stands in both programs. -/
theorem agree_resolve (parallel : site.Parallel called paired other) {arm : String → Prop}
    {instr : Instr} (ofBlock : BlockInstr called arm instr) (noBranch : instr.opcode ≠ .sel) :
    Agree (List.Forall₂ (Instr.Matches paired)) (site.resolve instr) (other.resolve instr) := by
  cases refers : instr.reference? with
  | none =>
    have noBlocks : instr.opcode.takesBlocks = false := by
      cases ofBlock with
      | straight isStraight => exact isStraight.takesBlocks_eq_false refers
      | branch _ _ _ => exact absurd rfl noBranch
      | _ => rfl
    simp only [resolve, refers]
    exact .ok (.cons (.same noBlocks rfl) .nil)
  | some name =>
    simp only [resolve, refers, parallel.scope, parallel.constants]
    cases site.scope.address? name with
    | some address => exact .ok (.cons (.same rfl rfl) .nil)
    | none =>
      cases known : site.constants.body? name with
      | some body =>
        refine (parallel.agree_closures (parallel.straight name body known)
          (List.forall₂_same.mpr fun _ _ => rfl)).bind fun _ _ areMatches => .ok ?_
        exact List.rel_map (fun _ _ isMatch => isMatch.recommented rfl rfl) areMatches
      | none =>
        by_cases isClosure : instr.opcode = .ldf
        · simp only [if_pos isClosure]
          exact (parallel.agree_resolveClosure (ofBlock.straight_of_reference? refers) rfl).bind
            fun _ _ isMatch => .ok (.cons isMatch .nil)
        · simp only [if_neg isClosure]
          exact .error _ _

/-- The code of corresponding blocks, if this is true of the code that is exchanged. -/
theorem agree_resolveAll (parallel : site.Parallel called paired other) {arm : String → Prop}
    {exchanged : List Instr → List Instr → Prop}
    (agree : ∀ code otherCode, exchanged code otherCode →
      Agree (List.Forall₂ (Instr.Matches paired)) (site.resolveAll code) (other.resolveAll otherCode))
    {code otherCode : List Instr} (variation : Variant exchanged paired code otherCode) :
    (∀ instr ∈ code, BlockInstr called arm instr) →
    Agree (List.Forall₂ (Instr.Matches paired)) (site.resolveAll code)
      (other.resolveAll otherCode) := by
  -- whatever a part of the code is resolved to, the rest follows it
  have step : ∀ (first second : List Instr) {rest otherRest : List Instr},
      Agree (List.Forall₂ (Instr.Matches paired)) (site.resolveAll first)
        (other.resolveAll second) →
      Agree (List.Forall₂ (Instr.Matches paired)) (site.resolveAll rest)
        (other.resolveAll otherRest) →
      Agree (List.Forall₂ (Instr.Matches paired)) (site.resolveAll (first ++ rest))
        (other.resolveAll (second ++ otherRest)) := by
    intro first second rest otherRest ofFirst ofRest
    rw [resolveAll_append, resolveAll_append]
    exact ofFirst.bind fun _ _ head => ofRest.bind fun _ _ tail => .ok (List.rel_append head tail)
  induction variation with
  | nil => exact fun _ => .ok .nil
  | @same instr _ _ noBranch _ ih =>
    intro ofBlock
    refine step [instr] [instr] ?_
      (ih fun other member => ofBlock other (List.mem_cons_of_mem _ member))
    rw [resolveAll_singleton, resolveAll_singleton]
    exact parallel.agree_resolve (ofBlock instr List.mem_cons_self) noBranch
  | exchange isExchanged _ ih =>
    intro ofBlock
    exact step _ _ (agree _ _ isExchanged)
      (ih fun other member => ofBlock other (List.mem_append_right _ member))
  | @branch thenName otherThen elseName otherElse comment otherComment _ _ thenPaired elsePaired _ ih =>
    intro ofBlock
    refine step [⟨.sel, [.name thenName, .name elseName], comment⟩]
      [⟨.sel, [.name otherThen, .name otherElse], otherComment⟩] ?_
      (ih fun other member => ofBlock other (List.mem_cons_of_mem _ member))
    rw [resolveAll_singleton, resolveAll_singleton]
    exact .ok (.cons (.targets [thenName, elseName] [otherThen, otherElse] rfl
      (.cons thenPaired (.cons elsePaired .nil))) .nil)

end Parallel

end Site

/-! ## Placing and patching -/

/-- The same name, or names of two arms, which have dots in them. -/
def SameName (name other : String) : Prop := other = name ∨ ¬ DotFree name ∧ ¬ DotFree other

/-- The same code at the same place; only arms may have different names. -/
structure PlacedBlock.SameCode (block other : PlacedBlock) : Prop where
  offset : other.offset = block.offset
  instrs : other.instrs.map Instr.uncommented = block.instrs.map Instr.uncommented
  name : SameName block.name other.name

/-- The same preamble, and block by block the same code. -/
structure Listing.SameCode (listing other : Listing) : Prop where
  name : other.name = listing.name
  preamble : other.preamble = listing.preamble
  blocks : List.Forall₂ PlacedBlock.SameCode listing.blocks other.blocks

/-- Names of blocks at the same place, or of no blocks. -/
def Corresponds (names otherNames : List String) (name otherName : String) : Prop :=
  (name, otherName) ∈ names.zip otherNames ∨ name ∉ names ∧ otherName ∉ otherNames

/-- Blocks whose names are resolved to the same. -/
structure LooseBlock.Matches (paired : String → String → Prop) (block other : LooseBlock) :
    Prop where
  name : SameName block.name other.name
  instrs : List.Forall₂ (Instr.Matches paired) block.instrs other.instrs

/-- Blocks that are as long as each other are placed at the same offsets. -/
theorem forall₂_placeBlocks {R : LooseBlock → LooseBlock → Prop} {loose others : List LooseBlock}
    (lengths : ∀ block other, R block other → block.instrs.length = other.instrs.length)
    (related : List.Forall₂ R loose others) : ∀ start : Nat,
    List.Forall₂ (fun block other => other.offset = block.offset ∧
      R ⟨block.name, block.instrs⟩ ⟨other.name, other.instrs⟩)
      (placeBlocks start loose) (placeBlocks start others) := by
  induction related with
  | nil => exact fun _ => .nil
  | cons head _ ih =>
    intro start
    rw [placeBlocks, placeBlocks, ← lengths _ _ head]
    exact .cons ⟨rfl, head⟩ (ih _)

/-- Blocks at the same place of two lists have the same offset. -/
theorem targetOffset?_eq_of_mem_zip {blocks others : List PlacedBlock}
    (offsets : List.Forall₂ (fun block other => other.offset = block.offset) blocks others)
    (nodup : (blocks.map PlacedBlock.name).Nodup) (otherNodup : (others.map PlacedBlock.name).Nodup)
    {name otherName : String}
    (isPair : (name, otherName) ∈
      (blocks.map PlacedBlock.name).zip (others.map PlacedBlock.name)) :
    targetOffset? others otherName = targetOffset? blocks name := by
  rw [List.zip_map, List.mem_map] at isPair
  obtain ⟨⟨block, other⟩, inBoth, same⟩ := isPair
  obtain ⟨rfl, rfl⟩ := Prod.mk.inj same
  obtain ⟨isBlock, isOther⟩ := List.of_mem_zip inBoth
  have sameOffset := (List.forall₂_iff_zip.mp offsets).2 inBoth
  rw [(targetOffset?_eq_some_iff nodup).mpr ⟨block, isBlock, rfl, rfl⟩,
    (targetOffset?_eq_some_iff otherNodup).mpr ⟨other, isOther, rfl, sameOffset⟩]

/-- Where blocks are as long as each other, corresponding names mean the same offset. -/
theorem targetOffset?_placeBlocks {paired : String → String → Prop} {loose others : List LooseBlock}
    (lengths : List.Forall₂ (fun block other => block.instrs.length = other.instrs.length) loose
      others)
    (nodup : (loose.map LooseBlock.name).Nodup) (otherNodup : (others.map LooseBlock.name).Nodup)
    (pairs : ∀ name otherName, paired name otherName →
      Corresponds (loose.map LooseBlock.name) (others.map LooseBlock.name) name otherName)
    (start : Nat) (name otherName : String) (isPair : paired name otherName) :
    targetOffset? (placeBlocks start others) otherName =
      targetOffset? (placeBlocks start loose) name := by
  have placed := forall₂_placeBlocks (fun _ _ same => same) lengths start
  rcases pairs name otherName isPair with inBoth | ⟨inNone, otherInNone⟩
  · refine targetOffset?_eq_of_mem_zip (placed.imp fun _ _ both => both.1) ?_ ?_ ?_ <;>
      simpa only [map_name_placeBlocks]
  · rw [targetOffset?_eq_none_iff.mpr (by simpa only [map_name_placeBlocks]),
      targetOffset?_eq_none_iff.mpr (by simpa only [map_name_placeBlocks])]

theorem Instr.patch_eq_of_targets {instr : Instr} {options : Options}
    {layout otherLayout : List PlacedBlock}
    (offsets : ∀ name, .name name ∈ instr.args →
      targetOffset? otherLayout name = targetOffset? layout name) (block : String) :
    instr.patch options otherLayout block = instr.patch options layout block := by
  have operands : instr.args.mapM (Operand.patch otherLayout block) =
      instr.args.mapM (Operand.patch layout block) := by
    refine mapM_congr fun operand member => ?_
    cases operand with
    | name target => rw [Operand.patch, Operand.patch, offsets target member]
    | _ => rfl
  rw [patch, patch, patchArgs, patchArgs, operands]

/-- The preamble mentions the functions. -/
theorem mem_of_mem_preamble {entry : String} {declared : List String} {instr : Instr}
    (member : instr ∈ preamble entry declared) {name : String} (mentioned : .name name ∈ instr.args) :
    name ∈ entry :: declared := by
  unfold preamble at member
  split at member
  · simp only [List.mem_cons, List.not_mem_nil, or_false] at member
    rcases member with rfl | rfl | rfl
    · simp_all [Instr.commented, Instr.ldf]
    · simp [Instr.ap, Operand.count] at mentioned
    · simp [Instr.plain] at mentioned
  · simp only [List.mem_cons, List.cons_append, List.mem_append, List.mem_map, List.not_mem_nil,
      or_false] at member
    rcases member with rfl | ⟨other, isDeclared, rfl⟩ | rfl | rfl | rfl
    · simp [Instr.commented, Instr.dum, Operand.count] at mentioned
    · simp_all [Instr.commented, Instr.ldf]
    · simp_all [Instr.commented, Instr.ldf]
    · simp [Instr.rap, Operand.count] at mentioned
    · simp [Instr.plain] at mentioned

/-- What corresponds before it is placed is the same afterwards. -/
theorem ObjectProgram.agree_finish {paired : String → String → Prop}
    {loose others : List LooseBlock}
    (related : List.Forall₂ (LooseBlock.Matches paired) loose others)
    (nodup : (loose.map LooseBlock.name).Nodup) (otherNodup : (others.map LooseBlock.name).Nodup)
    (pairs : ∀ name otherName, paired name otherName →
      Corresponds (loose.map LooseBlock.name) (others.map LooseBlock.name) name otherName)
    {options : Options} {declared : List String}
    (functions : ∀ name ∈ options.entry :: declared, paired name name) (name : String) :
    Agree Listing.SameCode (finish options name declared loose)
      (finish options name declared others) := by
  have lengths : ∀ block other, LooseBlock.Matches paired block other →
      block.instrs.length = other.instrs.length := fun _ _ areMatches => areMatches.instrs.length_eq
  have placed := forall₂_placeBlocks lengths related (Secd.preamble options.entry declared).length
  -- what is resolved to the same is as long, so corresponding blocks have the same offsets
  have offsets := targetOffset?_placeBlocks (related.imp lengths) nodup otherNodup pairs
    (Secd.preamble options.entry declared).length
  have start : (Secd.preamble options.entry declared).mapM (Instr.patch options
      (placeBlocks (Secd.preamble options.entry declared).length others) "preamble") =
      (Secd.preamble options.entry declared).mapM (Instr.patch options
        (placeBlocks (Secd.preamble options.entry declared).length loose) "preamble") :=
    mapM_congr fun instr member => Instr.patch_eq_of_targets (fun name mentioned =>
      offsets name name (functions name (mem_of_mem_preamble member mentioned))) "preamble"
  unfold finish
  simp only [start]
  refine Agree.bind_same _ fun first => Agree.bind (R := List.Forall₂ PlacedBlock.SameCode) ?_
    fun _ _ blocks => .ok ⟨rfl, rfl, blocks⟩
  refine Agree.mapM (placed.imp fun block other ⟨sameOffset, areMatches⟩ => ?_)
  refine (Agree.mapM (areMatches.instrs.imp fun _ _ isMatch =>
    isMatch.agree_patch offsets _ _)).bind fun _ _ bare => .ok ⟨sameOffset, ?_, areMatches.name⟩
  exact map_eq_map_of_forall₂ bare fun _ _ same => same

/-! ## Functions -/

/-- Functions of one signature whose blocks correspond to each other; `exchanged` tells which code
may be exchanged in a function. -/
structure CompiledFunction.Parallel (exchanged : FunctionDecl → List Instr → List Instr → Prop)
    (function other : CompiledFunction) : Prop where
  name : other.decl.name = function.decl.name
  params : other.decl.params = function.decl.params
  code : function.code.Varies (exchanged function.decl) other.code

namespace CompiledFunction

/-- The same for functions with their numbers. -/
def ParallelAt (exchanged : FunctionDecl → List Instr → List Instr → Prop)
    (entry other : Nat × CompiledFunction) : Prop :=
  other.1 = entry.1 ∧ entry.2.Parallel exchanged other.2

variable {exchanged : FunctionDecl → List Instr → List Instr → Prop}
  {functions others : List CompiledFunction}

theorem Parallel.length_names {function other : CompiledFunction}
    (parallel : function.Parallel exchanged other) :
    function.names.length = other.names.length := by
  simp [names, parallel.code.size_eq]

/-- Corresponding functions have the same numbers. -/
theorem forall₂_number (parallel : List.Forall₂ (Parallel exchanged) functions others) :
    ∀ start : Nat, List.Forall₂ (ParallelAt exchanged) (number start functions)
      (number start others) := by
  induction parallel with
  | nil => exact fun _ => .nil
  | cons head _ ih =>
    intro start
    rw [number, number, head.code.size_eq]
    exact .cons ⟨rfl, head⟩ (ih _)

theorem forall₂_others (parallel : List.Forall₂ (Parallel exchanged) functions others)
    (entry : String) : List.Forall₂ (ParallelAt exchanged) (CompiledFunction.others entry functions)
      (CompiledFunction.others entry others) := by
  refine List.rel_filter ?_ (forall₂_number parallel 0)
  rintro first second ⟨-, areParallel⟩
  simp [areParallel.name]

theorem declarations_eq (parallel : List.Forall₂ (Parallel exchanged) functions others)
    (entry : String) :
    declarations (others.map decl) entry = declarations (functions.map decl) entry := by
  have filtered : ∀ decls : List FunctionDecl,
      declarations decls entry = (decls.map FunctionDecl.name).filter (· ≠ entry) := by
    intro decls
    rw [declarations, functionsExcept, List.filter_map]
    rfl
  have names : (others.map decl).map FunctionDecl.name =
      (functions.map decl).map FunctionDecl.name := by
    rw [List.map_map, List.map_map]
    exact map_eq_map_of_forall₂ parallel fun _ _ areParallel => areParallel.name
  rw [filtered, filtered, names]

/-- Where functions with as many blocks stand one after the other, their blocks are at the same
places. -/
theorem forall₂_zip_names {R : Nat × CompiledFunction → Nat × CompiledFunction → Prop}
    (lengths : ∀ entry other, R entry other → entry.2.names.length = other.2.names.length)
    {order otherOrder : List (Nat × CompiledFunction)} (related : List.Forall₂ R order otherOrder) :
    List.Forall₂ (fun entry otherEntry => R entry otherEntry ∧
      ∀ pair ∈ entry.2.names.zip otherEntry.2.names, pair ∈
        ((order.map Prod.snd).flatMap names).zip ((otherOrder.map Prod.snd).flatMap names))
      order otherOrder := by
  induction related with
  | nil => exact .nil
  | cons head _ ih =>
    simp only [List.map_cons, List.flatMap_cons, List.zip_append (lengths _ _ head)]
    refine .cons ⟨head, fun pair member => List.mem_append_left _ member⟩ (ih.imp ?_)
    exact fun _ _ both => ⟨both.1, fun pair member => List.mem_append_right _ (both.2 pair member)⟩

theorem ParallelAt.length_names {entry other : Nat × CompiledFunction}
    (parallel : ParallelAt exchanged entry other) :
    entry.2.names.length = other.2.names.length :=
  parallel.2.length_names

/-- The same names are in reach. -/
theorem framesOf_eq (parallel : List.Forall₂ (Parallel exchanged) functions others)
    {main otherMain function other : CompiledFunction}
    (sameMain : main.Parallel exchanged otherMain) (same : function.Parallel exchanged other) :
    framesOf (others.map decl) otherMain.decl other.decl =
      framesOf (functions.map decl) main.decl function.decl := by
  simp only [framesOf, sameMain.name, sameMain.params, same.name, same.params,
    declarations_eq parallel]

/-- Arms have dots in their names. -/
theorem not_dotFree_of_mem_names {options : Options} {function : CompiledFunction}
    (compiled : function.decl.code options = .ok function.code) {name : String}
    (member : name ∈ function.code.arms.names) : ¬ DotFree name := by
  intro dotFree
  have isFunction := eq_of_under_of_dotFree dotFree
    (under_of_mem_names compiled (List.mem_cons_of_mem _ member))
  exact (List.nodup_cons.mp (nodup_names compiled)).1 (isFunction ▸ member)

/-- Block by block the same name and varied code. -/
theorem Parallel.forall₂_blocks {function other : CompiledFunction}
    (parallel : function.Parallel exchanged other) {options : Options}
    (compiled : function.decl.code options = .ok function.code)
    (otherCompiled : other.decl.code options = .ok other.code) {paired : String → String → Prop}
    (pairs : ∀ pair ∈ function.names.zip other.names, paired pair.1 pair.2) (id otherId : Nat) :
    List.Forall₂ (fun block otherBlock => SameName block.name otherBlock.name ∧
        Variant (exchanged function.decl) paired block.instrs otherBlock.instrs)
      (function.blocks id) (other.blocks otherId) := by
  obtain ⟨ofBody, ofArms⟩ := parallel.code paired
    fun pair member => pairs pair (List.mem_cons_of_mem _ member)
  have pieces : List.Forall₂ (fun piece otherPiece => SameName piece.1 otherPiece.1 ∧
      Variant (exchanged function.decl) paired piece.2 otherPiece.2)
      (function.code.pieces function.decl.name) (other.code.pieces other.decl.name) := by
    refine .cons ⟨.inl parallel.name, ofBody⟩ (List.forall₂_iff_zip.mpr ⟨ofArms.length_eq, ?_⟩)
    intro piece otherPiece inBoth
    obtain ⟨isPiece, isOtherPiece⟩ := List.of_mem_zip inBoth
    refine ⟨.inr ⟨not_dotFree_of_mem_names compiled ?_, not_dotFree_of_mem_names otherCompiled ?_⟩,
      (List.forall₂_iff_zip.mp ofArms).2 inBoth⟩
    · exact Forest.map_fst_pieces _ ▸ List.mem_map_of_mem isPiece
    · exact Forest.map_fst_pieces _ ▸ List.mem_map_of_mem isOtherPiece
  rwa [← function.map_blocks id, ← other.map_blocks otherId, List.forall₂_map_left_iff,
    List.forall₂_map_right_iff] at pieces

end CompiledFunction

/-! ## Both programs -/

/-- Code that is exchanged in a function is resolved to corresponding code. -/
def Exchanges (options : Options) (program : Program) (object : ObjectProgram)
    (exchanged : FunctionDecl → List Instr → List Instr → Prop) : Prop :=
  ∀ main ∈ program.functions, main.name = options.entry → ∀ decl ∈ program.functions,
    ∀ code otherCode, exchanged decl code otherCode →
    ∀ (paired : String → String → Prop) (site other : Site),
      site.Parallel (· ∈ program.calls) paired other →
      object.constants.expandAll = .ok site.constants →
      site.scope = framesOf program.functions main decl →
      Agree (List.Forall₂ (Instr.Matches paired)) (site.resolveAll code) (other.resolveAll otherCode)

/-- Generated programs with the same constants whose functions correspond to each other. -/
structure InStep (options : Options) (exchanged : FunctionDecl → List Instr → List Instr → Prop)
    (program other : Program) (object otherObject : ObjectProgram)
    (functions others : List CompiledFunction) : Prop where
  assembled : Assembled options program.functions program.constants object functions
  otherAssembled : Assembled options other.functions other.constants otherObject others
  dotFree : program.DotFree
  name : otherObject.name = object.name
  constants : otherObject.constants = object.constants
  parallel : List.Forall₂ (CompiledFunction.Parallel exchanged) functions others
  exchanges : Exchanges options program object exchanged

theorem Assembled.exists_of_mem_declarations {options : Options} {sources : List FunctionDecl}
    {definitions : List (String × Expr)} {object : ObjectProgram}
    {functions : List CompiledFunction}
    (assembled : Assembled options sources definitions object functions) {main : CompiledFunction}
    {entry : String} (isEntry : main.decl.name = entry) {id : Nat} {name : String}
    (member : name ∈ entry :: declarations sources entry) :
    ∃ function ∈ (id, main) :: CompiledFunction.others entry functions,
      function.2.decl.name = name := by
  rcases List.mem_cons.mp member with rfl | isDeclared
  · exact ⟨(id, main), List.mem_cons_self, isEntry⟩
  · rw [← assembled.decls, declarations, ← CompiledFunction.map_decl_others, List.map_map]
      at isDeclared
    obtain ⟨function, isOther, named⟩ := List.mem_map.mp isDeclared
    exact ⟨function, List.mem_cons_of_mem _ isOther, named⟩

namespace InStep

variable {options : Options} {exchanged : FunctionDecl → List Instr → List Instr → Prop}
  {program other : Program} {object otherObject : ObjectProgram}
  {functions others : List CompiledFunction}

theorem otherDotFree (inStep : InStep options exchanged program other object otherObject functions
    others) : ∀ decl ∈ other.functions, DotFree decl.name := by
  intro decl isDecl
  rw [← inStep.otherAssembled.decls] at isDecl
  obtain ⟨otherFunction, isOther, rfl⟩ := List.mem_map.mp isDecl
  obtain ⟨function, isFunction, areParallel⟩ := exists_of_mem_right inStep.parallel isOther
  rw [areParallel.name]
  exact inStep.dotFree.functions _ (inStep.assembled.mem_sources isFunction)

theorem function?_eq (inStep : InStep options exchanged program other object otherObject functions
    others) (name : String) : otherObject.function? name = object.function? name := by
  have numbered := CompiledFunction.forall₂_number inStep.parallel 0
  refine Option.ext fun id => ?_
  rw [inStep.assembled.function?_eq_some_iff inStep.dotFree.functions,
    inStep.otherAssembled.function?_eq_some_iff inStep.otherDotFree]
  constructor
  · rintro ⟨otherFunction, isNumbered, rfl⟩
    obtain ⟨⟨_, function⟩, isFunction, sameNumber, areParallel⟩ :=
      exists_of_mem_right numbered isNumbered
    cases sameNumber
    exact ⟨function, isFunction, areParallel.name.symm⟩
  · rintro ⟨function, isNumbered, rfl⟩
    obtain ⟨⟨_, otherFunction⟩, isOther, sameNumber, areParallel⟩ :=
      exists_of_mem_left numbered isNumbered
    cases sameNumber
    exact ⟨otherFunction, isOther, areParallel.name⟩

/-- Names mean the same in corresponding functions. -/
theorem site_parallel (inStep : InStep options exchanged program other object otherObject functions
    others) {table : Constants} (expanded : object.constants.expandAll = .ok table)
    {names otherNames : List String}
    (isNames : ∀ name, name ∈ names → name ∈ functions.flatMap CompiledFunction.names)
    (isOtherNames : ∀ name, name ∈ otherNames → name ∈ others.flatMap CompiledFunction.names)
    (block otherBlock : String) (scope : Scope) :
    Site.Parallel (· ∈ program.calls) (Corresponds names otherNames)
      ⟨object, table, block, scope⟩ ⟨otherObject, table, otherBlock, scope⟩ where
  constants := rfl
  scope := rfl
  functions := inStep.function?_eq
  straight := inStep.assembled.straight_of_expandAll expanded
  calls := by
    intro call isCall noFunction
    have dotFree := inStep.dotFree.calls call isCall
    refine .inr ⟨fun member => ?_, fun member => ?_⟩
    · exact inStep.assembled.not_mem_names inStep.dotFree.functions dotFree noFunction
        (isNames _ member)
    · refine inStep.otherAssembled.not_mem_names inStep.otherDotFree dotFree ?_
        (isOtherNames _ member)
      rw [inStep.function?_eq]
      exact noFunction

/-- The blocks of corresponding functions. -/
theorem agree_function (inStep : InStep options exchanged program other object otherObject functions
    others) {table : Constants} (expanded : object.constants.expandAll = .ok table)
    {names otherNames : List String}
    (isNames : ∀ name, name ∈ names → name ∈ functions.flatMap CompiledFunction.names)
    (isOtherNames : ∀ name, name ∈ otherNames → name ∈ others.flatMap CompiledFunction.names)
    {main otherMain : CompiledFunction} (isMain : main ∈ functions)
    (isEntry : main.decl.name = options.entry) (sameMain : main.Parallel exchanged otherMain)
    {entry otherEntry : Nat × CompiledFunction} (isFunction : entry.2 ∈ functions)
    (isOther : otherEntry.2 ∈ others) (same : entry.2.Parallel exchanged otherEntry.2)
    (pairs : ∀ pair ∈ entry.2.names.zip otherEntry.2.names, pair ∈ names.zip otherNames) :
    List.Forall₂ (fun site otherSite => Agree (LooseBlock.Matches (Corresponds names otherNames))
        (object.resolveBlock table site) (otherObject.resolveBlock table otherSite))
      (CompiledFunction.sites program.functions main.decl entry)
      (CompiledFunction.sites other.functions otherMain.decl otherEntry) := by
  have sameFrames := CompiledFunction.framesOf_eq inStep.parallel sameMain same
  rw [inStep.assembled.decls, inStep.otherAssembled.decls] at sameFrames
  have corresponds : ∀ pair ∈ entry.2.names.zip otherEntry.2.names,
      Corresponds names otherNames pair.1 pair.2 := fun pair member => .inl (pairs pair member)
  have blocks := same.forall₂_blocks (inStep.assembled.code _ isFunction)
    (inStep.otherAssembled.code _ isOther) corresponds entry.1 otherEntry.1
  rw [CompiledFunction.sites, CompiledFunction.sites, List.forall₂_map_left_iff,
    List.forall₂_map_right_iff, sameFrames]
  refine forall₂_imp_of_mem blocks fun block isBlock otherBlock both => ?_
  obtain ⟨sameName, variation⟩ := both
  have parallel := inStep.site_parallel expanded isNames isOtherNames block.name otherBlock.name
    (framesOf program.functions main.decl entry.2.decl)
  refine (parallel.agree_resolveAll (fun code otherCode isExchanged => ?_) variation
    (inStep.assembled.blockInstr isFunction entry.1 block isBlock)).bind
    fun _ _ areMatches => .ok ⟨sameName, areMatches⟩
  exact inStep.exchanges main.decl (inStep.assembled.mem_sources isMain) isEntry entry.2.decl
    (inStep.assembled.mem_sources isFunction) code otherCode isExchanged _ _ _ parallel expanded rfl

/-- The blocks of all functions, in an order that goes through the functions of both programs. -/
theorem agree_blocks (inStep : InStep options exchanged program other object otherObject functions
    others) {table : Constants} (expanded : object.constants.expandAll = .ok table)
    {main otherMain : CompiledFunction} (isMain : main ∈ functions)
    (isEntry : main.decl.name = options.entry) (sameMain : main.Parallel exchanged otherMain)
    {order otherOrder : List (Nat × CompiledFunction)}
    (isOrder : (order.map Prod.snd).Perm functions)
    (isOtherOrder : (otherOrder.map Prod.snd).Perm others)
    (related : List.Forall₂ (CompiledFunction.ParallelAt exchanged) order otherOrder) :
    Agree (List.Forall₂ (LooseBlock.Matches (Corresponds
        ((order.map Prod.snd).flatMap CompiledFunction.names)
        ((otherOrder.map Prod.snd).flatMap CompiledFunction.names))))
      ((order.flatMap (CompiledFunction.sites program.functions main.decl)).mapM
        (object.resolveBlock table))
      ((otherOrder.flatMap (CompiledFunction.sites other.functions otherMain.decl)).mapM
        (otherObject.resolveBlock table)) := by
  have zipped := (CompiledFunction.forall₂_zip_names
    (fun _ _ => CompiledFunction.ParallelAt.length_names) related).imp
      fun _ _ both => And.intro both.1.2 both.2
  have members : List.Forall₂ (fun entry otherEntry => entry.2 ∈ functions ∧
      otherEntry.2 ∈ others ∧ entry.2.Parallel exchanged otherEntry.2 ∧
      ∀ pair ∈ entry.2.names.zip otherEntry.2.names, pair ∈
        ((order.map Prod.snd).flatMap CompiledFunction.names).zip
          ((otherOrder.map Prod.snd).flatMap CompiledFunction.names)) order otherOrder := by
    refine List.forall₂_iff_zip.mpr ⟨zipped.length_eq, fun {entry otherEntry} inBoth => ?_⟩
    obtain ⟨isEntry, isOtherEntry⟩ := List.of_mem_zip inBoth
    exact ⟨isOrder.mem_iff.mp (List.mem_map_of_mem isEntry),
      isOtherOrder.mem_iff.mp (List.mem_map_of_mem isOtherEntry),
      (List.forall₂_iff_zip.mp zipped).2 inBoth⟩
  refine Agree.mapM (List.rel_flatMap members ?_)
  rintro entry otherEntry ⟨isFunction, isOther, areParallel, pairs⟩
  exact inStep.agree_function expanded
    (fun name member => (isOrder.flatMap_right _).mem_iff.mp member)
    (fun name member => (isOtherOrder.flatMap_right _).mem_iff.mp member) isMain isEntry sameMain
    isFunction isOther areParallel pairs

theorem corresponds_of_mem {order otherOrder : List (Nat × CompiledFunction)}
    (related : List.Forall₂ (CompiledFunction.ParallelAt exchanged) order otherOrder)
    {entry : Nat × CompiledFunction} (isEntry : entry ∈ order) :
    Corresponds ((order.map Prod.snd).flatMap CompiledFunction.names)
      ((otherOrder.map Prod.snd).flatMap CompiledFunction.names) entry.2.decl.name
      entry.2.decl.name := by
  obtain ⟨otherEntry, -, areParallel, pairs⟩ :=
    exists_of_mem_left (CompiledFunction.forall₂_zip_names
      (fun _ _ => CompiledFunction.ParallelAt.length_names) related) isEntry
  refine .inl (pairs _ ?_)
  rw [CompiledFunction.names, CompiledFunction.names, List.zip_cons_cons, areParallel.2.name]
  exact List.mem_cons_self

theorem map_name_of_resolveBlock {object : ObjectProgram} {table : Constants}
    {functions : List FunctionDecl} {main : FunctionDecl} {order : List (Nat × CompiledFunction)}
    {loose : List LooseBlock}
    (resolved : (order.flatMap (CompiledFunction.sites functions main)).mapM
      (object.resolveBlock table) = .ok loose) :
    loose.map LooseBlock.name = (order.map Prod.snd).flatMap CompiledFunction.names := by
  rw [← CompiledFunction.map_name_sites functions main]
  refine map_eq_map_of_forall₂ (mapM_eq_ok.mp resolved) fun site block isBlock => ?_
  obtain ⟨instrs, -, rfl⟩ := by
    simpa only [ObjectProgram.resolveBlock, bind_eq_ok, pure_eq_ok] using isBlock
  rfl

/-- Programs that are in step are both linked to the same code, or both refused. -/
theorem agree_link (inStep : InStep options exchanged program other object otherObject functions
    others) : Agree Listing.SameCode (object.link options) (otherObject.link options) := by
  have sameEntry : otherObject.entry options.entry = object.entry options.entry := by
    simp only [ObjectProgram.entry, inStep.function?_eq]
  cases hasEntry : object.entry options.entry with
  | error error =>
    simp only [ObjectProgram.link, sameEntry, hasEntry]
    exact .error _ _
  | ok id =>
    obtain ⟨main, isMain, isEntry⟩ := inStep.assembled.exists_entry hasEntry
    obtain ⟨⟨_, otherMain⟩, isOtherMain, sameNumber, sameMain⟩ :=
      exists_of_mem_left (CompiledFunction.forall₂_number inStep.parallel 0) isMain
    cases sameNumber
    have isOtherEntry : otherMain.decl.name = options.entry := sameMain.name.trans isEntry
    have declared : declarations other.functions options.entry =
        declarations program.functions options.entry := by
      rw [← inStep.assembled.decls, ← inStep.otherAssembled.decls]
      exact CompiledFunction.declarations_eq inStep.parallel options.entry
    rw [inStep.assembled.link_eq hasEntry isMain isEntry,
      inStep.otherAssembled.link_eq (sameEntry.trans hasEntry) isOtherMain isOtherEntry,
      inStep.constants, inStep.name, declared]
    cases expanded : object.constants.expandAll with
    | error error => exact .error _ _
    | ok table =>
      have isOrder := inStep.assembled.map_snd_order_perm isMain isEntry
      have isOtherOrder := inStep.otherAssembled.map_snd_order_perm isOtherMain isOtherEntry
      have order : List.Forall₂ (CompiledFunction.ParallelAt exchanged)
          ((id, main) :: CompiledFunction.others options.entry functions)
          ((id, otherMain) :: CompiledFunction.others options.entry others) :=
        .cons ⟨rfl, sameMain⟩ (CompiledFunction.forall₂_others inStep.parallel options.entry)
      have blocks := inStep.agree_blocks expanded (CompiledFunction.mem_of_mem_number isMain) isEntry
        sameMain isOrder isOtherOrder order
      have nodup := inStep.assembled.nodup_names inStep.dotFree.functions isOrder
      have otherNodup := inStep.otherAssembled.nodup_names inStep.otherDotFree isOtherOrder
      -- both have their blocks; they are placed under names that are unique in either program
      refine blocks.bind_of_ok fun loose otherLoose isLoose isOtherLoose corresponding => ?_
      have names := map_name_of_resolveBlock isLoose
      have otherNames := map_name_of_resolveBlock isOtherLoose
      refine ObjectProgram.agree_finish corresponding (names ▸ nodup) (otherNames ▸ otherNodup)
        (fun _ _ isPair => by rwa [names, otherNames]) (fun name member => ?_) object.name
      obtain ⟨entry, inOrder, rfl⟩ := inStep.assembled.exists_of_mem_declarations isEntry member
      exact corresponds_of_mem order inOrder

end InStep

end Secd
