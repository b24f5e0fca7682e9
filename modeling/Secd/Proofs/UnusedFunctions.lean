import Secd.Proofs.Acceptance
import Secd.Proofs.Annotations
import Secd.Proofs.Conditionals

namespace Secd

open Results

/-! # Unused functions

A function is reported as unused when no symbolic load of a block or of a constant refers to it. The
loads of the listing come from another pass, after constants have been expanded into each other and
into blocks. Every instruction that this pass leaves in a block is traced back to where it comes
from (`Site.Traced`): a load of an address belongs to a name that some symbolic load refers to, and
a closure that is still there belongs to a name that is not in scope, which no function in the frame
of declarations can be. So nothing outside the preamble loads a function that is reported
(`unused_never_loaded`).
-/

/-! ## What is reported -/

namespace ObjectProgram

variable {object : ObjectProgram}

theorem refersWithin_of_block {block : Block} (isBlock : block ∈ object.blocks) :
    ∀ instr ∈ block.instrs, instr.RefersWithin (· ∈ object.references) := by
  intro instr member name refers
  refine List.mem_filterMap.mpr ⟨instr, List.mem_append_left _ ?_, refers⟩
  exact List.mem_flatMap.mpr ⟨block, isBlock, member⟩

theorem refersWithin_of_constant {constant : String} {body : List Instr}
    (hasBody : object.constants.body? constant = some body) :
    ∀ instr ∈ body, instr.RefersWithin (· ∈ object.references) := by
  intro instr member name refers
  obtain ⟨before, after, split, -⟩ := List.lookup_eq_some_iff.mp hasBody
  refine List.mem_filterMap.mpr ⟨instr, List.mem_append_right _ ?_, refers⟩
  exact List.mem_flatMap.mpr ⟨(constant, body), by simp [split], member⟩

end ObjectProgram

theorem Assembled.unusedFunctions_eq {options : Options} {sources : List FunctionDecl}
    {definitions : List (String × Expr)} {object : ObjectProgram}
    {functions : List CompiledFunction}
    (assembled : Assembled options sources definitions object functions) {id : Nat}
    (hasEntry : object.entry options.entry = .ok id) :
    object.unusedFunctions options.entry =
      .ok ((declarations sources options.entry).filter (· ∉ object.references)) := by
  obtain ⟨main, isMain, isEntry⟩ := assembled.exists_entry hasEntry
  simp only [ObjectProgram.unusedFunctions, hasEntry, ok_bind, assembled.others_eq isMain, isEntry,
    assembled.blockNames_eq]
  rfl

/-! ## Where instructions come from -/

/-- An instruction without a name is no load. -/
theorem Straight.noLoad {called : CallSite → Prop} {instr : Instr}
    (straight : Straight called instr) (noName : instr.reference? = none) :
    instr.opcode ≠ .ld ∧ instr.opcode ≠ .ldf := by
  cases straight with
  | load _ _ => cases noName
  | closure _ _ => cases noName
  | @operation opcode computes comment => cases opcode <;> simp_all [Opcode.isOperation]
  | _ => simp

theorem BlockInstr.noLoad {called : CallSite → Prop} {arm : String → Prop} {instr : Instr}
    (ofBlock : BlockInstr called arm instr) (noName : instr.reference? = none) :
    instr.opcode ≠ .ld ∧ instr.opcode ≠ .ldf := by
  cases ofBlock with
  | straight isStraight => exact isStraight.noLoad noName
  | _ => simp [Instr.plain]

namespace Site

/-- What an instruction of a block is once names are resolved: no load at all, the load of a name
that is referred to, or the closure of a name that is not in scope. -/
inductive Traced (site : Site) (referred : String → Prop) : Instr → Prop where
  | other {instr : Instr} (noLoad : instr.opcode ≠ .ld ∧ instr.opcode ≠ .ldf) :
    Traced site referred instr
  | load {instr : Instr} {name : String} {address : Address} (isReferred : referred name)
      (found : site.scope.address? name = some address)
      (loads : instr.uncommented = .ldAddress address) : Traced site referred instr
  | closure {name : String} (unbound : site.scope.address? name = none) (comment : Option String) :
    Traced site referred ⟨.ldf, [.name name], comment⟩

variable {site : Site} {referred : String → Prop} {called : CallSite → Prop} {instr : Instr}

theorem Traced.orCommented (traced : site.Traced referred instr) (comment : Option String) :
    site.Traced referred (instr.orCommented comment) := by
  cases traced with
  | other noLoad => exact .other noLoad
  | load isReferred found loads => exact .load isReferred found loads
  | closure unbound own => exact .closure unbound _

/-- An instruction of an expanded constant, or a closure in a block. -/
theorem traced_of_resolveClosure (straight : Straight called instr)
    (kept : instr.RefersWithin fun name => referred name ∧ instr.opcode = .ldf) {out : Instr}
    (resolved : site.resolveClosure instr = .ok out) : site.Traced referred out := by
  cases refers : instr.reference? with
  | none =>
    rw [resolveClosure_of_takesBlocks site (straight.takesBlocks_eq_false refers)] at resolved
    cases resolved
    exact .other (straight.noLoad refers)
  | some name =>
    obtain ⟨isReferred, isClosure⟩ := kept name refers
    obtain ⟨call, comment, -, rfl⟩ := straight.eq_of_closure isClosure
    cases refers
    simp only [resolveClosure, Instr.symbol?] at resolved
    cases found : site.scope.address? call.func with
    | some address =>
      simp only [found, Except.ok.injEq] at resolved
      subst resolved
      exact .load isReferred found rfl
    | none =>
      simp only [found] at resolved
      split at resolved
      · cases resolved
      · cases resolved
        exact .closure found comment

theorem traced_of_resolve {arm : String → Prop} (ofBlock : BlockInstr called arm instr)
    (ofInstr : instr.RefersWithin referred)
    (ofTable : ∀ name body, site.constants.body? name = some body → ∀ spliced ∈ body,
      Straight called spliced ∧
        spliced.RefersWithin fun read => referred read ∧ spliced.opcode = .ldf)
    {outs : List Instr} (resolved : site.resolve instr = .ok outs) :
    ∀ out ∈ outs, site.Traced referred out := by
  intro out member
  unfold resolve at resolved
  split at resolved
  · rename_i noName
    cases resolved
    rw [List.mem_singleton.mp member]
    exact .other (ofBlock.noLoad noName)
  · rename_i name refers
    split at resolved
    · rename_i address found
      cases resolved
      rw [List.mem_singleton.mp member]
      exact .load (ofInstr name refers) found rfl
    · split at resolved
      · rename_i body hasBody
        obtain ⟨closures, closuresOk, rfl⟩ := by
          simpa only [bind_eq_ok, pure_eq_ok] using resolved
        obtain ⟨closure, isClosure, rfl⟩ := List.mem_map.mp member
        obtain ⟨spliced, isSpliced, closed⟩ :=
          exists_of_mem_right (mapM_eq_ok.mp closuresOk) isClosure
        obtain ⟨straight, kept⟩ := ofTable name body hasBody spliced isSpliced
        exact (traced_of_resolveClosure straight kept closed).orCommented _
      · split at resolved
        · rename_i isClosure
          obtain ⟨closure, closed, rfl⟩ := by
            simpa only [bind_eq_ok, pure_eq_ok] using resolved
          rw [List.mem_singleton.mp member]
          exact traced_of_resolveClosure (ofBlock.straight_of_reference? refers)
            (fun name refers => ⟨ofInstr name refers, isClosure⟩) closed
        · cases resolved

theorem traced_of_resolveAll {arm : String → Prop} {instrs : List Instr}
    (ofBlock : ∀ instr ∈ instrs, BlockInstr called arm instr)
    (ofInstrs : ∀ instr ∈ instrs, instr.RefersWithin referred)
    (ofTable : ∀ name body, site.constants.body? name = some body → ∀ spliced ∈ body,
      Straight called spliced ∧
        spliced.RefersWithin fun read => referred read ∧ spliced.opcode = .ldf)
    {outs : List Instr} (resolved : site.resolveAll instrs = .ok outs) :
    ∀ out ∈ outs, site.Traced referred out := by
  obtain ⟨parts, partsOk, rfl⟩ := by
    simpa only [resolveAll, bind_eq_ok, pure_eq_ok] using resolved
  intro out member
  obtain ⟨part, isPart, inPart⟩ := List.mem_flatten.mp member
  obtain ⟨instr, isInstr, resolvedTo⟩ := exists_of_mem_right (mapM_eq_ok.mp partsOk) isPart
  exact traced_of_resolve (ofBlock instr isInstr) (ofInstrs instr isInstr) ofTable resolvedTo out
    inPart

end Site

/-- Closures that are left in expanded constants are of names that constants refer to. -/
theorem Assembled.referred_of_expandAll {options : Options} {program : Program}
    {object : ObjectProgram} {functions : List CompiledFunction}
    (assembled : Assembled options program.functions program.constants object functions)
    {table : Constants} (expanded : object.constants.expandAll = .ok table) :
    ∀ name body, table.body? name = some body → ∀ instr ∈ body,
      Straight (· ∈ program.calls) instr ∧
        instr.RefersWithin fun read => read ∈ object.references ∧ instr.opcode = .ldf := by
  intro name result known instr member
  refine ⟨assembled.straight_of_expandAll expanded name result known instr member, ?_⟩
  exact Constants.refersWithin_of_expandAll expanded
    (fun _ _ hasBody => ObjectProgram.refersWithin_of_constant hasBody) name result known instr
    member

/-! ## The blocks of a listing -/

namespace Joined

variable {options : Options} {program : Program} {object : ObjectProgram}
  {functions : List CompiledFunction} {id : Nat} {main : CompiledFunction} {table : Constants}
  {listing : Listing}

/-- Every block of a listing holds instructions: the last of them leaves it. -/
theorem instrs_ne_nil (joined : Joined options program object functions id main table listing) :
    ∀ block ∈ listing.blocks, block.instrs ≠ [] := by
  intro placed member
  obtain ⟨⟨scope, block⟩, isSite, -, middle, resolved, patched⟩ :=
    exists_of_mem_right joined.blocks member
  obtain ⟨-, -, isBlock, -⟩ :=
    (joined.assembled.mem_sites_iff joined.isMain joined.isEntry _).mp isSite
  obtain ⟨number, atNumber⟩ := List.mem_iff_getElem?.mp isBlock
  obtain ⟨-, -, -, -, ⟨code, instrs, -⟩, -⟩ := joined.assembled.exists_arms atNumber
  simp only at instrs
  rw [instrs, Site.resolveAll_append] at resolved
  obtain ⟨first, -, last, lastOk, rfl⟩ := by simpa only [bind_eq_ok, pure_eq_ok] using resolved
  have isLast : last ≠ [] := by
    rw [Site.resolveAll_singleton] at lastOk
    split at lastOk <;> cases lastOk <;> simp
  intro isEmpty
  have sameLength := (mapM_eq_ok.mp patched).length_eq
  simp_all

/-- Blocks are told apart by their offsets. -/
theorem eq_of_offset (joined : Joined options program object functions id main table listing)
    {first second : PlacedBlock} (isFirst : first ∈ listing.blocks)
    (isSecond : second ∈ listing.blocks) (sameOffset : first.offset = second.offset) :
    first = second := by
  have ofFirst := List.length_pos_iff.mpr (joined.instrs_ne_nil first isFirst)
  have ofSecond := List.length_pos_iff.mpr (joined.instrs_ne_nil second isSecond)
  exact joined.contiguous.eq_of_mem isFirst isSecond (Nat.le_refl _) (by omega) (by omega)
    (by omega)

/-- The places of blocks and the scopes in which they are linked belong to the same functions. -/
theorem forall₂_places (joined : Joined options program object functions id main table listing) :
    List.Forall₂ (fun place site => ∃ decl ∈ program.functions, decl.name = place.1 ∧
        site.1 = framesOf program.functions main.decl decl) (program.places options.entry)
      (((id, main) :: CompiledFunction.others options.entry functions).flatMap
        (CompiledFunction.sites program.functions main.decl)) := by
  rw [joined.places_eq]
  refine List.rel_flatMap (R := fun first second => first = second ∧
    first ∈ (id, main) :: CompiledFunction.others options.entry functions)
    (List.forall₂_same.mpr fun _ member => ⟨rfl, member⟩) ?_
  rintro function _ ⟨rfl, member⟩
  have isFunction : function.2 ∈ functions :=
    joined.order_perm.mem_iff.mp (List.mem_map_of_mem (f := Prod.snd) member)
  rw [CompiledFunction.keys, CompiledFunction.sites, List.forall₂_map_left_iff,
    List.forall₂_map_right_iff, List.forall₂_iff_zip]
  exact ⟨by simp, fun _ => ⟨function.2.decl, joined.assembled.mem_sources isFunction, rfl, rfl⟩⟩

/-- What is in a block was patched after its names had been resolved. -/
theorem traced (joined : Joined options program object functions id main table listing)
    {scope : Scope} {block : Block}
    (isSite : (scope, block) ∈ ((id, main) :: CompiledFunction.others options.entry
      functions).flatMap (CompiledFunction.sites program.functions main.decl))
    {placed : PlacedBlock} (links : LinksBlock options object table listing.blocks (scope, block)
      placed) :
    ∀ out ∈ placed.instrs, ∃ instr,
      Site.Traced ⟨object, table, block.name, scope⟩ (· ∈ object.references) instr ∧
        instr.patch options listing.blocks block.name = .ok out := by
  obtain ⟨-, middle, resolved, patched⟩ := links
  obtain ⟨-, -, isBlock, -⟩ :=
    (joined.assembled.mem_sites_iff joined.isMain joined.isEntry _).mp isSite
  intro out member
  obtain ⟨instr, isInstr, patchedTo⟩ := exists_of_mem_right (mapM_eq_ok.mp patched) member
  refine ⟨instr, ?_, patchedTo⟩
  exact Site.traced_of_resolveAll
    (joined.assembled.blockInstr_of_mem_sites joined.isMain joined.isEntry _ isSite)
    (ObjectProgram.refersWithin_of_block isBlock)
    (joined.assembled.referred_of_expandAll joined.expanded) resolved instr isInstr

end Joined

/-! ## Loads of functions -/

/-- An instruction of a block of `function` loads the closure of another function: from its slot in
the frame of declarations, which is nearest to the entry function and one frame further out for
every other one, or by making a closure of its block. -/
inductive Listing.LoadsFunction (listing : Listing) (entry : String) (declared : List String)
    (name function : String) (instr : Instr) : Prop where
  | near (isEntry : function = entry) (slot : instr.LoadsSlot 0 (declared.idxOf name))
  | far (isOther : function ≠ entry) (slot : instr.LoadsSlot 1 (declared.idxOf name))
  | closure {target : PlacedBlock} (isBlock : target ∈ listing.blocks) (named : target.name = name)
      (isClosure : instr.opcode = .ldf) (enters : .offset target.offset ∈ instr.args)

theorem Instr.LoadsSlot.unique {instr : Instr} {depth index otherDepth otherIndex : Nat}
    (loads : instr.LoadsSlot depth index) (also : instr.LoadsSlot otherDepth otherIndex) :
    depth = otherDepth ∧ index = otherIndex := by
  obtain ⟨-, frames, slot, args, isDepth, isIndex⟩ := loads
  obtain ⟨-, otherFrames, otherSlot, otherArgs, isOtherDepth, isOtherIndex⟩ := also
  rw [args] at otherArgs
  cases otherArgs
  omega

/-- The frame of declarations, seen from a function. -/
theorem getElem?_framesOf_declarations (functions : List FunctionDecl) (main decl : FunctionDecl) :
    (framesOf functions main decl)[if decl.name = main.name then 0 else 1]? =
      some (declarations functions main.name) := by
  unfold framesOf
  split <;> rfl

/-- A slot of a function in the frame of declarations is found by the name of the function only. -/
theorem eq_of_address?_declared {functions : List FunctionDecl} {main decl : FunctionDecl}
    {name read : String} (declared : name ∈ declarations functions main.name) {address : Address}
    (found : (framesOf functions main decl).address? read = some address)
    (isDepth : address.depth = if decl.name = main.name then 0 else 1)
    (isIndex : address.index = (declarations functions main.name).idxOf name) : read = name := by
  obtain ⟨names, isNames, isRead⟩ := Scope.getElem?_of_address? found
  rw [isDepth, getElem?_framesOf_declarations, Option.some.injEq] at isNames
  rw [isIndex, ← isNames, List.getElem?_idxOf declared, Option.some.injEq] at isRead
  exact isRead.symm

/-- What is traced back to other names than that of a function does not load this function. -/
theorem Joined.not_loadsFunction {options : Options} {program : Program} {object : ObjectProgram}
    {functions : List CompiledFunction} {id : Nat} {main : CompiledFunction} {table : Constants}
    {listing : Listing} (joined : Joined options program object functions id main table listing)
    (countable : program.Countable) {decl : FunctionDecl} (isDecl : decl ∈ program.functions)
    {name : String} (declared : name ∈ declarations program.functions options.entry)
    (unused : name ∉ object.references) {site : Site}
    (isScope : site.scope = framesOf program.functions main.decl decl) {instr out : Instr}
    (traced : site.Traced (· ∈ object.references) instr)
    (patched : instr.patch options listing.blocks site.block = .ok out) :
    ¬ listing.LoadsFunction options.entry (declarations program.functions options.entry) name
      decl.name out := by
  have patches := patches_of_patch patched
  have sameOpcode : out.opcode = instr.opcode := by
    obtain ⟨args, -, rfl⟩ := Instr.patch_eq_ok.mp patched
    rfl
  cases traced with
  | other noLoad =>
    rw [← sameOpcode] at noLoad
    rintro (⟨-, isLoad, -⟩ | ⟨-, isLoad, -⟩ | ⟨-, -, isClosure, -⟩)
    · exact noLoad.1 isLoad
    · exact noLoad.1 isLoad
    · exact noLoad.2 isClosure
  | @load _ read address isReferred found loads =>
    rw [isScope] at found
    have isLoad : instr.opcode = .ld := congrArg Instr.opcode loads
    obtain ⟨depthSmall, indexSmall⟩ := countable.addressable joined.main_mem isDecl read address found
    have sameLoad : out.uncommented = .ldAddress address := by
      rw [patches.eq_uncommented (by rw [isLoad]; rfl), loads]
    have slot := Instr.loadsSlot_of_ldAddress sameLoad depthSmall indexSmall
    rw [← joined.isEntry] at declared ⊢
    have differs : read ≠ name := fun same => unused (same ▸ isReferred)
    rintro (⟨isEntry, loaded⟩ | ⟨isOther, loaded⟩ | ⟨-, -, isClosure, -⟩)
    · obtain ⟨isDepth, isIndex⟩ := slot.unique loaded
      exact differs
        (eq_of_address?_declared declared found (by rw [isDepth, if_pos isEntry]) isIndex)
    · obtain ⟨isDepth, isIndex⟩ := slot.unique loaded
      exact differs
        (eq_of_address?_declared declared found (by rw [isDepth, if_neg isOther]) isIndex)
    · rw [sameOpcode, isLoad] at isClosure
      cases isClosure
  | @closure read unbound comment =>
    obtain ⟨position, isPosition, isOut⟩ := patches.target_of_closure
    obtain ⟨args, -, rfl⟩ := Instr.patch_eq_ok.mp patched
    cases isOut
    rintro (⟨-, isLoad, -⟩ | ⟨-, isLoad, -⟩ | ⟨isBlock, rfl, -, enters⟩)
    · cases isLoad
    · cases isLoad
    · -- the block of the closure is another one, because the function is in scope
      obtain ⟨block, isFound, atPosition⟩ := Option.map_eq_some_iff.mp isPosition
      have isOther := List.mem_reverse.mp (List.mem_of_find?_eq_some isFound)
      have named : block.name = read := by simpa using List.find?_some isFound
      rw [List.mem_singleton, Operand.offset.injEq, ← atPosition] at enters
      rw [← joined.eq_of_offset isBlock isOther enters] at named
      rw [isScope, Scope.address?_eq_none_iff, ← named] at unbound
      rw [← joined.isEntry] at declared
      exact unbound ⟨_, List.mem_of_getElem? (getElem?_framesOf_declarations _ _ _), declared⟩

/-- A function that is reported as unused is loaded by no instruction of any block, neither one that
stands there in the source nor one that comes from a constant. -/
theorem unused_never_loaded {options : Options} {program : Program} {listing : Listing}
    (countable : program.Countable) (compiled : compile options program = .ok listing) :
    ∃ object unused, program.object options = .ok object ∧
      object.unusedFunctions options.entry = .ok unused ∧
      ∀ name ∈ unused, name ∈ declarations program.functions options.entry ∧
        List.Forall₂ (fun place block => ∀ instr ∈ block.instrs,
            ¬ listing.LoadsFunction options.entry (declarations program.functions options.entry)
              name place.1 instr)
          (program.places options.entry) listing.blocks := by
  obtain ⟨object, generated, linked⟩ := bind_eq_ok.mp compiled
  obtain ⟨functions, id, main, table, joined⟩ := Joined.of_link generated linked
  obtain ⟨entry, hasEntry, -⟩ := bind_eq_ok.mp linked
  refine ⟨object, _, generated, joined.assembled.unusedFunctions_eq hasEntry, fun name member => ?_⟩
  obtain ⟨declared, unused⟩ := List.mem_filter.mp member
  refine ⟨declared, forall₂_trans ?_ joined.forall₂_places
    (forall₂_imp_of_mem joined.blocks fun site isSite placed links =>
      joined.traced isSite links)⟩
  rintro place ⟨scope, block⟩ placed ⟨decl, isDecl, isPlace, isScope⟩ traced out isOut
  obtain ⟨instr, ofInstr, patched⟩ := traced out isOut
  rw [← isPlace]
  exact joined.not_loadsFunction countable isDecl declared (by simpa using unused) isScope ofInstr
    patched

/-- Of two functions one is called, from a constant that an arm reads. -/
def spareFunctions : Program where
  name := "spare"
  decls := [
    .function ⟨"main", ["n"], [.ifElse (.ident "n") [.expr (.ident "NEXT")] none]⟩,
    .function ⟨"spare", ["k"], [.expr (.ident "k")]⟩,
    .function ⟨"next", ["k"], [.expr (.ident "k")]⟩,
    .consts ⟨["NEXT"], .exprs [.call "next" [.int 7]]⟩]

theorem unused_never_loaded_spare :
    ∃ listing object, compile {} spareFunctions = .ok listing ∧
      spareFunctions.object {} = .ok object ∧ object.unusedFunctions "main" = .ok ["spare"] ∧
      List.Forall₂ (fun place block => ∀ instr ∈ block.instrs,
          ¬ listing.LoadsFunction "main" ["spare", "next"] "spare" place.1 instr)
        (spareFunctions.places "main") listing.blocks := by
  obtain ⟨listing, compiled, -⟩ :=
    exists_ok_of_any (compile {} spareFunctions) (fun _ => true) (by decide)
  obtain ⟨object, unused, generated, reported, never⟩ :=
    unused_never_loaded ⟨by decide, by decide, by decide⟩ compiled
  have report : (do (← spareFunctions.object {}).unusedFunctions "main") = .ok ["spare"] := by
    decide
  rw [generated, ok_bind] at report
  obtain rfl : ["spare"] = unused := Except.ok.inj (report.symm.trans reported)
  exact ⟨listing, object, compiled, generated, report, (never "spare" List.mem_cons_self).2⟩

end Secd
