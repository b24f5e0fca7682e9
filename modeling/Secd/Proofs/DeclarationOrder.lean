import Secd.Proofs.Contexts
import Secd.Proofs.Generation

namespace Secd

open Results

/-! # The order of declarations

Constants may be declared before or after what uses them, and the entry function anywhere: as long
as the other functions stay in their order, whose slots are part of the calling convention, the
listing is the same to the last comment (`compile_reordered`). The numbers of blocks do change.
They leave no trace, because resolving a block looks at its name and its instructions only, and
asks of a called name no more than whether it is a function (`Site.resolveAll_congr`).
-/

/-- The same declarations in another order that leaves the functions other than the entry function
in theirs. -/
structure Program.Reordered (entry : String) (program other : Program) : Prop where
  name : other.name = program.name
  decls : program.decls.Perm other.decls
  others : functionsExcept other.functions entry = functionsExcept program.functions entry

namespace Program.Reordered

variable {entry : String} {program other : Program}

theorem symm (reordered : program.Reordered entry other) : other.Reordered entry program :=
  ⟨reordered.name.symm, reordered.decls.symm, reordered.others.symm⟩

theorem functions_perm (reordered : program.Reordered entry other) :
    program.functions.Perm other.functions :=
  reordered.decls.filterMap _

theorem dotFree (reordered : program.Reordered entry other)
    (dotFree : ∀ decl ∈ program.functions, Secd.DotFree decl.name) :
    ∀ decl ∈ other.functions, Secd.DotFree decl.name :=
  fun decl member => dotFree decl (reordered.functions_perm.mem_iff.mpr member)

theorem framesOf_eq (reordered : program.Reordered entry other) {main : FunctionDecl}
    (isEntry : main.name = entry) (decl : FunctionDecl) :
    framesOf other.functions main decl = framesOf program.functions main decl := by
  simp only [framesOf, declarations, isEntry, reordered.others]

end Program.Reordered

/-- What resolving looks at. -/
theorem Site.resolveAll_congr {site other : Site} (constants : other.constants = site.constants)
    (block : other.block = site.block) (scope : other.scope = site.scope)
    (functions : ∀ name,
      (other.program.function? name).isSome = (site.program.function? name).isSome)
    (instrs : List Instr) : other.resolveAll instrs = site.resolveAll instrs := by
  have closure : other.resolveClosure = site.resolveClosure := by
    funext instr
    simp only [resolveClosure, scope, functions, block]
  have each : ∀ instr, other.resolve instr = site.resolve instr := by
    intro instr
    simp only [resolve, scope, constants, block, closure]
  rw [resolveAll, resolveAll, mapM_congr fun instr _ => each instr]

/-! ## Functions -/

/-- A function is compiled to the same code wherever it is declared. -/
theorem CompiledFunction.eq_of_decl {options : Options} {function other : CompiledFunction}
    (compiled : function.decl.code options = .ok function.code)
    (otherCompiled : other.decl.code options = .ok other.code) (same : other.decl = function.decl) :
    other = function := by
  obtain ⟨decl, code⟩ := function
  obtain ⟨otherDecl, otherCode⟩ := other
  cases same
  cases compiled.symm.trans otherCompiled
  rfl

/-- So the code of a list of functions depends on nothing but their declarations. -/
theorem CompiledFunction.eq_of_map_decl {options : Options} {functions others : List CompiledFunction}
    (compiled : ∀ function ∈ functions, function.decl.code options = .ok function.code)
    (otherCompiled : ∀ function ∈ others, function.decl.code options = .ok function.code)
    (same : others.map CompiledFunction.decl = functions.map CompiledFunction.decl) :
    others = functions := by
  induction functions generalizing others with
  | nil => exact List.map_eq_nil_iff.mp same
  | cons function rest ih =>
    obtain ⟨other, otherRest, rfl, sameHead, sameRest⟩ := List.map_eq_cons_iff.mp same
    obtain ⟨ofHead, ofRest⟩ := List.forall_mem_cons.mp compiled
    obtain ⟨ofOther, ofOtherRest⟩ := List.forall_mem_cons.mp otherCompiled
    rw [eq_of_decl ofHead ofOther sameHead, ih ofRest ofOtherRest sameRest]

/-- Two generated programs with the same declarations. -/
structure Reassembled (options : Options) (program other : Program)
    (object otherObject : ObjectProgram) (functions others : List CompiledFunction) : Prop where
  assembled : Assembled options program.functions program.constants object functions
  otherAssembled : Assembled options other.functions other.constants otherObject others
  reordered : program.Reordered options.entry other
  dotFree : ∀ decl ∈ program.functions, DotFree decl.name

namespace Reassembled

variable {options : Options} {program other : Program} {object otherObject : ObjectProgram}
  {functions others : List CompiledFunction}

theorem isSome_function? (both : Reassembled options program other object otherObject functions
    others) (name : String) :
    (otherObject.function? name).isSome = (object.function? name).isSome := by
  rw [Bool.eq_iff_iff, both.assembled.isSome_function?_iff both.dotFree,
    both.otherAssembled.isSome_function?_iff (both.reordered.dotFree both.dotFree)]
  simp only [both.reordered.functions_perm.mem_iff]

/-- The functions other than the entry function are the same, apart from their numbers. -/
theorem forall₂_others (both : Reassembled options program other object otherObject functions
    others) :
    List.Forall₂ (fun entry otherEntry => otherEntry.2 = entry.2)
      (CompiledFunction.others options.entry functions)
      (CompiledFunction.others options.entry others) := by
  have decls : (CompiledFunction.others options.entry functions).map (·.2.decl) =
      (CompiledFunction.others options.entry others).map (·.2.decl) := by
    rw [CompiledFunction.map_decl_others, CompiledFunction.map_decl_others, both.assembled.decls,
      both.otherAssembled.decls, both.reordered.others]
  have sameDecl := List.forall₂_iff_zip.mp (forall₂_of_map_eq decls)
  refine List.forall₂_iff_zip.mpr ⟨sameDecl.1, fun {entry otherEntry} inBoth => ?_⟩
  obtain ⟨isEntry, isOtherEntry⟩ := List.of_mem_zip inBoth
  refine CompiledFunction.eq_of_decl (both.assembled.code _ ?_) (both.otherAssembled.code _ ?_)
    (sameDecl.2 inBoth).symm
  · exact CompiledFunction.mem_of_mem_number (List.mem_of_mem_filter isEntry)
  · exact CompiledFunction.mem_of_mem_number (List.mem_of_mem_filter isOtherEntry)

/-- The entry function is the same. -/
theorem exists_main (both : Reassembled options program other object otherObject functions others)
    {id : Nat} {main : CompiledFunction}
    (isMain : (id, main) ∈ CompiledFunction.number 0 functions) :
    ∃ otherId, (otherId, main) ∈ CompiledFunction.number 0 others := by
  have isFunction := CompiledFunction.mem_of_mem_number isMain
  obtain ⟨otherId, otherMain, isOtherMain, sameDecl⟩ := both.otherAssembled.exists_numbered
    (both.reordered.functions_perm.mem_iff.mp (both.assembled.mem_sources isFunction))
  have same := CompiledFunction.eq_of_decl (both.assembled.code main isFunction)
    (both.otherAssembled.code otherMain (CompiledFunction.mem_of_mem_number isOtherMain)) sameDecl
  exact ⟨otherId, same ▸ isOtherMain⟩

/-- The blocks of one function are resolved to the same. -/
theorem forall₂_resolveBlock (both : Reassembled options program other object otherObject functions
    others) {main : CompiledFunction} (isEntry : main.decl.name = options.entry) (table : Constants)
    {entry otherEntry : Nat × CompiledFunction} (same : otherEntry.2 = entry.2) :
    List.Forall₂ (fun site otherSite =>
        object.resolveBlock table site = otherObject.resolveBlock table otherSite)
      (CompiledFunction.sites program.functions main.decl entry)
      (CompiledFunction.sites other.functions main.decl otherEntry) := by
  have blocks := (entry.2.map_blocks entry.1).trans (entry.2.map_blocks otherEntry.1).symm
  rw [CompiledFunction.sites, CompiledFunction.sites, same, both.reordered.framesOf_eq isEntry,
    List.forall₂_map_left_iff, List.forall₂_map_right_iff]
  refine (forall₂_of_map_eq blocks).imp fun block otherBlock sameBlock => ?_
  obtain ⟨sameName, sameInstrs⟩ := Prod.mk.inj sameBlock
  have resolved : ∀ place scope instrs, Site.resolveAll ⟨otherObject, table, place, scope⟩ instrs =
      Site.resolveAll ⟨object, table, place, scope⟩ instrs :=
    fun _ _ => Site.resolveAll_congr rfl rfl rfl both.isSome_function?
  simp only [ObjectProgram.resolveBlock, sameName, sameInstrs, resolved]

/-- Linking gives the same. -/
theorem link_eq (both : Reassembled options program other object otherObject functions others)
    (name : otherObject.name = object.name) (constants : otherObject.constants = object.constants)
    {id : Nat} (hasEntry : object.entry options.entry = .ok id) :
    otherObject.link options = object.link options := by
  obtain ⟨main, isMain, isEntry⟩ := both.assembled.exists_entry hasEntry
  obtain ⟨otherId, isOtherMain⟩ := both.exists_main isMain
  have hasOtherEntry := both.otherAssembled.entry_eq (both.reordered.dotFree both.dotFree)
    isOtherMain isEntry
  have declared : declarations other.functions options.entry =
      declarations program.functions options.entry := by
    rw [declarations, declarations, both.reordered.others]
  have order : List.Forall₂ (fun entry otherEntry => otherEntry.2 = entry.2)
      ((id, main) :: CompiledFunction.others options.entry functions)
      ((otherId, main) :: CompiledFunction.others options.entry others) :=
    .cons rfl both.forall₂_others
  have blocks (table : Constants) := mapM_eq_mapM (List.rel_flatMap order
    fun _ _ same => both.forall₂_resolveBlock isEntry table same)
  rw [both.assembled.link_eq hasEntry isMain isEntry,
    both.otherAssembled.link_eq hasOtherEntry isOtherMain isEntry, constants, name, declared]
  simp only [blocks]

end Reassembled

/-! ## Whole programs -/

theorem compile_of_reordered {options : Options} {program other : Program}
    (reordered : program.Reordered options.entry other)
    (dotFree : ∀ decl ∈ program.functions, DotFree decl.name) {listing : Listing}
    (compiled : compile options program = .ok listing) :
    compile options other = .ok listing := by
  obtain ⟨object, generated, linked⟩ := bind_eq_ok.mp compiled
  have generable := Program.Generable.of_object generated
  have otherDotFree := reordered.dotFree dotFree
  obtain ⟨otherObject, otherGenerated, otherNamed, otherConstants⟩ :=
    (generable.of_perm reordered.decls).object otherDotFree
  obtain ⟨named, constants⟩ := Program.constants_of_object dotFree generated
  obtain ⟨functions, assembled⟩ := Program.assembled_of_object generated
  obtain ⟨others, otherAssembled⟩ := Program.assembled_of_object otherGenerated
  have sameTable : Constants.ofList (program.entries options) =
      Constants.ofList (other.entries options) := by
    refine Constants.ofList_eq_of_perm (reordered.decls.flatMap_right _) ?_
    rw [program.map_fst_entries]
    exact generable.constants
  have both : Reassembled options program other object otherObject functions others :=
    ⟨assembled, otherAssembled, reordered, dotFree⟩
  obtain ⟨id, hasEntry, -⟩ := bind_eq_ok.mp linked
  refine bind_eq_ok.mpr ⟨otherObject, otherGenerated, ?_⟩
  rw [both.link_eq (by rw [otherNamed, named, reordered.name])
    (by rw [otherConstants, constants, sameTable]) hasEntry]
  exact linked

/-- The order of declarations does not matter: two programs that differ in it alone, and not in the
order of the functions other than the entry function, have the same listing or have none. -/
theorem compile_reordered {options : Options} {program other : Program}
    (reordered : program.Reordered options.entry other)
    (dotFree : ∀ decl ∈ program.functions, DotFree decl.name) (listing : Listing) :
    compile options program = .ok listing ↔ compile options other = .ok listing :=
  ⟨compile_of_reordered reordered dotFree,
    compile_of_reordered reordered.symm (reordered.dotFree dotFree)⟩

/-- The entry function first, and constants after all uses. -/
def forwardUses : Program where
  name := "forward"
  decls := [
    .function ⟨"main", ["x"], [.ifElse (.ident "x") [.expr (.call "scale" [.ident "x"])] none]⟩,
    .function ⟨"scale", ["n"], [.expr (.binary .mul (.ident "n") (.ident "FACTOR"))]⟩,
    .consts ⟨["FACTOR"], .exprs [.binary .add (.ident "BLUE") (.int 2)]⟩,
    .consts ⟨["RED", "BLUE"], .ordinals⟩]

theorem compile_reordered_forwardUses : ∃ listing, compile {} forwardUses = .ok listing ∧
    compile {} ⟨"forward", forwardUses.decls.reverse⟩ = .ok listing := by
  obtain ⟨listing, compiled, -⟩ :=
    exists_ok_of_any (compile {} forwardUses) (fun _ => true) (by decide)
  have reordered : forwardUses.Reordered "main" ⟨"forward", forwardUses.decls.reverse⟩ :=
    ⟨rfl, (List.reverse_perm _).symm, rfl⟩
  exact ⟨listing, compiled, (compile_reordered reordered (by decide) listing).mp compiled⟩

end Secd
