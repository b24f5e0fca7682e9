import Secd.Compile
import Secd.Proofs.Assembly
import Secd.Proofs.Layout

namespace Secd

open Results

/-! # Linking, taken apart

On an object program that was generated from source, linking goes through the blocks of the entry
function and then through those of every other function, each with the names that its code finds
(`Assembled.link_eq`).
-/

/-! ## The order of the blocks -/

namespace CompiledFunction

/-- The functions other than the one of a name, with the numbers of their bodies. -/
def others (entry : String) (functions : List CompiledFunction) : List (Nat × CompiledFunction) :=
  (number 0 functions).filter (·.2.decl.name ≠ entry)

theorem map_decl_others (entry : String) (functions : List CompiledFunction) :
    (others entry functions).map (·.2.decl) =
      functionsExcept (functions.map CompiledFunction.decl) entry := by
  conv_rhs => rw [← map_snd_number 0 functions, List.map_map, functionsExcept, List.filter_map]
  rfl

/-- The blocks of a function, each with the names in reach of its code. -/
def sites (functions : List FunctionDecl) (main : FunctionDecl) (entry : Nat × CompiledFunction) :
    List (Scope × Block) :=
  (entry.2.blocks entry.1).map fun block => (framesOf functions main entry.2.decl, block)

theorem map_name_sites (functions : List FunctionDecl) (main : FunctionDecl)
    (order : List (Nat × CompiledFunction)) :
    (order.flatMap (sites functions main)).map (·.2.name) =
      (order.map Prod.snd).flatMap CompiledFunction.names := by
  rw [List.map_flatMap, List.flatMap_map]
  refine List.flatMap_congr fun function _ => ?_
  rw [sites, List.map_map, ← function.2.map_name_blocks function.1]
  rfl

end CompiledFunction

namespace Site

theorem resolveAll_append (site : Site) (first second : List Instr) :
    site.resolveAll (first ++ second) =
      (do return (← site.resolveAll first) ++ (← site.resolveAll second)) := by
  simp only [resolveAll, List.mapM_append, bind_assoc, pure_bind, List.flatten_append]

theorem resolveAll_singleton (site : Site) (instr : Instr) :
    site.resolveAll [instr] = site.resolve instr := by
  simp [resolveAll, List.mapM_cons]

end Site

namespace ObjectProgram

/-- Resolves the names of a block. -/
def resolveBlock (object : ObjectProgram) (constants : Constants) (site : Scope × Block) :
    Except CompileError LooseBlock := do
  let place : Site :=
    { program := object, constants, block := site.2.name, scope := site.1 }
  return ⟨site.2.name, ← place.resolveAll site.2.instrs⟩

/-- Places and patches blocks whose names are resolved. -/
def finish (options : Options) (name : String) (declared : List String)
    (loose : List LooseBlock) : Except CompileError Listing := do
  let start := Secd.preamble options.entry declared
  let layout := placeBlocks start.length loose
  return {
    name
    preamble := ← start.mapM (Instr.patch options layout "preamble")
    blocks := ← layout.mapM (PlacedBlock.patch options layout) }

end ObjectProgram

namespace Assembled

variable {options : Options} {sources : List FunctionDecl} {definitions : List (String × Expr)}
  {object : ObjectProgram} {functions : List CompiledFunction}

theorem block_eq (assembled : Assembled options sources definitions object functions)
    {id : Nat} {function : CompiledFunction}
    (member : (id, function) ∈ CompiledFunction.number 0 functions) :
    ∃ body, object.block id = .ok body ∧ body.name = function.decl.name ∧
      body.frame = function.decl.params := by
  obtain ⟨body, isBody, named, framed⟩ := assembled.getElem?_body member
  exact ⟨body, by simp [ObjectProgram.block, isBody], named, framed⟩

/-- The functions other than the entry function are those of other names. -/
theorem others_eq (assembled : Assembled options sources definitions object functions)
    {id : Nat} {main : CompiledFunction}
    (isMain : (id, main) ∈ CompiledFunction.number 0 functions) :
    object.others id = (CompiledFunction.others main.decl.name functions).map Prod.fst := by
  rw [ObjectProgram.others, assembled.numbers, List.filter_map, CompiledFunction.others]
  congr 1
  -- the linker leaves out the number of the entry function, and that is to leave out its name
  refine List.filter_congr fun other isOther => ?_
  simp only [Function.comp_apply, decide_eq_decide, not_iff_not]
  constructor
  · intro sameNumber
    have same := List.inj_on_of_nodup_map (CompiledFunction.nodup_number 0 functions) isOther isMain
      sameNumber
    rw [same]
  · intro sameName
    rw [assembled.eq_of_name isOther isMain sameName]

/-- Linking goes through all functions. -/
theorem order_perm (assembled : Assembled options sources definitions object functions)
    {id : Nat} {main : CompiledFunction}
    (isMain : (id, main) ∈ CompiledFunction.number 0 functions) :
    ((id, main) :: CompiledFunction.others main.decl.name functions).Perm
      (CompiledFunction.number 0 functions) := by
  have nodup : (CompiledFunction.number 0 functions).Nodup :=
    (CompiledFunction.nodup_number 0 functions).of_map _
  have leftOut : (id, main) ∉ CompiledFunction.others main.decl.name functions := by
    intro member
    simpa using List.of_mem_filter member
  refine (List.perm_ext_iff_of_nodup (List.nodup_cons.mpr ⟨leftOut, nodup.filter _⟩)
    nodup).mpr fun function => ?_
  rw [List.mem_cons, CompiledFunction.others, List.mem_filter]
  constructor
  · rintro (rfl | ⟨member, -⟩)
    · exact isMain
    · exact member
  · intro member
    by_cases named : function.2.decl.name = main.decl.name
    · exact .inl (assembled.eq_of_name member isMain named)
    · exact .inr ⟨member, by simpa using named⟩

theorem map_snd_order_perm (assembled : Assembled options sources definitions object functions)
    {id : Nat} {main : CompiledFunction}
    (isMain : (id, main) ∈ CompiledFunction.number 0 functions) {entry : String}
    (isEntry : main.decl.name = entry) :
    (((id, main) :: CompiledFunction.others entry functions).map Prod.snd).Perm functions := by
  have perm := (assembled.order_perm isMain).map Prod.snd
  rwa [isEntry, CompiledFunction.map_snd_number] at perm

/-- A name without a dot that is no function names no block. -/
theorem not_mem_names (assembled : Assembled options sources definitions object functions)
    (allDotFree : ∀ decl ∈ sources, DotFree decl.name) {name : String} (dotFree : DotFree name)
    (noFunction : object.function? name = none) :
    name ∉ functions.flatMap CompiledFunction.names := by
  intro member
  obtain ⟨function, isFunction, inNames⟩ := List.mem_flatMap.mp member
  rw [← CompiledFunction.map_snd_number 0 functions] at isFunction
  obtain ⟨⟨id, numbered⟩, isNumbered, rfl⟩ := List.mem_map.mp isFunction
  rw [CompiledFunction.map_snd_number] at isFunction
  have under := CompiledFunction.under_of_mem_names (assembled.code numbered isFunction) inNames
  -- without a dot it is the name of a body
  have isName := (eq_of_under_of_dotFree dotFree under).symm
  have found := (assembled.function?_eq_some_iff allDotFree).mpr ⟨numbered, isNumbered, isName⟩
  rw [noFunction] at found
  cases found

theorem blockNames_eq (assembled : Assembled options sources definitions object functions)
    (entry : String) :
    object.blockNames ((CompiledFunction.others entry functions).map Prod.fst) =
      .ok (declarations sources entry) := by
  have names : declarations sources entry =
      (CompiledFunction.others entry functions).map (·.2.decl.name) := by
    rw [declarations, ← assembled.decls, ← CompiledFunction.map_decl_others, List.map_map]
    rfl
  rw [ObjectProgram.blockNames, List.mapM_map, names]
  refine mapM_eq_map fun other isOther => ?_
  obtain ⟨body, isBody, named, -⟩ := assembled.block_eq (List.mem_of_mem_filter isOther)
  simp [isBody, named]

theorem resolveTree_eq (assembled : Assembled options sources definitions object functions)
    {id : Nat} {function : CompiledFunction}
    (member : (id, function) ∈ CompiledFunction.number 0 functions) (constants : Constants)
    (scope : Scope) :
    object.resolveTree constants scope id =
      ((function.blocks id).map fun block => (scope, block)).mapM
        (object.resolveBlock constants) := by
  rw [ObjectProgram.resolveTree, assembled.visitTree_eq member, List.mapM_map]
  rfl

/-- The entry function is a declared one. -/
theorem exists_entry (assembled : Assembled options sources definitions object functions) {id : Nat}
    (hasEntry : object.entry options.entry = .ok id) :
    ∃ main, (id, main) ∈ CompiledFunction.number 0 functions ∧
      main.decl.name = options.entry := by
  refine assembled.exists_of_function? ?_
  unfold ObjectProgram.entry at hasEntry
  split at hasEntry <;> simp_all

theorem entry_eq (assembled : Assembled options sources definitions object functions)
    (dotFree : ∀ decl ∈ sources, DotFree decl.name) {id : Nat} {main : CompiledFunction}
    (isMain : (id, main) ∈ CompiledFunction.number 0 functions)
    (isEntry : main.decl.name = options.entry) : object.entry options.entry = .ok id := by
  have found := (assembled.function?_eq_some_iff dotFree).mpr ⟨main, isMain, isEntry⟩
  simp [ObjectProgram.entry, found]

/-- Linking in the order of the listing. -/
theorem link_eq (assembled : Assembled options sources definitions object functions) {id : Nat}
    (hasEntry : object.entry options.entry = .ok id) {main : CompiledFunction}
    (isMain : (id, main) ∈ CompiledFunction.number 0 functions)
    (isEntry : main.decl.name = options.entry) :
    object.link options = (do
      let constants ← object.constants.expandAll
      let loose ← (((id, main) :: CompiledFunction.others options.entry functions).flatMap
        (CompiledFunction.sites sources main.decl)).mapM (object.resolveBlock constants)
      ObjectProgram.finish options object.name (declarations sources options.entry) loose) := by
  obtain ⟨body, isBody, -, framed⟩ := assembled.block_eq isMain
  -- each of the other functions has its parameters in front of what is outside of functions
  have rest : ∀ constants : Constants,
      (do return (← (object.others id).mapM (object.resolveFunction constants
        [declarations sources options.entry, main.decl.params])).flatten) =
      ((CompiledFunction.others options.entry functions).flatMap
        (CompiledFunction.sites sources main.decl)).mapM (object.resolveBlock constants) := by
    intro constants
    rw [assembled.others_eq isMain, isEntry, List.mapM_map, List.flatMap_def, ← mapM_flatten,
      List.mapM_map]
    congr 1
    refine mapM_congr fun other isOther => ?_
    have isFunction := List.mem_of_mem_filter isOther
    have notMain : other.2.decl.name ≠ main.decl.name := by
      rw [isEntry]
      simpa using List.of_mem_filter isOther
    obtain ⟨otherBody, isOtherBody, -, otherFramed⟩ := assembled.block_eq isFunction
    rw [Function.comp_apply, Function.comp_apply, ObjectProgram.resolveFunction, isOtherBody,
      ok_bind, otherFramed, assembled.resolveTree_eq isFunction, CompiledFunction.sites, framesOf,
      if_neg notMain, isEntry]
  have mainScope : framesOf sources main.decl main.decl =
      [declarations sources options.entry, main.decl.params] := by
    rw [framesOf, if_pos rfl, isEntry]
  simp only [ObjectProgram.link, hasEntry, ok_bind, isBody, framed, List.flatMap_cons,
    List.mapM_append, ← rest, assembled.resolveTree_eq isMain, CompiledFunction.sites, mainScope]
  rw [assembled.others_eq isMain, isEntry, assembled.blockNames_eq]
  simp [ObjectProgram.finish]

end Assembled

/-! ## What is linked -/

/-- A finished listing satisfies itself: it is patched with the offsets of its own blocks. -/
theorem ObjectProgram.finish_eq_ok {options : Options} {name : String} {declared : List String}
    {loose : List LooseBlock} {listing : Listing}
    (finished : finish options name declared loose = .ok listing) :
    (Secd.preamble options.entry declared).mapM
        (Instr.patch options listing.blocks "preamble") = .ok listing.preamble ∧
      List.Forall₂ (fun block placed => placed.name = block.name ∧
        block.instrs.mapM (Instr.patch options listing.blocks block.name) = .ok placed.instrs)
        loose listing.blocks ∧
      Contiguous listing.preamble.length listing.blocks := by
  obtain ⟨start, startOk, blocks, blocksOk, rfl⟩ := by
    simpa only [finish, bind_eq_ok, pure_eq_ok] using finished
  have labels := map_label_of_patch blocksOk
  have patches : ∀ block, Instr.patch options blocks block =
      Instr.patch options (placeBlocks (Secd.preamble options.entry declared).length loose) block :=
    fun block => congrFun (congrFun (Instr.patch_congr labels) options) block
  obtain ⟨contiguous, placed⟩ := placed_of_patch blocksOk
  rw [(mapM_eq_ok.mp startOk).length_eq] at contiguous
  simp only [patches]
  exact ⟨startOk, placed, contiguous⟩

/-- What becomes of a block: its names are resolved, and names of blocks are replaced by offsets. -/
def LinksBlock (options : Options) (object : ObjectProgram) (table : Constants)
    (blocks : List PlacedBlock) (site : Scope × Block) (placed : PlacedBlock) : Prop :=
  placed.name = site.2.name ∧
    ∃ middle, Site.resolveAll
        { program := object, constants := table, block := site.2.name, scope := site.1 }
        site.2.instrs = .ok middle ∧
      middle.mapM (Instr.patch options blocks site.2.name) = .ok placed.instrs

/-- A listing together with all that it was made from. -/
structure Joined (options : Options) (program : Program) (object : ObjectProgram)
    (functions : List CompiledFunction) (id : Nat) (main : CompiledFunction) (table : Constants)
    (listing : Listing) : Prop where
  assembled : Assembled options program.functions program.constants object functions
  isMain : (id, main) ∈ CompiledFunction.number 0 functions
  isEntry : main.decl.name = options.entry
  expanded : object.constants.expandAll = .ok table
  preamble : (Secd.preamble options.entry (declarations program.functions options.entry)).mapM
    (Instr.patch options listing.blocks "preamble") = .ok listing.preamble
  blocks : List.Forall₂ (LinksBlock options object table listing.blocks)
    (((id, main) :: CompiledFunction.others options.entry functions).flatMap
      (CompiledFunction.sites program.functions main.decl)) listing.blocks
  contiguous : Contiguous listing.preamble.length listing.blocks

/-- The same where no function and nothing that is called has a dot in its name. -/
structure Linked (options : Options) (program : Program) (object : ObjectProgram)
    (functions : List CompiledFunction) (id : Nat) (main : CompiledFunction) (table : Constants)
    (listing : Listing) : Prop
    extends Joined options program object functions id main table listing where
  dotFree : program.DotFree

theorem Joined.of_link {options : Options} {program : Program} {object : ObjectProgram}
    {listing : Listing} (generated : program.object options = .ok object)
    (linked : object.link options = .ok listing) :
    ∃ functions id main table, Joined options program object functions id main table listing := by
  obtain ⟨functions, assembled⟩ := Program.assembled_of_object generated
  obtain ⟨id, hasEntry, -⟩ := bind_eq_ok.mp linked
  obtain ⟨main, isMain, isEntry⟩ := assembled.exists_entry hasEntry
  rw [assembled.link_eq hasEntry isMain isEntry, bind_eq_ok] at linked
  obtain ⟨table, expanded, resolved⟩ := linked
  obtain ⟨loose, looseOk, finished⟩ := bind_eq_ok.mp resolved
  obtain ⟨start, placed, contiguous⟩ := ObjectProgram.finish_eq_ok finished
  refine ⟨functions, id, main, table, assembled, isMain, isEntry, expanded, start, ?_, contiguous⟩
  refine forall₂_trans ?_ (mapM_eq_ok.mp looseOk) placed
  rintro site middle block resolvedBlock ⟨named, patched⟩
  obtain ⟨instrs, instrsOk, rfl⟩ := by
    simpa only [ObjectProgram.resolveBlock, bind_eq_ok, pure_eq_ok] using resolvedBlock
  exact ⟨named, instrs, instrsOk, patched⟩

theorem Linked.of_link {options : Options} {program : Program} {object : ObjectProgram}
    {listing : Listing} (dotFree : program.DotFree) (generated : program.object options = .ok object)
    (linked : object.link options = .ok listing) :
    ∃ functions id main table, Linked options program object functions id main table listing := by
  obtain ⟨functions, id, main, table, joined⟩ := Joined.of_link generated linked
  exact ⟨functions, id, main, table, joined, dotFree⟩

namespace Joined

variable {options : Options} {program : Program} {object : ObjectProgram}
  {functions : List CompiledFunction} {id : Nat} {main : CompiledFunction} {table : Constants}
  {listing : Listing}

theorem map_name_blocks (joined : Joined options program object functions id main table listing) :
    listing.blocks.map PlacedBlock.name =
      (main :: (CompiledFunction.others options.entry functions).map Prod.snd).flatMap
        CompiledFunction.names := by
  rw [map_eq_map_of_forall₂ (f := fun site => site.2.name) joined.blocks
    fun site placed links => links.1]
  exact CompiledFunction.map_name_sites _ _ _

theorem order_perm (joined : Joined options program object functions id main table listing) :
    (main :: (CompiledFunction.others options.entry functions).map Prod.snd).Perm functions :=
  joined.assembled.map_snd_order_perm joined.isMain joined.isEntry

theorem main_mem (joined : Joined options program object functions id main table listing) :
    main.decl ∈ program.functions :=
  joined.assembled.mem_sources (CompiledFunction.mem_of_mem_number joined.isMain)

end Joined

namespace Linked

variable {options : Options} {program : Program} {object : ObjectProgram}
  {functions : List CompiledFunction} {id : Nat} {main : CompiledFunction} {table : Constants}
  {listing : Listing}

theorem nodup_names (linked : Linked options program object functions id main table listing) :
    (listing.blocks.map PlacedBlock.name).Nodup := by
  rw [linked.map_name_blocks]
  exact linked.assembled.nodup_names linked.dotFree.functions linked.order_perm

/-- A name without a dot that is no function names no block. -/
theorem not_mem_names (linked : Linked options program object functions id main table listing)
    {name : String} (dotFree : DotFree name) (noFunction : object.function? name = none) :
    name ∉ listing.blocks.map PlacedBlock.name := by
  rw [linked.map_name_blocks, (linked.order_perm.flatMap_right _).mem_iff]
  exact linked.assembled.not_mem_names linked.dotFree.functions dotFree noFunction

end Linked

end Secd
