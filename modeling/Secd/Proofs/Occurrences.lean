import Secd.Proofs.Contexts
import Secd.Proofs.Linking

namespace Secd

open Results

/-! # Occurrences in a listing

The blocks of a listing are known by their function and their number in it (`Listing.blockOf?`).
Linking keeps the order of code, so what was emitted for an expression in a function body can be
pointed at (`Emitted`): it stands in the block of its hole, after what linking made of the code that
leads there (`Joined.exists_emitted`). None of this asks for names without dots.
-/

/-! ## Blocks of a listing by function and number -/

/-- The blocks of a program in the order of its listing, each by the name of its function and its
number there. -/
def Program.places (program : Program) (entry : String) : List (String × Nat) :=
  (program.functions.filter (·.name = entry) ++
    functionsExcept program.functions entry).flatMap fun decl =>
      (List.range (1 + Stmt.armCountOfAll decl.body)).map fun number => (decl.name, number)

/-- The block of a listing that was made of the block with the given number of a function. -/
def Listing.blockOf? (listing : Listing) (program : Program) (entry function : String)
    (number : Nat) : Option PlacedBlock :=
  ((program.places entry).zip listing.blocks).lookup (function, number)

/-- Among the blocks of one function, numbers are positions. -/
theorem lookup_zip_range' {α : Type} (name : String) (segment : List α) : ∀ (start number : Nat),
    (((List.range' start segment.length).map fun index => (name, index)).zip segment).lookup
      (name, start + number) = segment[number]? := by
  induction segment with
  | nil => simp
  | cons item rest ih =>
    intro start number
    rw [List.length_cons, List.range'_succ, List.map_cons, List.zip_cons_cons, List.lookup_cons]
    cases number with
    | zero => simp
    | succ number =>
      have differs : ((name, start + (number + 1)) == (name, start)) = false := by
        simp
      rw [differs, show start + (number + 1) = start + 1 + number by omega]
      exact ih (start + 1) number

namespace CompiledFunction

/-- A function and the numbers of its blocks. -/
def keys (entry : Nat × CompiledFunction) : List (String × Nat) :=
  (List.range (entry.2.blocks entry.1).length).map fun number => (entry.2.decl.name, number)

/-- Where functions are told apart by their names, blocks are by function and number. -/
theorem exists_lookup {α β : Type} {R : α → β → Prop} {items : Nat × CompiledFunction → List α}
    (lengths : ∀ entry, (items entry).length = (entry.2.blocks entry.1).length)
    {order : List (Nat × CompiledFunction)} {segments : List (List β)}
    (related : List.Forall₂ (fun entry segment => List.Forall₂ R (items entry) segment) order
      segments) :
    (order.map (·.2.decl.name)).Nodup → ∀ entry ∈ order, ∀ {number : Nat} {item : α},
      (items entry)[number]? = some item →
      ∃ output, ((order.flatMap keys).zip segments.flatten).lookup (entry.2.decl.name, number) =
        some output ∧ R item output := by
  induction related with
  | nil => simp
  | @cons head segment order segments ofHead _ ih =>
    intro nodup entry member number item isItem
    rw [List.map_cons, List.nodup_cons] at nodup
    have sameLength : (keys head).length = segment.length := by
      simp [keys, ← lengths, ofHead.length_eq]
    rw [List.flatMap_cons, List.flatten_cons, List.zip_append sameLength, List.lookup_append]
    rcases List.mem_cons.mp member with rfl | inRest
    · obtain ⟨output, isOutput, holds⟩ := exists_getElem?_of_forall₂ ofHead isItem
      have found := lookup_zip_range' entry.2.decl.name segment 0 number
      rw [← List.range_eq_range', Nat.zero_add, ← ofHead.length_eq, lengths, isOutput] at found
      exact ⟨output, by rw [keys, found, Option.some_or], holds⟩
    · -- the blocks of the first function have another name
      have notFirst : ((keys head).zip segment).lookup (entry.2.decl.name, number) = none := by
        rw [List.lookup_eq_none_iff]
        intro pair isPair
        obtain ⟨index, -, same⟩ := List.mem_map.mp (List.of_mem_zip isPair).1
        rw [← same]
        have differ : entry.2.decl.name ≠ head.2.decl.name := fun sameName =>
          nodup.1 (List.mem_map.mpr ⟨entry, inRest, sameName⟩)
        simp [differ]
      rw [notFirst, Option.none_or]
      exact ih nodup.2 entry inRest isItem

end CompiledFunction

namespace Joined

variable {options : Options} {program : Program} {object : ObjectProgram}
  {functions : List CompiledFunction} {id : Nat} {main : CompiledFunction} {table : Constants}
  {listing : Listing}

theorem nodup_order (joined : Joined options program object functions id main table listing) :
    (((id, main) :: CompiledFunction.others options.entry functions).map
      (·.2.decl.name)).Nodup := by
  have nodup := joined.assembled.nodup
  rw [← joined.assembled.decls, List.map_map] at nodup
  have same : ((id, main) :: CompiledFunction.others options.entry functions).map
      (·.2.decl.name) = (main :: (CompiledFunction.others options.entry functions).map
        Prod.snd).map (FunctionDecl.name ∘ CompiledFunction.decl) := by simp
  rw [same]
  exact (joined.order_perm.map _).nodup_iff.mpr nodup

theorem places_eq (joined : Joined options program object functions id main table listing) :
    program.places options.entry =
      ((id, main) :: CompiledFunction.others options.entry functions).flatMap
        CompiledFunction.keys := by
  have entry : program.functions.filter (·.name = options.entry) = [main.decl] := by
    refine List.perm_singleton.mp ((List.perm_ext_iff_of_nodup
      ((joined.assembled.nodup.of_map _).filter _) (List.nodup_singleton _)).mpr fun decl => ?_)
    have isMain := joined.main_mem
    rw [List.mem_filter, List.mem_singleton, decide_eq_true_eq]
    constructor
    · rintro ⟨isDecl, named⟩
      exact List.inj_on_of_nodup_map joined.assembled.nodup isDecl isMain
        (named.trans joined.isEntry.symm)
    · rintro rfl
      exact ⟨isMain, joined.isEntry⟩
  have order : program.functions.filter (·.name = options.entry) ++
      functionsExcept program.functions options.entry =
      ((id, main) :: CompiledFunction.others options.entry functions).map (·.2.decl) := by
    rw [entry, List.map_cons, CompiledFunction.map_decl_others, joined.assembled.decls]
    rfl
  rw [Program.places, order, List.flatMap_map]
  refine List.flatMap_congr fun function member => ?_
  have isFunction : function.2 ∈ functions := joined.order_perm.mem_iff.mp
    (List.mem_map_of_mem (f := Prod.snd) member)
  obtain ⟨body, yields, -, arms⟩ :=
    FunctionDecl.yields_of_code (joined.assembled.code function.2 isFunction)
  rw [CompiledFunction.keys, CompiledFunction.length_blocks, arms, yields.size_arms]

/-- The block of the listing that was made of a block of a function. -/
theorem exists_blockOf? (joined : Joined options program object functions id main table listing)
    {function : Nat × CompiledFunction}
    (isNumbered : function ∈ CompiledFunction.number 0 functions) {number : Nat} {block : Block}
    (isBlock : (function.2.blocks function.1)[number]? = some block) :
    ∃ placed, listing.blockOf? program options.entry function.2.decl.name number = some placed ∧
      LinksBlock options object table listing.blocks
        (framesOf program.functions main.decl function.2.decl, block) placed := by
  obtain ⟨segments, split, parts⟩ := forall₂_flatMap joined.blocks
  have listed : function ∈ (id, main) :: CompiledFunction.others options.entry functions := by
    rw [← joined.isEntry]
    exact (joined.assembled.order_perm joined.isMain).mem_iff.mpr isNumbered
  have isSite : (CompiledFunction.sites program.functions main.decl function)[number]? =
      some (framesOf program.functions main.decl function.2.decl, block) := by
    simp [CompiledFunction.sites, isBlock]
  have found := CompiledFunction.exists_lookup (fun entry => by simp [CompiledFunction.sites]) parts
    joined.nodup_order function listed isSite
  rwa [← split, ← joined.places_eq] at found

end Joined

/-! ## What was emitted for an occurrence -/

namespace Site

/-- What linking makes of code at a site. -/
def Links (site : Site) (options : Options) (blocks : List PlacedBlock) (code out : List Instr) :
    Prop :=
  ∃ middle, site.resolveAll code = .ok middle ∧
    middle.mapM (Instr.patch options blocks site.block) = .ok out

theorem Links.append {site : Site} {options : Options} {blocks : List PlacedBlock}
    {first second out : List Instr} (links : site.Links options blocks (first ++ second) out) :
    ∃ before after, out = before ++ after ∧ site.Links options blocks first before ∧
      site.Links options blocks second after := by
  obtain ⟨middle, resolved, patched⟩ := links
  obtain ⟨ofFirst, firstOk, ofSecond, secondOk, rfl⟩ := by
    simpa only [resolveAll_append, bind_eq_ok, pure_eq_ok] using resolved
  obtain ⟨before, after, rfl, patchedFirst, patchedSecond⟩ := forall₂_append (mapM_eq_ok.mp patched)
  exact ⟨before, after, rfl, ⟨ofFirst, firstOk, mapM_eq_ok.mpr patchedFirst⟩,
    ⟨ofSecond, secondOk, mapM_eq_ok.mpr patchedSecond⟩⟩

/-- The load of a name in scope becomes the load of its address. -/
theorem Links.load {site : Site} {options : Options} {blocks : List PlacedBlock} {instr : Instr}
    {name : String} {address : Address} {out : List Instr}
    (links : site.Links options blocks [instr] out) (refers : instr.reference? = some name)
    (found : site.scope.address? name = some address) :
    ∃ load, out = [load] ∧ load.uncommented = .ldAddress address := by
  obtain ⟨middle, resolved, patched⟩ := links
  simp only [resolveAll_singleton, resolve, refers, found, Except.ok.injEq] at resolved
  subst resolved
  obtain ⟨load, loadOk, rfl⟩ := forall₂_singleton (mapM_eq_ok.mp patched)
  refine ⟨load, rfl, ?_⟩
  obtain ⟨args, argsOk, rfl⟩ := Instr.patch_eq_ok.mp loadOk
  simp only [Instr.patchArgs, loadVariable, Instr.orCommented, Instr.ldAddress, Opcode.takesBlocks,
    Bool.false_eq_true, if_false, Except.ok.injEq] at argsOk
  rw [← argsOk]
  rfl

end Site

/-- `placed` is the block of the listing with the given number of a function, and `site` is where
its names were resolved. -/
inductive Located (options : Options) (program : Program) (listing : Listing) (decl : FunctionDecl)
    (number : Nat) : Site → PlacedBlock → Prop where
  | intro {object : ObjectProgram} {functions : List CompiledFunction} {id : Nat}
      {main : CompiledFunction} {table : Constants} {placed : PlacedBlock}
      (generated : program.object options = .ok object)
      (joined : Joined options program object functions id main table listing)
      (found : listing.blockOf? program options.entry decl.name number = some placed) :
    Located options program listing decl number
      ⟨object, table, placed.name, framesOf program.functions main.decl decl⟩ placed

/-- In a block of the listing, `out` is what linking made of `code`, which follows `earlier` in the
code of what stands in a hole. -/
def Emitted (options : Options) (blocks : List PlacedBlock) (params : List String)
    (context : BodyContext) (site : Site) (placed : PlacedBlock) (earlier code out : List Instr) :
    Prop :=
  ∃ lead before after, context.lead options params placed.name = .ok lead ∧
    site.Links options blocks (lead ++ earlier) before ∧ site.Links options blocks code out ∧
    placed.instrs = before ++ (out ++ after)

/-- Whatever stands in the hole of a body has its code in a block of the listing. -/
theorem Joined.exists_emitted {options : Options} {program : Program} {object : ObjectProgram}
    {functions : List CompiledFunction} {id : Nat} {main : CompiledFunction} {table : Constants}
    {listing : Listing} (joined : Joined options program object functions id main table listing)
    {decl : FunctionDecl} (isDecl : decl ∈ program.functions) {context : BodyContext}
    {value : Expr} (written : decl.body = context.fill value) :
    ∃ placed filled,
      listing.blockOf? program options.entry decl.name context.number = some placed ∧
      value.code options decl.params = .ok filled ∧
      ∀ earlier code rest, filled = earlier ++ (code ++ rest) → ∃ out,
        Emitted options listing.blocks decl.params context
          ⟨object, table, placed.name, framesOf program.functions main.decl decl⟩ placed
          earlier code out := by
  obtain ⟨number, function, isNumbered, rfl⟩ := joined.assembled.exists_numbered isDecl
  have compiled := joined.assembled.code function (CompiledFunction.mem_of_mem_number isNumbered)
  obtain ⟨block, lead, filled, ending, isBlock, leads, filledOk, instrs⟩ :=
    CompiledFunction.exists_block compiled written number
  obtain ⟨placed, found, named, middle, resolved, patched⟩ :=
    joined.exists_blockOf? isNumbered isBlock
  refine ⟨placed, filled, found, filledOk, fun earlier code rest split => ?_⟩
  simp only at named resolved patched
  rw [← named] at leads resolved patched
  have links : Site.Links
      ⟨object, table, placed.name, framesOf program.functions main.decl function.decl⟩ options
      listing.blocks ((lead ++ earlier) ++ (code ++ (rest ++ ending))) placed.instrs :=
    ⟨middle, by simpa [instrs, split] using resolved, patched⟩
  obtain ⟨before, others, isPlaced, ofLead, ofOthers⟩ := links.append
  obtain ⟨out, after, rfl, ofCode, -⟩ := ofOthers.append
  exact ⟨out, lead, before, after, leads, ofLead, ofCode, isPlaced⟩

/-! ## Occurrences of names -/

/-- The load of what a call in a function calls. -/
def loadCallee (params : List String) (func : String) : Instr :=
  (if func ∈ params then Instr.ld func else Instr.ldf func).commented func

theorem reference?_loadCallee (params : List String) (func : String) :
    (loadCallee params func).reference? = some func := by
  unfold loadCallee
  split <;> rfl

/-- An expression that loads a name: an identifier, or a call of something that is no primitive. In
the code of a call, the arguments come before the load. -/
inductive Expr.Mentions (params : List String) (name : String) :
    Expr → List Expr → Instr → Prop where
  | ident : Mentions params name (.ident name) [] ((Instr.ld name).commented name)
  | call {args : List Expr} (noPrimitive : Primitive.find? name = none) :
    Mentions params name (.call name args) args (loadCallee params name)

namespace Expr.Mentions

variable {params : List String} {name : String} {expr : Expr} {args : List Expr} {load : Instr}

theorem reference? (mentions : expr.Mentions params name args load) :
    load.reference? = some name := by
  cases mentions with
  | ident => rfl
  | call _ => exact reference?_loadCallee params name

/-- The load stands in the code of the expression, after the arguments. -/
theorem code_eq (mentions : expr.Mentions params name args load) {options : Options}
    {code : List Instr} (compiled : expr.code options params = .ok code) :
    ∃ earlier rest, Expr.codes options params args = .ok earlier ∧
      code = earlier ++ ([load] ++ rest) := by
  cases mentions with
  | ident =>
    cases compiled
    exact ⟨[], [], rfl, rfl⟩
  | call noPrimitive =>
    obtain ⟨argCode, argsOk, ⟨_, found, -⟩ | ⟨-, rfl⟩⟩ := Expr.code_call_eq_ok compiled
    · rw [noPrimitive] at found
      cases found
    · exact ⟨argCode, [.ap args.length], argsOk, rfl⟩

end Expr.Mentions

end Secd
