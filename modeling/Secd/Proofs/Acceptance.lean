import Secd.Proofs.ControlFlow
import Secd.Proofs.Passes

namespace Secd

open Results

/-! # Which programs can be linked

Linking succeeds exactly where the entry function exists, the constants can be expanded, and every
name that code refers to has a meaning in its scope (`link_succeeds_iff_in_scope`). The conditions
are read off the source and the generated blocks; nothing in them mentions a pass of the linker.
-/

/-! ## Constants -/

namespace Program

/-- The constant `first` mentions the constant `second`. -/
def ConstantRefers (program : Program) (first second : String) : Prop :=
  ∃ value, program.constants.lookup first = some value ∧
    second ∈ value.idents ++ value.callees ∧ (program.constants.lookup second).isSome

/-- No constant mentions itself through constants, and all identifiers in values of constants are
constants. -/
structure ConstantsClosed (program : Program) : Prop where
  acyclic : ∀ name, ¬ Relation.TransGen program.ConstantRefers name name
  reads : ∀ name value, program.constants.lookup name = some value →
    ∀ read ∈ value.idents, (program.constants.lookup read).isSome

end Program

namespace Defines

variable {options : Options} {definitions : List (String × Expr)} {constants : Constants}

theorem isSome_iff (defines : Defines options definitions constants) (name : String) :
    (constants.body? name).isSome ↔ (definitions.lookup name).isSome := by
  rw [Option.isSome_iff_ne_none, Option.isSome_iff_ne_none, ne_eq, ne_eq,
    defines.body?_eq_none_iff]

/-- What the instructions of a constant load is what its value mentions. -/
theorem loads_iff (defines : Defines options definitions constants) {name : String}
    {body : List Instr} (hasBody : constants.body? name = some body) :
    ∃ value, definitions.lookup name = some value ∧ ∀ mentioned,
      (Loads .ld mentioned body ↔ mentioned ∈ value.idents) ∧
      (Loads .ldf mentioned body ↔ mentioned ∈ value.callees) := by
  cases defined : definitions.lookup name with
  | none =>
    rw [defines.absent name defined] at hasBody
    cases hasBody
  | some value =>
    obtain ⟨code, compiled, other, hasOther, same⟩ := defines.present name value defined
    rw [hasBody] at hasOther
    cases hasOther
    refine ⟨value, rfl, fun mentioned => ?_⟩
    -- loads do not depend on comments
    have bare : ∀ opcode (instrs : List Instr), Loads opcode mentioned instrs ↔
        Loads opcode mentioned (instrs.map Instr.uncommented) := by
      intro opcode instrs
      simp only [Loads, List.mem_map, exists_exists_and_eq_and]
      rfl
    have sameLoads : ∀ opcode, Loads opcode mentioned body ↔ Loads opcode mentioned code := by
      intro opcode
      rw [bare, same, ← bare]
    rw [sameLoads, sameLoads]
    exact Expr.loads_iff compiled

theorem refers_iff (defines : Defines options definitions constants) {first second : String} :
    constants.Refers first second ↔ ∃ value, definitions.lookup first = some value ∧
      second ∈ value.idents ++ value.callees ∧ (definitions.lookup second).isSome := by
  have someLoad : ∀ body : List Instr, (∃ instr ∈ body, instr.reference? = some second) ↔
      Loads .ld second body ∨ Loads .ldf second body := by
    intro body
    constructor
    · rintro ⟨instr, member, refers⟩
      rcases Instr.opcode_of_reference? refers with isLoad | isClosure
      · exact .inl ⟨instr, member, isLoad, refers⟩
      · exact .inr ⟨instr, member, isClosure, refers⟩
    · rintro (⟨instr, member, -, refers⟩ | ⟨instr, member, -, refers⟩)
      · exact ⟨instr, member, refers⟩
      · exact ⟨instr, member, refers⟩
  simp only [Constants.Refers, someLoad, defines.isSome_iff, List.mem_append]
  constructor
  · rintro ⟨body, hasBody, loads, isConstant⟩
    obtain ⟨value, defined, mentions⟩ := defines.loads_iff hasBody
    rw [(mentions second).1, (mentions second).2] at loads
    exact ⟨value, defined, loads, isConstant⟩
  · rintro ⟨value, defined, loads, isConstant⟩
    obtain ⟨body, hasBody⟩ := Option.isSome_iff_exists.mp
      ((defines.isSome_iff first).mpr (by rw [defined]; rfl))
    obtain ⟨other, alsoDefined, mentions⟩ := defines.loads_iff hasBody
    rw [defined] at alsoDefined
    cases alsoDefined
    rw [← (mentions second).1, ← (mentions second).2] at loads
    exact ⟨body, hasBody, loads, isConstant⟩

end Defines

/-- Constants can be expanded exactly where they are closed. -/
theorem Assembled.expandAll_iff {options : Options} {program : Program} {object : ObjectProgram}
    {functions : List CompiledFunction}
    (assembled : Assembled options program.functions program.constants object functions) :
    (∃ table, object.constants.expandAll = .ok table) ↔ program.ConstantsClosed := by
  have defines := assembled.constants
  have sameRelation : object.constants.Refers = program.ConstantRefers := by
    funext first second
    exact propext defines.refers_iff
  rw [Constants.expandAll_iff, Constants.Acyclic, sameRelation]
  constructor
  · rintro ⟨acyclic, reads⟩
    refine ⟨acyclic, fun name value defined read isRead => ?_⟩
    obtain ⟨body, hasBody⟩ := Option.isSome_iff_exists.mp
      ((defines.isSome_iff name).mpr (by rw [defined]; rfl))
    obtain ⟨other, alsoDefined, mentions⟩ := defines.loads_iff hasBody
    rw [defined] at alsoDefined
    cases alsoDefined
    obtain ⟨instr, member, isLoad, refers⟩ := (mentions read).1.mpr isRead
    exact (defines.isSome_iff read).mp (reads name body hasBody instr member read isLoad refers)
  · rintro ⟨acyclic, reads⟩
    refine ⟨acyclic, fun name body hasBody instr member read isLoad refers => ?_⟩
    obtain ⟨value, defined, mentions⟩ := defines.loads_iff hasBody
    have isRead := (mentions read).1.mp ⟨instr, member, isLoad, refers⟩
    exact (defines.isSome_iff read).mpr (reads name value defined read isRead)

/-! ## Blocks and their scopes -/

/-- The block belongs to the function. -/
def ObjectProgram.Owns (object : ObjectProgram) (decl : FunctionDecl) (block : Block) : Prop :=
  ∃ body, object.blocks[block.scope]? = some body ∧ body.name = decl.name

/-- Every name that code refers to has a meaning in the scope of its function, where `main` is the
entry function. -/
def ObjectProgram.InScope (object : ObjectProgram) (functions : List FunctionDecl)
    (main : FunctionDecl) : Prop :=
  ∀ decl ∈ functions, ∀ block ∈ object.blocks, object.Owns decl block →
    ∀ instr ∈ block.instrs, ∀ name, instr.reference? = some name →
      object.constants.Reaches (framesOf functions main decl) name

/-- The reports on a program with names out of scope: a variable that neither a frame nor a constant
provides, a call of the entry function, or a call of something that does not exist. -/
inductive ScopeError (program : Program) (object : ObjectProgram) (main : FunctionDecl) :
    CompileError → Prop where
  | symbol {decl : FunctionDecl} {block : Block} {name : String}
      (isFunction : decl ∈ program.functions) (isBlock : block ∈ object.blocks)
      (owns : object.Owns decl block)
      (unbound : ¬ (framesOf program.functions main decl).Binds name)
      (undefined : program.constants.lookup name = none) :
    ScopeError program object main (.unresolvedSymbol
      { symbol := name, block := block.name, frames := framesOf program.functions main decl })
  | entry {block : Block} (isBlock : block ∈ object.blocks) :
    ScopeError program object main (.unreachableFunction main.name block.name)
  | target {decl : FunctionDecl} {block : Block} {name : String}
      (isFunction : decl ∈ program.functions) (isBlock : block ∈ object.blocks)
      (owns : object.Owns decl block)
      (unbound : ¬ (framesOf program.functions main decl).Binds name)
      (undefined : program.constants.lookup name = none)
      (noFunction : name ∉ program.functions.map FunctionDecl.name) :
    ScopeError program object main (.unresolvedTarget { symbol := name, block := block.name })

theorem CompiledFunction.scope_of_mem_blocks {function : CompiledFunction} {id : Nat} {block : Block}
    (member : block ∈ function.blocks id) : block.scope = id := by
  rcases List.mem_cons.mp member with rfl | inArms
  · rfl
  · exact Forest.scope_of_mem_place inArms

namespace Assembled

variable {options : Options} {program : Program} {object : ObjectProgram}
  {functions : List CompiledFunction} {id : Nat} {main : CompiledFunction}

/-- What linking goes through are the blocks of functions in the scopes of their functions. -/
theorem mem_sites_iff
    (assembled : Assembled options program.functions program.constants object functions)
    (isMain : (id, main) ∈ CompiledFunction.number 0 functions)
    (isEntry : main.decl.name = options.entry) (site : Scope × Block) :
    site ∈ ((id, main) :: CompiledFunction.others options.entry functions).flatMap
        (CompiledFunction.sites program.functions main.decl) ↔
      ∃ decl ∈ program.functions, site.2 ∈ object.blocks ∧ object.Owns decl site.2 ∧
        site.1 = framesOf program.functions main.decl decl := by
  rw [← isEntry, ((assembled.order_perm isMain).flatMap_right _).mem_iff]
  constructor
  · intro member
    obtain ⟨⟨number, function⟩, isNumbered, isSite⟩ := List.mem_flatMap.mp member
    obtain ⟨block, isBlock, rfl⟩ := List.mem_map.mp isSite
    have isFunction := CompiledFunction.mem_of_mem_number isNumbered
    obtain ⟨body, isBody, named, -⟩ := assembled.getElem?_body isNumbered
    refine ⟨function.decl, assembled.mem_sources isFunction, ?_, ⟨body, ?_, named⟩, rfl⟩
    · rw [assembled.blocks]
      exact List.mem_flatMap.mpr ⟨_, isNumbered, isBlock⟩
    · rw [CompiledFunction.scope_of_mem_blocks isBlock]
      exact isBody
  · -- a block holds the number of the body of its function, and names of functions are unique
    obtain ⟨scope, block⟩ := site
    rintro ⟨decl, isDecl, isBlock, ⟨body, isBody, named⟩, rfl⟩
    simp only at isBlock isBody
    rw [assembled.blocks] at isBlock
    obtain ⟨⟨number, function⟩, isNumbered, inFunction⟩ := List.mem_flatMap.mp isBlock
    rw [CompiledFunction.scope_of_mem_blocks inFunction] at isBody
    obtain ⟨otherBody, isOther, otherNamed, -⟩ := assembled.getElem?_body isNumbered
    rw [isBody] at isOther
    cases isOther
    have isFunction := CompiledFunction.mem_of_mem_number isNumbered
    have sameDecl : decl = function.decl :=
      List.inj_on_of_nodup_map assembled.nodup isDecl (assembled.mem_sources isFunction)
        (named.symm.trans otherNamed)
    subst sameDecl
    exact List.mem_flatMap.mpr ⟨_, isNumbered, List.mem_map_of_mem inFunction⟩

/-- A function that is out of scope is the entry function. -/
theorem eq_entry_of_unbound
    (assembled : Assembled options program.functions program.constants object functions)
    (dotFree : program.DotFree) {decl : FunctionDecl} {name : String}
    (unbound : ¬ (framesOf program.functions main.decl decl).Binds name)
    (isFunction : (object.function? name).isSome) : name = main.decl.name := by
  by_contra other
  obtain ⟨number, found⟩ := Option.isSome_iff_exists.mp isFunction
  obtain ⟨function, isNumbered, rfl⟩ :=
    (assembled.function?_eq_some_iff dotFree.functions).mp found
  have isSource := assembled.mem_sources (CompiledFunction.mem_of_mem_number isNumbered)
  have declared : function.decl.name ∈ declarations program.functions main.decl.name :=
    List.mem_map_of_mem (List.mem_filter.mpr ⟨isSource, by simpa using other⟩)
  -- every scope holds the frame of the declarations
  refine unbound ⟨_, ?_, declared⟩
  unfold framesOf
  split <;> simp

end Assembled

/-! ## Both passes -/

namespace ObjectProgram

/-- Some name in the block has no meaning in the scope. -/
def Unreached (object : ObjectProgram) (site : Scope × Block) : Prop :=
  ∃ instr ∈ site.2.instrs, ∃ name, instr.reference? = some name ∧
    ¬ object.constants.Reaches site.1 name

/-- Where a block and its scope are resolved. -/
def siteOf (object : ObjectProgram) (table : Constants) (site : Scope × Block) : Site :=
  { program := object, constants := table, block := site.2.name, scope := site.1 }

/-- What the first pass makes of a block that it accepts: a name is left exactly where there is one
without meaning. -/
structure Passed (object : ObjectProgram) (table : Constants) (called : CallSite → Prop)
    (arm : String → Prop) (site : Scope × Block) (loose : LooseBlock) : Prop where
  name : loose.name = site.2.name
  settled : ∀ result ∈ loose.instrs, Site.Patchable arm result ∨
    (object.siteOf table site).Leftover object.constants called result
  left_iff : (∃ result ∈ loose.instrs,
    (object.siteOf table site).Leftover object.constants called result) ↔ object.Unreached site

theorem resolveBlock_cases {object : ObjectProgram} {table : Constants} {called : CallSite → Prop}
    {arm : String → Prop}
    (ofConstants : ∀ name body, object.constants.body? name = some body →
      ∀ instr ∈ body, Straight called instr)
    (expanded : object.constants.expandAll = .ok table) {site : Scope × Block}
    (ofBlock : ∀ instr ∈ site.2.instrs, BlockInstr called arm instr) :
    (∃ error, object.resolveBlock table site = .error error ∧
      (object.siteOf table site).Rejects object.constants error ∧ object.Unreached site) ∨
    ∃ loose, object.resolveBlock table site = .ok loose ∧
      object.Passed table called arm site loose := by
  have sifts := (object.siteOf table site).sifts_resolveAll ofConstants expanded ofBlock
  have unfolded : object.resolveBlock table site =
      (object.siteOf table site).resolveAll site.2.instrs >>= fun results =>
        .ok ⟨site.2.name, results⟩ := rfl
  rw [unfolded]
  cases resolved : (object.siteOf table site).resolveAll site.2.instrs with
  | error error =>
    rw [resolved] at sifts
    exact .inl ⟨error, rfl, sifts⟩
  | ok results =>
    rw [resolved] at sifts
    exact .inr ⟨⟨site.2.name, results⟩, rfl, rfl, sifts.1, sifts.2⟩

/-- The first pass over all blocks: it stops at one with a name without meaning, or accepts all. -/
theorem first_pass_cases {object : ObjectProgram} {table : Constants} {called : CallSite → Prop}
    {arm : String → Prop}
    (ofConstants : ∀ name body, object.constants.body? name = some body →
      ∀ instr ∈ body, Straight called instr)
    (expanded : object.constants.expandAll = .ok table) {sites : List (Scope × Block)}
    (ofBlocks : ∀ site ∈ sites, ∀ instr ∈ site.2.instrs, BlockInstr called arm instr) :
    (∃ error, sites.mapM (object.resolveBlock table) = .error error ∧ ∃ site ∈ sites,
      (object.siteOf table site).Rejects object.constants error ∧ object.Unreached site) ∨
    ∃ loose, sites.mapM (object.resolveBlock table) = .ok loose ∧
      List.Forall₂ (object.Passed table called arm) sites loose := by
  have each := fun site member =>
    resolveBlock_cases ofConstants expanded (ofBlocks site member)
  cases resolved : sites.mapM (object.resolveBlock table) with
  | error error =>
    obtain ⟨site, member, failed⟩ := exists_of_mapM_eq_error resolved
    rcases each site member with ⟨other, alsoFailed, rejects⟩ | ⟨loose, succeeded, -⟩
    · rw [failed] at alsoFailed
      cases alsoFailed
      exact .inl ⟨error, rfl, site, member, rejects⟩
    · rw [failed] at succeeded
      cases succeeded
  | ok loose =>
    refine .inr ⟨loose, rfl, forall₂_imp_of_mem (mapM_eq_ok.mp resolved) ?_⟩
    intro site member block succeeded
    rcases each site member with ⟨error, failed, -⟩ | ⟨other, alsoSucceeded, passed⟩
    · rw [succeeded] at failed
      cases failed
    · rw [succeeded] at alsoSucceeded
      cases alsoSucceeded
      exact passed

/-- The second pass over blocks that went through the first: it stops at a name without meaning, or
there is none. -/
theorem second_pass_cases {options : Options} {object : ObjectProgram} {table : Constants}
    {called : CallSite → Prop} (title : String) {declared : List String}
    {sites : List (Scope × Block)} {loose : List LooseBlock}
    (passed : List.Forall₂ (object.Passed table called (· ∈ loose.map LooseBlock.name)) sites loose)
    (functions : ∀ name ∈ options.entry :: declared, name ∈ loose.map LooseBlock.name)
    (unplaced : ∀ call, called call → object.function? call.func = none →
      call.func ∉ loose.map LooseBlock.name) :
    ((∀ site ∈ sites, ¬ object.Unreached site) ∧
      ∃ listing, finish options title declared loose = .ok listing) ∨
    ∃ site ∈ sites, object.Unreached site ∧ ∃ name, ¬ site.1.Binds name ∧
      object.constants.body? name = none ∧ object.function? name = none ∧
      finish options title declared loose =
        .error (.unresolvedTarget { symbol := name, block := site.2.name }) := by
  -- a name that the first pass left names no block
  have left_of_leftover : ∀ {site instr},
      (object.siteOf table site).Leftover object.constants called instr →
      ∃ name, LeftIn loose instr name := by
    rintro site instr ⟨call, comment, isCalled, rfl, -, -, noFunction⟩
    exact ⟨call.func, comment, rfl, unplaced call isCalled noFunction⟩
  have settled : ∀ block ∈ loose, ∀ instr ∈ block.instrs,
      Site.Patchable (· ∈ loose.map LooseBlock.name) instr ∨ ∃ name, LeftIn loose instr name := by
    intro block isBlock instr isInstr
    obtain ⟨site, -, ofSite⟩ := exists_of_mem_right passed isBlock
    exact (ofSite.settled instr isInstr).imp_right left_of_leftover
  rcases finish_cases title functions settled with
    ⟨listing, finished, noneLeft⟩ | ⟨block, isBlock, instr, isInstr, name, left, failed⟩
  · refine .inl ⟨fun site member unreached => ?_, listing, finished⟩
    obtain ⟨block, isBlock, ofSite⟩ := exists_of_mem_left passed member
    obtain ⟨instr, isInstr, leftover⟩ := ofSite.left_iff.mpr unreached
    obtain ⟨name, left⟩ := left_of_leftover leftover
    exact noneLeft block isBlock instr isInstr name left
  · obtain ⟨site, member, ofSite⟩ := exists_of_mem_right passed isBlock
    obtain ⟨comment, rfl, absent⟩ := left
    -- a closure with a name is not an instruction that could be finished
    rcases ofSite.settled _ isInstr with patchable | leftover
    · rcases patchable with noBlocks | ⟨_, _, _, _, _, isBranch⟩
      · cases noBlocks
      · cases isBranch
    · refine .inr ⟨site, member, ofSite.left_iff.mp ⟨_, isInstr, leftover⟩, name, ?_⟩
      obtain ⟨call, _, -, same, unbound, undefined, noFunction⟩ := leftover
      cases same
      rw [ofSite.name] at failed
      exact ⟨unbound, undefined, noFunction, failed⟩

end ObjectProgram

namespace Assembled

variable {options : Options} {program : Program} {object : ObjectProgram}
  {functions : List CompiledFunction} {id : Nat} {main : CompiledFunction}

/-- The blocks of functions are made of instructions of blocks. -/
theorem blockInstr_of_mem_sites
    (assembled : Assembled options program.functions program.constants object functions)
    (isMain : (id, main) ∈ CompiledFunction.number 0 functions)
    (isEntry : main.decl.name = options.entry) :
    ∀ site ∈ ((id, main) :: CompiledFunction.others options.entry functions).flatMap
        (CompiledFunction.sites program.functions main.decl),
      ∀ instr ∈ site.2.instrs,
        BlockInstr (· ∈ program.calls) (· ∈ functions.flatMap CompiledFunction.names) instr := by
  intro site member instr isInstr
  rw [← isEntry, ((assembled.order_perm isMain).flatMap_right _).mem_iff] at member
  obtain ⟨⟨number, function⟩, isNumbered, isSite⟩ := List.mem_flatMap.mp member
  obtain ⟨block, isBlock, rfl⟩ := List.mem_map.mp isSite
  have isFunction := CompiledFunction.mem_of_mem_number isNumbered
  refine (assembled.blockInstr isFunction number block isBlock instr isInstr).mono_arm ?_
  intro name isArm
  exact List.mem_flatMap.mpr ⟨function, isFunction, List.mem_cons_of_mem _ isArm⟩

/-- The names of all functions are names of blocks. -/
theorem name_mem_names
    (assembled : Assembled options program.functions program.constants object functions)
    {decl : FunctionDecl} (isDecl : decl ∈ program.functions) :
    decl.name ∈ functions.flatMap CompiledFunction.names := by
  have member := assembled.name_mem_blocks isDecl
  rwa [assembled.blocks, CompiledFunction.map_name_blocksOf] at member

/-- Names are in scope exactly where linking goes through no block with a name that is not. -/
theorem inScope_iff
    (assembled : Assembled options program.functions program.constants object functions)
    (isMain : (id, main) ∈ CompiledFunction.number 0 functions)
    (isEntry : main.decl.name = options.entry) :
    object.InScope program.functions main.decl ↔
      ∀ site ∈ ((id, main) :: CompiledFunction.others options.entry functions).flatMap
        (CompiledFunction.sites program.functions main.decl), ¬ object.Unreached site := by
  constructor
  · rintro inScope ⟨scope, block⟩ member ⟨instr, isInstr, name, refers, unreached⟩
    obtain ⟨decl, isDecl, isBlock, owns, rfl⟩ :=
      (assembled.mem_sites_iff isMain isEntry _).mp member
    exact unreached (inScope decl isDecl block isBlock owns instr isInstr name refers)
  · intro reached decl isDecl block isBlock owns instr isInstr name refers
    by_contra unreached
    have member := (assembled.mem_sites_iff isMain isEntry
      (framesOf program.functions main.decl decl, block)).mpr ⟨decl, isDecl, isBlock, owns, rfl⟩
    exact reached _ member ⟨instr, isInstr, name, refers, unreached⟩

/-- The reports of the first pass are among those on names out of scope. -/
theorem scopeError_of_rejects
    (assembled : Assembled options program.functions program.constants object functions)
    (dotFree : program.DotFree) {table : Constants} {decl : FunctionDecl} {block : Block}
    (isDecl : decl ∈ program.functions) (isBlock : block ∈ object.blocks)
    (owns : object.Owns decl block) {error : CompileError}
    (rejects : (object.siteOf table (framesOf program.functions main.decl decl, block)).Rejects
      object.constants error) : ScopeError program object main.decl error := by
  cases rejects with
  | symbol unbound undefined =>
    exact .symbol isDecl isBlock owns unbound
      ((assembled.constants.body?_eq_none_iff _).mp undefined)
  | function unbound isFunction =>
    rw [assembled.eq_entry_of_unbound dotFree unbound isFunction]
    exact .entry isBlock

/-- So are those of the second pass. -/
theorem scopeError_of_unresolved
    (assembled : Assembled options program.functions program.constants object functions)
    (dotFree : program.DotFree) {decl : FunctionDecl} {block : Block} {name : String}
    (isDecl : decl ∈ program.functions) (isBlock : block ∈ object.blocks)
    (owns : object.Owns decl block)
    (unbound : ¬ (framesOf program.functions main.decl decl).Binds name)
    (undefined : object.constants.body? name = none) (noFunction : object.function? name = none) :
    ScopeError program object main.decl
      (.unresolvedTarget { symbol := name, block := block.name }) := by
  refine .target isDecl isBlock owns unbound
    ((assembled.constants.body?_eq_none_iff _).mp undefined) fun isName => ?_
  obtain ⟨other, isOther, rfl⟩ := List.mem_map.mp isName
  obtain ⟨number, function, isNumbered, rfl⟩ := assembled.exists_numbered isOther
  rw [(assembled.function?_eq_some_iff dotFree.functions).mpr ⟨function, isNumbered, rfl⟩]
    at noFunction
  cases noFunction

/-- Where the constants can be expanded, names in scope decide. -/
theorem link_outcome
    (assembled : Assembled options program.functions program.constants object functions)
    (dotFree : program.DotFree) (isMain : (id, main) ∈ CompiledFunction.number 0 functions)
    (isEntry : main.decl.name = options.entry) {table : Constants}
    (expanded : object.constants.expandAll = .ok table) :
    (object.InScope program.functions main.decl ∧
      ∃ listing, object.link options = .ok listing) ∨
    (¬ object.InScope program.functions main.decl ∧
      ∃ error, object.link options = .error error ∧
        ScopeError program object main.decl error) := by
  have members := assembled.mem_sites_iff isMain isEntry
  have ofBlocks := assembled.blockInstr_of_mem_sites isMain isEntry
  have names := CompiledFunction.map_name_sites program.functions main.decl
    ((id, main) :: CompiledFunction.others options.entry functions)
  have perm := (assembled.order_perm isMain).map Prod.snd
  rw [isEntry, CompiledFunction.map_snd_number] at perm
  rw [assembled.link_eq (assembled.entry_eq dotFree.functions isMain isEntry) isMain isEntry,
    expanded, ok_bind, assembled.inScope_iff isMain isEntry]
  -- from here on only the members and the names of what linking goes through count
  generalize ((id, main) :: CompiledFunction.others options.entry functions).flatMap
    (CompiledFunction.sites program.functions main.decl) = sites at members ofBlocks names ⊢
  rcases ObjectProgram.first_pass_cases assembled.straight expanded ofBlocks with
    ⟨error, failed, ⟨scope, block⟩, member, rejects, unreached⟩ | ⟨loose, resolved, passed⟩
  · refine .inr ⟨fun reached => reached _ member unreached, error, ?_, ?_⟩
    · rw [failed, error_bind]
    · obtain ⟨decl, isDecl, isBlock, owns, rfl⟩ := (members _).mp member
      exact assembled.scopeError_of_rejects dotFree isDecl isBlock owns rejects
  · have looseNames : ∀ name, name ∈ functions.flatMap CompiledFunction.names ↔
        name ∈ loose.map LooseBlock.name := by
      intro name
      rw [map_eq_map_of_forall₂ (f := fun site => site.2.name) passed fun _ _ same => same.name,
        names, (perm.flatMap_right _).mem_iff]
    rw [funext fun name => propext (looseNames name)] at passed
    have declared : ∀ name ∈ options.entry :: declarations program.functions options.entry,
        name ∈ loose.map LooseBlock.name := by
      intro name isFunction
      rw [← looseNames]
      rcases List.mem_cons.mp isFunction with rfl | isDeclared
      · rw [← isEntry]
        exact assembled.name_mem_names
          (assembled.mem_sources (CompiledFunction.mem_of_mem_number isMain))
      · obtain ⟨decl, isDecl, rfl⟩ := List.mem_map.mp isDeclared
        exact assembled.name_mem_names (List.mem_of_mem_filter isDecl)
    -- a called name has no dot, so it is not the name of an arm either
    have unplaced : ∀ call, call ∈ program.calls → object.function? call.func = none →
        call.func ∉ loose.map LooseBlock.name := by
      intro call isCall noFunction
      rw [← looseNames]
      exact assembled.not_mem_names dotFree.functions (dotFree.calls call isCall) noFunction
    rw [resolved, ok_bind]
    rcases ObjectProgram.second_pass_cases object.name passed declared unplaced with
      ⟨reached, finished⟩ |
      ⟨⟨scope, block⟩, member, unreached, name, unbound, undefined, noFunction, failed⟩
    · exact .inl ⟨reached, finished⟩
    · refine .inr ⟨fun reached => reached _ member unreached, _, failed, ?_⟩
      obtain ⟨decl, isDecl, isBlock, owns, rfl⟩ := (members _).mp member
      exact assembled.scopeError_of_unresolved dotFree isDecl isBlock owns unbound undefined
        noFunction

end Assembled

/-! ## Linked instructions -/

/-- No operand is a name any more: a load has an address, and what enters blocks has offsets. -/
structure Instr.Resolved (instr : Instr) : Prop where
  noName : ∀ symbol, .name symbol ∉ instr.args
  address : instr.opcode = .ld → ∃ depth index, instr.args = [.int depth, .int index]
  targets : instr.opcode = .ldf ∨ instr.opcode = .sel →
    ∀ arg ∈ instr.args, ∃ position, arg = .offset position

namespace Instr.Resolved

theorem of_plain (opcode : Opcode) (notLoad : opcode ≠ .ld) : (Instr.plain opcode).Resolved :=
  ⟨by simp [Instr.plain], fun isLoad => absurd isLoad notLoad, by simp [Instr.plain]⟩

theorem of_count {opcode : Opcode} (notLoad : opcode ≠ .ld) (noBlocks : opcode.takesBlocks = false)
    (count : Nat) : (⟨opcode, [.count count], none⟩ : Instr).Resolved := by
  refine ⟨by simp [Operand.count], fun isLoad => absurd isLoad notLoad, fun entersBlocks => ?_⟩
  rcases entersBlocks with rfl | rfl <;> cases noBlocks

theorem of_offsets {opcode : Opcode} (notLoad : opcode ≠ .ld) (positions : List Nat) :
    (⟨opcode, positions.map .offset, none⟩ : Instr).Resolved := by
  refine ⟨by simp, fun isLoad => absurd isLoad notLoad, fun _ arg isArg => ?_⟩
  obtain ⟨position, -, rfl⟩ := List.mem_map.mp isArg
  exact ⟨position, rfl⟩

theorem of_computes {scope : Scope} {instr : Instr} (computes : Computes scope instr) :
    instr.Resolved := by
  cases computes with
  | number value => exact ⟨by simp [Instr.ldc], by simp [Instr.ldc], by simp [Instr.ldc]⟩
  | text source => exact ⟨by simp [Instr.ldcText], by simp [Instr.ldcText], by simp [Instr.ldcText]⟩
  | @load name address found =>
    exact ⟨by simp [Instr.ldAddress, Operand.count], fun _ => ⟨_, _, rfl⟩, by simp [Instr.ldAddress]⟩
  | apply argCount => exact of_count (by simp) rfl argCount
  | @operation opcode computes =>
    refine of_plain opcode ?_
    rintro rfl
    cases computes

theorem of_startCode (entry : Nat) (declared : List Nat) :
    ∀ instr ∈ startCode entry declared, instr.Resolved := by
  have closure : ∀ position, (Instr.ldfOffset position).Resolved :=
    fun position => of_offsets (by simp) [position]
  have last : (Instr.plain .rtn).Resolved := of_plain .rtn (by simp)
  unfold startCode
  split
  · have applies : (Instr.ap 0).Resolved := of_count (by simp) rfl 0
    simp [closure, last, applies]
  · simp only [List.cons_append, List.mem_cons, List.mem_append, List.mem_map, List.not_mem_nil,
      or_false]
    rintro instr (rfl | ⟨position, -, rfl⟩ | rfl | rfl | rfl)
    · exact of_count (by simp) rfl _
    · exact closure position
    · exact closure entry
    · exact of_count (by simp) rfl _
    · exact last

end Instr.Resolved

theorem Routine.StaysInside.resolved {program : Program} {main : FunctionDecl} {depth : Nat}
    {routine : Routine} {code : List Instr}
    (inside : routine.StaysInside program main depth code) : ∀ instr ∈ code, instr.Resolved := by
  intro instr member
  obtain ⟨index, isInstr⟩ := List.mem_iff_getElem?.mp member
  obtain ⟨-, computes, branches⟩ := inside index instr isInstr
  by_cases isBranch : instr.opcode = .sel
  · obtain ⟨_, -, thenBlock, elseBlock, target⟩ := branches isBranch
    have operands := target.operands
    refine ⟨by simp [operands], by simp [isBranch], fun _ arg isArg => ?_⟩
    rw [operands] at isArg
    rcases List.mem_cons.mp isArg with rfl | isElse
    · exact ⟨_, rfl⟩
    · exact ⟨_, List.mem_singleton.mp isElse⟩
  · exact .of_computes (computes isBranch)

/-- In a listing there are no names left. -/
theorem Image.resolved {options : Options} {program : Program} {listing : Listing}
    {main : Routine} {others : List Routine} {depth : Nat}
    (image : Image options program listing main others depth) :
    ∀ instr ∈ listing.instructions, instr.Resolved := by
  -- opcode and operands of an instruction do not depend on its comment
  have uncomment : ∀ {instr : Instr}, instr.uncommented.Resolved → instr.Resolved :=
    fun resolved => ⟨resolved.noName, resolved.address, resolved.targets⟩
  have ended : ∀ {code : List Instr} {opcode : Opcode}, opcode ≠ .ld →
      (∀ instr ∈ code, instr.Resolved) → ∀ instr ∈ code ++ [.plain opcode], instr.Resolved := by
    intro code opcode notLoad ofCode instr member
    rcases List.mem_append.mp member with inCode | isLast
    · exact ofCode instr inCode
    · rw [List.mem_singleton.mp isLast]
      exact .of_plain opcode notLoad
  intro instr member
  refine uncomment ?_
  rcases List.mem_append.mp member with inPreamble | inBlocks
  · have listed := List.mem_map_of_mem (f := Instr.uncommented) inPreamble
    rw [image.start] at listed
    exact .of_startCode _ _ _ listed
  · obtain ⟨block, isBlock, inBlock⟩ := List.mem_flatMap.mp inBlocks
    have listed : instr.uncommented ∈ block.bare := List.mem_map_of_mem inBlock
    rw [image.blocks] at isBlock
    obtain ⟨routine, isRoutine, ofRoutine⟩ := List.mem_flatMap.mp isBlock
    obtain ⟨⟨code, bare, inside⟩, ofArms⟩ := image.staysInside routine isRoutine
    rcases List.mem_cons.mp ofRoutine with rfl | isArm
    · rw [bare] at listed
      exact ended (by simp) inside.resolved _ listed
    · obtain ⟨armCode, armBare, armInside⟩ := ofArms block isArm
      rw [armBare] at listed
      exact ended (by simp) armInside.resolved _ listed

/-! ## The condition for linking -/

/-- A generated program can be linked exactly where its entry function is declared, its constants
are closed, and every name in a block is in scope there or is a constant that calls only what is in
scope. Then no name is left in the listing. Where the first two conditions hold and the third does
not, the report is one of three: an unresolved symbol or an unresolved target that is neither in
scope nor defined, or the entry function, which cannot be called. -/
theorem link_succeeds_iff_in_scope {options : Options} {program : Program} {object : ObjectProgram}
    (dotFree : program.DotFree) (generated : program.object options = .ok object) :
    ((∃ listing, object.link options = .ok listing) ↔
      ∃ main ∈ program.functions, main.name = options.entry ∧ program.ConstantsClosed ∧
        object.InScope program.functions main) ∧
    (∀ listing, object.link options = .ok listing →
      ∀ instr ∈ listing.instructions, instr.Resolved) ∧
    ∀ main ∈ program.functions, main.name = options.entry → program.ConstantsClosed →
      ¬ object.InScope program.functions main →
      ∃ error, object.link options = .error error ∧ ScopeError program object main error := by
  obtain ⟨functions, assembled⟩ := Program.assembled_of_object generated
  -- what linking does when the entry function is declared and the constants can be expanded
  have outcome : ∀ main ∈ program.functions, main.name = options.entry → program.ConstantsClosed →
      (object.InScope program.functions main ∧ ∃ listing, object.link options = .ok listing) ∨
      (¬ object.InScope program.functions main ∧ ∃ error, object.link options = .error error ∧
        ScopeError program object main error) := by
    intro main isFunction isEntry closed
    obtain ⟨table, expanded⟩ := assembled.expandAll_iff.mpr closed
    obtain ⟨id, function, isMain, rfl⟩ := assembled.exists_numbered isFunction
    exact assembled.link_outcome dotFree isMain isEntry expanded
  refine ⟨⟨?_, ?_⟩, ?_, ?_⟩
  · rintro ⟨listing, linked⟩
    obtain ⟨_, id, main, table, ofListing⟩ := Linked.of_link dotFree generated linked
    have isFunction := ofListing.assembled.mem_sources
      (CompiledFunction.mem_of_mem_number ofListing.isMain)
    have closed := assembled.expandAll_iff.mp ⟨table, ofListing.expanded⟩
    refine ⟨main.decl, isFunction, ofListing.isEntry, closed, ?_⟩
    rcases outcome main.decl isFunction ofListing.isEntry closed with ⟨inScope, -⟩ | ⟨-, _, failed, -⟩
    · exact inScope
    · rw [linked] at failed
      cases failed
  · rintro ⟨main, isFunction, isEntry, closed, inScope⟩
    rcases outcome main isFunction isEntry closed with ⟨-, linked⟩ | ⟨outOfScope, -⟩
    · exact linked
    · exact absurd inScope outOfScope
  · intro listing linked
    have compiled : compile options program = .ok listing := by rw [compile, generated]; exact linked
    obtain ⟨main, others, depth, image⟩ := Image.of_compile dotFree compiled
    exact image.resolved
  · intro main isFunction isEntry closed outOfScope
    rcases outcome main isFunction isEntry closed with ⟨inScope, -⟩ | ⟨-, failed⟩
    · exact absurd inScope outOfScope
    · exact failed

theorem link_succeeds_iff_in_scope_countdown :
    ∃ object, countdown.object {} = .ok object ∧
      ∃ main ∈ countdown.functions, main.name = "main" ∧ countdown.ConstantsClosed ∧
        object.InScope countdown.functions main := by
  obtain ⟨listing, compiled⟩ := countdown_compiles
  obtain ⟨object, generated, linked⟩ := bind_eq_ok.mp compiled
  obtain ⟨condition, -⟩ := link_succeeds_iff_in_scope countdown_dotFree generated
  exact ⟨object, generated, condition.mp ⟨listing, linked⟩⟩

end Secd
