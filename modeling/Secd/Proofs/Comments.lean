import Secd.Proofs.Linking

namespace Secd

open Results

/-! # Comments never influence code

Comments are merged and passed on by almost every step of linking: where a constant is put in the
place of a reference, where a name becomes an address, where names of blocks become offsets. All of
these steps commute with leaving comments out. So linking a program without comments gives what is
left of its listing without comments (`ObjectProgram.IsBare.link_eq`), reports included, and two
programs that differ in comments only have one such program in common.

The table of expanded constants is kept from one constant to the next, so for an expander the
statement is about the table as well (`Expander.Strips`).
-/

/-! ## Leaving comments out -/

def Constants.uncommented (constants : Constants) : Constants :=
  constants.map fun (name, body) => (name, body.map Instr.uncommented)

def Block.uncommented (block : Block) : Block :=
  { block with instrs := block.instrs.map Instr.uncommented }

def LooseBlock.uncommented (block : LooseBlock) : LooseBlock :=
  { block with instrs := block.instrs.map Instr.uncommented }

def PlacedBlock.uncommented (block : PlacedBlock) : PlacedBlock :=
  { block with instrs := block.instrs.map Instr.uncommented }

def Listing.uncommented (listing : Listing) : Listing where
  name := listing.name
  preamble := listing.preamble.map Instr.uncommented
  blocks := listing.blocks.map PlacedBlock.uncommented

def ObjectProgram.uncommented (program : ObjectProgram) : ObjectProgram :=
  { program with
    blocks := program.blocks.map Block.uncommented
    constants := program.constants.uncommented }

namespace Instr

@[simp] theorem opcode_uncommented (instr : Instr) : instr.uncommented.opcode = instr.opcode := rfl

@[simp] theorem symbol?_uncommented (instr : Instr) :
    instr.uncommented.symbol? = instr.symbol? := rfl

@[simp] theorem reference?_uncommented (instr : Instr) :
    instr.uncommented.reference? = instr.reference? := rfl

theorem splice_uncommented (reference : Instr) (body : List Instr) :
    reference.uncommented.splice (body.map uncommented) =
      (reference.splice body).map uncommented := by
  simp [splice, uncommented, orCommented]

end Instr

theorem Constants.body?_uncommented (constants : Constants) (name : String) :
    constants.uncommented.body? name = (constants.body? name).map (List.map Instr.uncommented) := by
  induction constants with
  | nil => rfl
  | cons entry rest ih =>
    simp only [uncommented, List.map_cons] at ih ⊢
    by_cases isName : name = entry.1
    · simp [body?_cons, isName]
    · simp [body?_cons, isName, ih]

theorem targetOffset?_uncommented (layout : List PlacedBlock) :
    targetOffset? (layout.map PlacedBlock.uncommented) = targetOffset? layout := by
  funext name
  rw [targetOffset?_eq_lookup, targetOffset?_eq_lookup, List.map_map]
  rfl

theorem placeBlocks_uncommented (blocks : List LooseBlock) (offset : Nat) :
    placeBlocks offset (blocks.map LooseBlock.uncommented) =
      (placeBlocks offset blocks).map PlacedBlock.uncommented := by
  induction blocks generalizing offset with
  | nil => rfl
  | cons block rest ih => simp [placeBlocks, LooseBlock.uncommented, PlacedBlock.uncommented, ih]

/-! ## Expanding constants -/

/-- On tables without comments `bare` does what `full` does; `f` leaves comments out of the result.
-/
def Expander.Strips {α β : Type} (f : α → β) (bare : Expander β) (full : Expander α) : Prop :=
  ∀ known, bare known.uncommented =
    (full known).map fun result => (f result.1, result.2.uncommented)

namespace Expander.Strips

variable {α β γ δ : Type} {f : α → β}

theorem pure (value : α) : Strips f (Pure.pure (f value)) (Pure.pure value) := fun _ => rfl

theorem throw (error : CompileError) :
    Strips f (MonadExcept.throw error) (MonadExcept.throw error) := fun _ => rfl

theorem bind {g : γ → δ} {bare : Expander β} {full : Expander α} {bareNext : β → Expander δ}
    {next : α → Expander γ} (strips : Strips f bare full)
    (each : ∀ value, Strips g (bareNext (f value)) (next value)) :
    Strips g (bare >>= bareNext) (full >>= next) := by
  intro known
  show (bare known.uncommented >>= fun result => bareNext result.1 result.2) =
    (full known >>= fun result => next result.1 result.2).map _
  rw [strips known]
  cases full known with
  | error error => rfl
  | ok result => exact each result.1 result.2

theorem mapM {h : γ → δ} {bareStep : δ → Expander β} {step : γ → Expander α}
    (each : ∀ input, Strips f (bareStep (h input)) (step input)) (inputs : List γ) :
    Strips (List.map f) ((inputs.map h).mapM bareStep) (inputs.mapM step) := by
  induction inputs with
  | nil => exact pure []
  | cons input rest ih =>
    rw [List.map_cons, List.mapM_cons, List.mapM_cons]
    exact (each input).bind fun first => ih.bind fun others => pure (first :: others)

theorem once (name : String) {bare full : Expander (List Instr)}
    (strips : Strips (List.map Instr.uncommented) bare full) :
    Strips (List.map Instr.uncommented) (Expander.once name bare) (Expander.once name full) := by
  intro known
  simp only [Expander.once, Constants.body?_uncommented]
  cases known.body? name with
  | some expansion => rfl
  | none =>
    simp only [Option.map_none, strips known]
    cases full known <;> rfl

/-- What is computed from an empty table. -/
theorem run' {bare : Expander β} {full : Expander α} (strips : Strips f bare full) :
    bare.run' [] = (full.run' []).map f := by
  have computed : bare [] = (full []).map fun result => (f result.1, result.2.uncommented) :=
    strips []
  show Prod.fst <$> bare [] = (Prod.fst <$> full []).map f
  rw [computed]
  cases full [] <;> rfl

end Expander.Strips

namespace Constants

open Expander

theorem strips_expandInstr (constants : Constants) (owner : String)
    {bare full : String → Expander (List Instr)}
    (each : ∀ name, Strips (List.map Instr.uncommented) (bare name) (full name)) (instr : Instr) :
    Strips (List.map Instr.uncommented)
      (constants.uncommented.expandInstr owner bare instr.uncommented)
      (constants.expandInstr owner full instr) := by
  simp only [expandInstr, Instr.reference?_uncommented, body?_uncommented, Option.isSome_map]
  cases instr.reference? with
  | none => exact .pure [instr]
  | some name =>
    by_cases isConstant : (constants.body? name).isSome
    · simp only [if_pos isConstant]
      refine (each name).bind fun inner => ?_
      rw [Instr.splice_uncommented]
      exact .pure (instr.splice inner)
    · simp only [if_neg isConstant]
      by_cases isLoad : instr.opcode = .ld
      · have bareLoad : instr.uncommented.opcode = .ld := isLoad
        rw [if_pos isLoad, if_pos bareLoad]
        exact .throw _
      · have noBareLoad : instr.uncommented.opcode ≠ .ld := isLoad
        rw [if_neg isLoad, if_neg noBareLoad]
        exact .pure [instr]

theorem strips_expandFrom (constants : Constants) (depth : Nat) (path : List String)
    (name : String) :
    Strips (List.map Instr.uncommented) (constants.uncommented.expandFrom depth path name)
      (constants.expandFrom depth path name) := by
  induction depth generalizing path name with
  | zero => exact .throw _
  | succ depth ih =>
    refine .once name ?_
    by_cases isOpen : name ∈ path
    · simp only [if_pos isOpen]
      exact .throw _
    · simp only [if_neg isOpen, body?_uncommented]
      cases constants.body? name with
      | none => exact .throw _
      | some body =>
        have each := constants.strips_expandInstr name (ih (name :: path))
        refine (Strips.mapM each body).bind fun parts => ?_
        rw [← List.map_flatten]
        exact .pure parts.flatten

theorem strips_expandEach (constants : Constants) :
    Strips uncommented constants.uncommented.expandEach constants.expandEach := by
  refine Strips.mapM (fun entry => ?_) constants
  have ofName : Strips (List.map Instr.uncommented) (constants.uncommented.expand entry.1)
      (constants.expand entry.1) := by
    have sameBound : constants.uncommented.length = constants.length := by simp [uncommented]
    rw [expand, sameBound]
    exact constants.strips_expandFrom _ [] entry.1
  exact ofName.bind fun expansion => .pure (entry.1, expansion)

theorem expandAll_uncommented (constants : Constants) :
    constants.uncommented.expandAll = constants.expandAll.map uncommented :=
  constants.strips_expandEach.run'

end Constants

/-! ## Resolving names -/

namespace Site

/-- The same place in a program without comments. -/
structure IsBare (bare site : Site) : Prop where
  function?_eq : ∀ name, bare.program.function? name = site.program.function? name
  constants : bare.constants = site.constants.uncommented
  block : bare.block = site.block
  scope : bare.scope = site.scope

variable {bare site : Site}

theorem loadVariable_uncommented (instr : Instr) (address : Address) :
    loadVariable instr.uncommented address = (loadVariable instr address).uncommented := rfl

theorem IsBare.resolveClosure_eq (isBare : bare.IsBare site) (instr : Instr) :
    bare.resolveClosure instr.uncommented =
      (site.resolveClosure instr).map Instr.uncommented := by
  simp only [resolveClosure, Instr.opcode_uncommented, Instr.symbol?_uncommented,
    loadVariable_uncommented, isBare.function?_eq, isBare.block, isBare.scope]
  split
  · split
    · rfl
    · split <;> rfl
  · rfl

theorem IsBare.resolve_eq (isBare : bare.IsBare site) (instr : Instr) :
    bare.resolve instr.uncommented =
      (site.resolve instr).map (List.map Instr.uncommented) := by
  unfold resolve
  rw [Instr.reference?_uncommented]
  cases instr.reference? with
  | none => rfl
  | some name =>
    simp only [isBare.scope, isBare.block, isBare.constants, Constants.body?_uncommented,
      isBare.resolveClosure_eq]
    cases site.scope.address? name with
    | some address => rfl
    | none =>
      cases site.constants.body? name with
      | some body =>
        simp only [Option.map_some, mapM_map_eq isBare.resolveClosure_eq, exceptMap_bind,
          bind_exceptMap, Instr.splice_uncommented]
        rfl
      | none =>
        by_cases isClosure : instr.opcode = .ldf
        · have bareClosure : instr.uncommented.opcode = .ldf := isClosure
          simp only [Option.map_none, if_pos isClosure, if_pos bareClosure, exceptMap_bind,
            bind_exceptMap]
          rfl
        · have noBareClosure : instr.uncommented.opcode ≠ .ldf := isClosure
          simp only [Option.map_none, if_neg isClosure, if_neg noBareClosure]
          rfl

theorem IsBare.resolveAll_eq (isBare : bare.IsBare site) (instrs : List Instr) :
    bare.resolveAll (instrs.map Instr.uncommented) =
      (site.resolveAll instrs).map (List.map Instr.uncommented) := by
  simp only [resolveAll, mapM_map_eq isBare.resolve_eq, exceptMap_bind, bind_exceptMap,
    ← List.map_flatten]
  rfl

end Site

/-! ## Patching -/

namespace Instr

/-- Patching without comments drops them, whether they were there or not. -/
theorem patch_withoutComments (options : Options) (layout : List PlacedBlock) (block : String)
    (instr : Instr) :
    instr.patch (options.withComments false) (layout.map PlacedBlock.uncommented) block =
      (instr.patch options layout block).map uncommented := by
  have sameOperands :
      Operand.patch (layout.map PlacedBlock.uncommented) = Operand.patch layout := by
    funext place operand
    cases operand <;> simp only [Operand.patch, targetOffset?_uncommented]
  simp only [patch, patchArgs, sameOperands, exceptMap_bind]
  rfl

theorem patch_uncommented (options : Options) (layout : List PlacedBlock) (block : String)
    (instr : Instr) :
    instr.uncommented.patch (options.withComments false) (layout.map PlacedBlock.uncommented)
      block = (instr.patch options layout block).map uncommented :=
  patch_withoutComments options layout block instr

end Instr

theorem PlacedBlock.patch_uncommented (options : Options) (layout : List PlacedBlock)
    (block : PlacedBlock) :
    block.uncommented.patch (options.withComments false) (layout.map PlacedBlock.uncommented) =
      (block.patch options layout).map PlacedBlock.uncommented := by
  simp only [PlacedBlock.patch, PlacedBlock.uncommented,
    mapM_map_eq (Instr.patch_uncommented options layout block.name), exceptMap_bind, bind_exceptMap]
  rfl

/-! ## Linking -/

namespace ObjectProgram

/-- Linking in two passes, the second of which is `finish`. -/
theorem link_eq_finish (options : Options) (program : ObjectProgram) :
    program.link options = (do
      let entry ← program.entry options.entry
      let table ← program.constants.expandAll
      let declared ← program.blockNames (program.others entry)
      let block ← program.block entry
      let first ← program.resolveTree table [declared, block.frame] entry
      let later ← (program.others entry).mapM
        (program.resolveFunction table [declared, block.frame])
      finish options program.name declared (first ++ later.flatten)) := rfl

/-- The first program is the second one without comments. The index is compared by what is found in
it. -/
structure IsBare (bare program : ObjectProgram) : Prop where
  name : bare.name = program.name
  blocks : bare.blocks = program.blocks.map Block.uncommented
  find?_eq : ∀ name, bare.find? name = program.find? name
  functions : bare.functions = program.functions
  constants : bare.constants = program.constants.uncommented

namespace IsBare

variable {bare program : ObjectProgram}

theorem function?_eq (isBare : bare.IsBare program) (name : String) :
    bare.function? name = program.function? name := by
  rw [function?, function?, isBare.find?_eq, isBare.functions]

theorem entry_eq (isBare : bare.IsBare program) (name : String) :
    bare.entry name = program.entry name := by
  rw [entry, entry, isBare.function?_eq]

theorem block_eq (isBare : bare.IsBare program) (id : BlockId) :
    bare.block id = (program.block id).map Block.uncommented := by
  simp only [block, isBare.blocks, List.getElem?_map]
  cases program.blocks[id]? <;> rfl

theorem others_eq (isBare : bare.IsBare program) (entry : BlockId) :
    bare.others entry = program.others entry := by
  rw [others, others, isBare.functions]

theorem blockNames_eq (isBare : bare.IsBare program) (ids : List BlockId) :
    bare.blockNames ids = program.blockNames ids := by
  refine mapM_congr fun id _ => ?_
  rw [isBare.block_eq, bind_exceptMap]
  rfl

theorem visitFrom_eq {α β : Type} (isBare : bare.IsBare program) {f : α → β}
    {bareVisit : Block → Except CompileError β} {visit : Block → Except CompileError α}
    (each : ∀ block, bareVisit block.uncommented = (visit block).map f) (depth : Nat)
    (root : BlockId) :
    bare.visitFrom bareVisit depth root =
      (program.visitFrom visit depth root).map (List.map f) := by
  induction depth generalizing root with
  | zero => rfl
  | succ depth ih =>
    have nested (block : Block) :
        block.uncommented.children.mapM (bare.visitFrom bareVisit depth) =
          (block.children.mapM (program.visitFrom visit depth)).map (List.map (List.map f)) :=
      mapM_exceptMap ih block.children
    simp only [visitFrom, isBare.block_eq, each, nested, exceptMap_bind, bind_exceptMap,
      ← List.map_flatten]
    rfl

theorem resolveTree_eq (isBare : bare.IsBare program) (constants : Constants) (scope : Scope)
    (id : BlockId) :
    bare.resolveTree constants.uncommented scope id =
      (program.resolveTree constants scope id).map (List.map LooseBlock.uncommented) := by
  rw [resolveTree, visitTree, isBare.blocks, List.length_map]
  refine isBare.visitFrom_eq (fun block => ?_) _ id
  have isBareSite : Site.IsBare ⟨bare, constants.uncommented, block.name, scope⟩
      ⟨program, constants, block.name, scope⟩ := ⟨isBare.function?_eq, rfl, rfl, rfl⟩
  have resolved := isBareSite.resolveAll_eq block.instrs
  simp only [Block.uncommented, resolved, exceptMap_bind, bind_exceptMap]
  rfl

theorem resolveFunction_eq (isBare : bare.IsBare program) (constants : Constants) (outer : Scope)
    (id : BlockId) :
    bare.resolveFunction constants.uncommented outer id =
      (program.resolveFunction constants outer id).map (List.map LooseBlock.uncommented) := by
  simp only [resolveFunction, isBare.block_eq, isBare.resolveTree_eq, exceptMap_bind,
    bind_exceptMap]
  rfl

theorem finish_eq (options : Options) (name : String) (declared : List String)
    (loose : List LooseBlock) :
    finish (options.withComments false) name declared (loose.map LooseBlock.uncommented) =
      (finish options name declared loose).map Listing.uncommented := by
  have start (layout : List PlacedBlock) :=
    mapM_exceptMap (Instr.patch_withoutComments options layout "preamble")
  have blocks (layout : List PlacedBlock) := mapM_map_eq
    (PlacedBlock.patch_uncommented options layout) layout
  simp only [finish, placeBlocks_uncommented, start, blocks, exceptMap_bind, bind_exceptMap]
  rfl

/-- Linking a program without comments gives its listing without comments, or the same report. -/
theorem link_eq (isBare : bare.IsBare program) (options : Options) :
    bare.link (options.withComments false) =
      (program.link options).map Listing.uncommented := by
  have main (table : Constants) (scope : Scope) (entry : BlockId) :=
    isBare.resolveTree_eq table scope entry
  have rest (table : Constants) (scope : Scope) :=
    mapM_exceptMap (isBare.resolveFunction_eq table scope)
  have finished (declared : List String) (first : List LooseBlock)
      (later : List (List LooseBlock)) := finish_eq options program.name declared
        (first ++ later.flatten)
  have sameEntry : (options.withComments false).entry = options.entry := rfl
  simp only [link_eq_finish, sameEntry, isBare.entry_eq, isBare.constants,
    Constants.expandAll_uncommented, isBare.others_eq, isBare.blockNames_eq, isBare.block_eq,
    isBare.name, main, rest, exceptMap_bind, bind_exceptMap, ← finished, List.map_append,
    List.map_flatten, Block.uncommented]

end IsBare

/-! ## Programs that differ in comments -/

/-- The programs are the same but for comments. -/
structure SameCode (first second : ObjectProgram) : Prop where
  name : first.name = second.name
  blocks : first.blocks.map Block.uncommented = second.blocks.map Block.uncommented
  find?_eq : ∀ name, first.find? name = second.find? name
  functions : first.functions = second.functions
  constants : first.constants.uncommented = second.constants.uncommented

theorem isBare_uncommented (program : ObjectProgram) : program.uncommented.IsBare program :=
  ⟨rfl, rfl, fun _ => rfl, rfl, rfl⟩

theorem SameCode.isBare {first second : ObjectProgram} (same : first.SameCode second) :
    first.uncommented.IsBare second :=
  ⟨same.name, same.blocks, same.find?_eq, same.functions, same.constants⟩

theorem comment_eq_none_of_patch {options : Options} (drops : options.comments = false)
    {layout : List PlacedBlock} {block : String} {instrs patched : List Instr}
    (patches : instrs.mapM (Instr.patch options layout block) = .ok patched) :
    ∀ instr ∈ patched, instr.comment = none := by
  intro instr member
  obtain ⟨source, -, patchedTo⟩ := exists_of_mem_right (mapM_eq_ok.mp patches) member
  obtain ⟨args, -, rfl⟩ := Instr.patch_eq_ok.mp patchedTo
  simp [drops]

/-- A listing that is asked for without comments has none. -/
theorem comment_eq_none_of_link {options : Options} (drops : options.comments = false)
    {program : ObjectProgram} {listing : Listing} (linked : program.link options = .ok listing) :
    ∀ instr ∈ listing.instructions, instr.comment = none := by
  rw [link_eq_finish] at linked
  simp only [bind_eq_ok] at linked
  obtain ⟨entry, -, table, -, declared, -, body, -, first, -, later, -, finished⟩ := linked
  obtain ⟨start, blocks, -⟩ := finish_eq_ok finished
  intro instr member
  rcases List.mem_append.mp member with inPreamble | inBlocks
  · exact comment_eq_none_of_patch drops start instr inPreamble
  · obtain ⟨block, isBlock, inBlock⟩ := List.mem_flatMap.mp inBlocks
    obtain ⟨loose, -, -, patches⟩ := exists_of_mem_right blocks isBlock
    exact comment_eq_none_of_patch drops patches instr inBlock

theorem map_uncommented_eq_self {instrs : List Instr}
    (bare : ∀ instr ∈ instrs, instr.comment = none) : instrs.map Instr.uncommented = instrs := by
  have each : ∀ instr ∈ instrs, instr.uncommented = instr := by
    intro instr member
    rw [Instr.uncommented, ← bare instr member]
  rw [List.map_congr_left each, List.map_id']

/-- Leaving comments out of a listing that is asked for without them changes nothing. -/
theorem link_withoutComments (options : Options) (program : ObjectProgram) :
    (program.link (options.withComments false)).map Listing.uncommented =
      program.link (options.withComments false) := by
  cases linked : program.link (options.withComments false) with
  | error error => rfl
  | ok listing =>
    have bare := comment_eq_none_of_link rfl linked
    have preamble : listing.preamble.map Instr.uncommented = listing.preamble :=
      map_uncommented_eq_self fun instr member => bare instr (List.mem_append_left _ member)
    have blocks : ∀ block ∈ listing.blocks, block.uncommented = block := by
      intro block isBlock
      rw [PlacedBlock.uncommented, map_uncommented_eq_self fun instr member =>
        bare instr (List.mem_append_right _ (List.mem_flatMap.mpr ⟨block, isBlock, member⟩))]
    show Except.ok listing.uncommented = Except.ok listing
    rw [Listing.uncommented, preamble, List.map_congr_left blocks, List.map_id']

/-- Comments never influence code: two programs that are the same but for comments are refused with
the same report or have listings that are the same but for comments, whether comments are kept in
them or not; without comments the listings are equal. -/
theorem link_ignores_comments {first second : ObjectProgram} (same : first.SameCode second)
    (options : Options) (keep keepOther : Bool) :
    ((∃ error, first.link (options.withComments keep) = .error error ∧
        second.link (options.withComments keepOther) = .error error) ∨
      ∃ listing other, first.link (options.withComments keep) = .ok listing ∧
        second.link (options.withComments keepOther) = .ok other ∧
        listing.uncommented = other.uncommented) ∧
    first.link (options.withComments false) = second.link (options.withComments false) ∧
    ∀ listing, first.link (options.withComments false) = .ok listing →
      ∀ instr ∈ listing.instructions, instr.comment = none := by
  have bare (keep keepOther : Bool) :
      (first.link (options.withComments keep)).map Listing.uncommented =
        (second.link (options.withComments keepOther)).map Listing.uncommented :=
    (first.isBare_uncommented.link_eq (options.withComments keep)).symm.trans
      (same.isBare.link_eq (options.withComments keepOther))
  refine ⟨cases_of_exceptMap_eq (bare keep keepOther), ?_, ?_⟩
  · rw [← first.link_withoutComments, bare false false, second.link_withoutComments]
  · intro listing linked
    exact comment_eq_none_of_link rfl linked

/-- A program with a constant that calls a function, and comments in some places. -/
def annotated : ObjectProgram where
  name := "p"
  blocks := [
    { name := "main", scope := 0, instrs := [(Instr.ld "k").commented "a constant", .plain .rtn] },
    { name := "f", frame := ["x"], scope := 1,
      instrs := [.ld "x", (Instr.plain .rtn).commented "done"] }]
  index := [("f", 1), ("main", 0)]
  functions := [0, 1]
  constants := [("k", [.ldc 1, (Instr.ldf "f").commented "called", .ap 1])]

/-- The same program with comments in other places. -/
def reannotated : ObjectProgram where
  name := "p"
  blocks := [
    { name := "main", scope := 0, instrs := [.ld "k", (Instr.plain .rtn).commented "the end"] },
    { name := "f", frame := ["x"], scope := 1,
      instrs := [(Instr.ld "x").commented "y", .plain .rtn] }]
  index := [("f", 1), ("main", 0)]
  functions := [0, 1]
  constants := [("k", [(Instr.ldc 1).commented "one", .ldf "f", (Instr.ap 1).commented "call"])]

theorem link_ignores_comments_annotated :
    annotated.SameCode reannotated ∧ ∃ listing other, annotated.link {} = .ok listing ∧
      reannotated.link (Options.withComments {} false) = .ok other ∧
      listing.uncommented = other.uncommented := by
  have same : annotated.SameCode reannotated := ⟨rfl, by decide, fun _ => rfl, rfl, by decide⟩
  refine ⟨same, ?_⟩
  rcases (link_ignores_comments same {} true false).1 with ⟨error, failed, -⟩ | linked
  · have succeeds : (annotated.link {}).isOk = true := by decide
    rw [show annotated.link {} = .error error from failed] at succeeds
    cases succeeds
  · exact linked

end ObjectProgram

end Secd
