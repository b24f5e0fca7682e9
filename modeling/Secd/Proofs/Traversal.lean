import Secd.Proofs.Arena
import Secd.Proofs.Expansion
import Secd.Proofs.Linking

namespace Secd

open Results

/-! # Linking goes through every block once

`Walk program roots ids` says that `ids` are the blocks under `roots` in preorder: each root, then
what is nested in it, then the next root. In a forest a walk from the functions, in whatever order
they are taken, meets every block exactly once (`IsForest.walk_perm_range`). The walk that linking
makes is that of the entry function and then of the other functions (`IsForest.link_eq`). It never
follows a number that leads nowhere (`IsForest.grounded_link`), and it resolves each block in the
frame of the function that the block has as its scope.
-/

namespace ObjectProgram

/-! ## Walks -/

/-- The blocks under some roots, each before those nested in it. -/
inductive Walk (program : ObjectProgram) : List BlockId → List BlockId → Prop where
  | nil : Walk program [] []
  | cons {id : Nat} {block : Block} {rest nested later : List BlockId}
      (has : program.Has id block) (inside : Walk program block.children nested)
      (next : Walk program rest later) : Walk program (id :: rest) (id :: (nested ++ later))

namespace Walk

variable {program : ObjectProgram} {roots ids : List BlockId}

/-- Going through roots one after the other, each with all that is nested in it. -/
theorem visit_eq {α : Type} (visit : Block → Except CompileError α)
    (forest : program.IsForest) (walk : program.Walk roots ids) : ∀ {depth : Nat},
    (∀ root : Nat, root ∈ roots → program.blocks.length < root + depth) →
    (do return (← roots.mapM (program.visitFrom visit depth)).flatten) =
      ids.mapM (fun id => program.block id >>= visit) := by
  induction walk with
  | nil => exact fun _ => rfl
  | @cons id block rest nested later has inside _ ihInside ihNext =>
    intro depth enough
    have deep := enough id List.mem_cons_self
    have bound := has.lt
    obtain ⟨depth, rfl⟩ : ∃ smaller, depth = smaller + 1 := ⟨depth - 1, by omega⟩
    -- children have larger numbers, so that one level less is enough for them
    have nestedWalk := @ihInside depth fun child isChild => by
      have larger := (forest.nested id block has child isChild).1
      omega
    have nextWalk := ihNext fun root isRoot => enough root (List.mem_cons_of_mem _ isRoot)
    simp only [List.mapM_cons, List.mapM_append, ← nestedWalk, ← nextWalk, visitFrom, has.block_eq]
    simp [bind_assoc]

theorem visitTree_eq {α : Type} (visit : Block → Except CompileError α)
    (forest : program.IsForest) {root : BlockId} (walk : program.Walk [root] ids) :
    program.visitTree visit root = ids.mapM (fun id => program.block id >>= visit) := by
  have deep : ∀ other : Nat, other ∈ [root] →
      program.blocks.length < other + (program.blocks.length + 1) := by
    intro other _
    omega
  rw [← walk.visit_eq visit forest deep]
  simp [visitTree]

/-- A number that is a child of some blocks and once of each. -/
theorem count_eq (walk : program.Walk roots ids) {query : BlockId} {isParent : BlockId → Bool}
    (children : ∀ id block, program.Has id block →
      block.children.count query = if isParent id then 1 else 0) :
    ids.count query = roots.count query + ids.countP isParent := by
  induction walk with
  | nil => rfl
  | @cons id block rest nested later has _ _ ihInside ihNext =>
    rw [children id block has] at ihInside
    simp only [List.count_cons, List.count_append, List.countP_cons, List.countP_append, ihInside,
      ihNext]
    omega

theorem has_of_mem (walk : program.Walk roots ids) : ∀ id ∈ ids, ∃ block, program.Has id block := by
  induction walk with
  | nil => simp
  | @cons id block rest nested later has _ _ ihInside ihNext =>
    intro query member
    rcases List.mem_cons.mp member with rfl | inRest
    · exact ⟨block, has⟩
    · rcases List.mem_append.mp inRest with inNested | inLater
      · exact ihInside query inNested
      · exact ihNext query inLater

/-- What is nested in blocks of one scope has the same scope. -/
theorem scope_eq (forest : program.IsForest) {scope : BlockId} (walk : program.Walk roots ids) :
    (∀ root ∈ roots, ∀ block, program.Has root block → block.scope = scope) →
    ∀ id ∈ ids, ∀ block, program.Has id block → block.scope = scope := by
  induction walk with
  | nil => simp
  | @cons id owner rest nested later has _ _ ihInside ihNext =>
    intro ofRoots query member block hasBlock
    have ofOwner := ofRoots id List.mem_cons_self owner has
    rcases List.mem_cons.mp member with rfl | inRest
    · exact ofRoots query List.mem_cons_self block hasBlock
    · rcases List.mem_append.mp inRest with inNested | inLater
      · refine ihInside (fun child isChild arm hasArm => ?_) query inNested block hasBlock
        obtain ⟨-, -, other, hasOther, sameScope⟩ := forest.nested id owner has child isChild
        rw [hasArm.unique hasOther, sameScope, ofOwner]
      · exact ihNext (fun root isRoot => ofRoots root (List.mem_cons_of_mem _ isRoot)) query inLater
          block hasBlock

theorem of_cons {root : BlockId} {rest : List BlockId} (walk : program.Walk (root :: rest) ids) :
    ∃ first later, ids = first ++ later ∧ program.Walk [root] first ∧ program.Walk rest later := by
  cases walk with
  | @cons _ _ _ nested later has inside next =>
    exact ⟨root :: (nested ++ []), later, by simp, .cons has inside .nil, next⟩

theorem append {others later : List BlockId} (walk : program.Walk roots ids)
    (next : program.Walk others later) : program.Walk (roots ++ others) (ids ++ later) := by
  induction walk with
  | nil => exact next
  | cons has inside _ _ ihNext =>
    rw [List.cons_append, List.cons_append, List.append_assoc]
    exact .cons has inside ihNext

theorem exists_of_forall (each : ∀ root ∈ roots, ∃ ids, program.Walk [root] ids) :
    ∃ ids, program.Walk roots ids := by
  induction roots with
  | nil => exact ⟨[], .nil⟩
  | cons root rest ih =>
    obtain ⟨first, walk⟩ := each root List.mem_cons_self
    obtain ⟨later, next⟩ := ih fun other member => each other (List.mem_cons_of_mem _ member)
    exact ⟨first ++ later, walk.append next⟩

end Walk

namespace IsForest

variable {program : ObjectProgram}

/-- Every block has a walk: numbers grow on the way inward, and they are bounded. -/
theorem exists_walk (forest : program.IsForest) {roots : List BlockId}
    (inRange : ∀ root ∈ roots, root < program.blocks.length) : ∃ ids, program.Walk roots ids := by
  have ofRoot : ∀ (distance root : Nat), program.blocks.length - root ≤ distance →
      root < program.blocks.length → ∃ ids, program.Walk [root] ids := by
    intro distance
    induction distance with
    | zero =>
      intro root near bound
      omega
    | succ distance ih =>
      intro root near bound
      obtain ⟨block, has⟩ := exists_has bound
      obtain ⟨nested, inside⟩ : ∃ nested, program.Walk block.children nested := by
        refine Walk.exists_of_forall fun (child : Nat) isChild => ih child ?_ ?_
        · have larger := (forest.nested root block has child isChild).1
          omega
        · exact forest.lt_of_mem_children has isChild
      exact ⟨_, .cons has inside .nil⟩
  exact Walk.exists_of_forall fun root isRoot =>
    ofRoot _ root (Nat.le_refl _) (inRange root isRoot)

/-- A walk from all functions meets every block once. -/
theorem count_walk (forest : program.IsForest) {roots ids : List BlockId}
    (isRoots : roots.Perm program.functions) (walk : program.Walk roots ids) (id : Nat) :
    id < program.blocks.length → ids.count id = 1 := by
  have nodup : program.functions.Nodup := forest.increasing.imp Nat.ne_of_lt
  -- an arm is met as often as its parent, which has a smaller number
  induction id using Nat.strongRecOn with
  | ind id ih =>
    intro bound
    by_cases isFunction : id ∈ program.functions
    · have noChild : ∀ other block, program.Has other block →
          block.children.count id = if (false : Bool) then 1 else 0 := by
        intro other block has
        refine List.count_eq_zero_of_not_mem fun isChild => ?_
        exact (forest.nested other block has id isChild).2.1 isFunction
      rw [walk.count_eq noChild, isRoots.count_eq, List.count_eq_one_of_mem nodup isFunction]
      simp
    · obtain ⟨arm, hasArm⟩ := exists_has bound
      obtain ⟨-, parent, owner, hasOwner, once, only⟩ := forest.arms id arm hasArm isFunction
      have ofParent : ∀ other block, program.Has other block →
          block.children.count id = if other == parent then 1 else 0 := by
        intro other block has
        by_cases same : other = parent
        · subst same
          simp [has.unique hasOwner, once]
        · rw [List.count_eq_zero_of_not_mem fun isChild => same (only other block has isChild)]
          simp [same]
      have smaller : parent < id := (forest.nested parent owner hasOwner id
        (List.count_pos_iff.mp (by omega))).1
      rw [walk.count_eq ofParent, isRoots.count_eq, List.count_eq_zero_of_not_mem isFunction,
        Nat.zero_add]
      exact ih parent smaller hasOwner.lt

theorem walk_perm_range (forest : program.IsForest) {roots ids : List BlockId}
    (isRoots : roots.Perm program.functions) (walk : program.Walk roots ids) :
    ids.Perm (List.range program.blocks.length) := by
  refine List.perm_iff_count.mpr fun id => ?_
  by_cases bound : id < program.blocks.length
  · rw [forest.count_walk isRoots walk id bound,
      List.count_eq_one_of_mem List.nodup_range (List.mem_range.mpr bound)]
  · rw [List.count_eq_zero_of_not_mem, List.count_eq_zero_of_not_mem]
    · simpa using bound
    · intro member
      obtain ⟨block, has⟩ := walk.has_of_mem id member
      exact bound has.lt

end IsForest

end ObjectProgram

/-! ## What linking can report -/

/-- The report is about the number of a block, which no source program mentions. -/
def CompileError.IsStray : CompileError → Prop
  | .danglingBlock _ | .endlessNesting _ => True
  | _ => False

/-- The report is about a name that means nothing where it stands, or nothing that fits there. -/
def CompileError.IsScopeFault : CompileError → Prop
  | .unresolvedSymbol _ | .unresolvedTarget _ | .missingEntry _ | .unreachableFunction _ _
  | .cyclicConstant _ => True
  | _ => False

theorem CompileError.IsScopeFault.not_isStray {error : CompileError}
    (isScopeFault : error.IsScopeFault) : ¬ error.IsStray := by
  cases error with
  | danglingBlock _ | endlessNesting _ => cases isScopeFault
  | _ => exact id

/-- The computation does not get lost among the numbers of blocks, whatever else it reports. -/
def Grounded {α : Type} (computed : Except CompileError α) : Prop :=
  ∀ error, computed = .error error → ¬ error.IsStray

/-- Whatever the computation reports is about a name. -/
abbrev BlamesNames {α : Type} (computed : Except CompileError α) : Prop :=
  Reports CompileError.IsScopeFault computed

namespace BlamesNames

variable {α β : Type}

theorem grounded {computed : Except CompileError α} (blames : BlamesNames computed) :
    Grounded computed :=
  fun error failed => (blames error failed).not_isStray

/-- An expander that goes through a list, whatever the table. -/
theorem mapM_expander {step : α → Expander β}
    (each : ∀ input known, BlamesNames (step input known)) (inputs : List α) (known : Constants) :
    BlamesNames (inputs.mapM step known) := by
  intro error failed
  obtain ⟨input, -, table, inputFailed⟩ := Expander.exists_of_mapM_eq_error failed
  exact each input table error inputFailed

theorem expandInstr (constants : Constants) (owner : String)
    {expansion : String → Expander (List Instr)}
    (each : ∀ name known, BlamesNames (expansion name known)) (instr : Instr) (known : Constants) :
    BlamesNames (constants.expandInstr owner expansion instr known) := by
  unfold Constants.expandInstr
  cases instr.reference? with
  | none => exact .ok (_, known)
  | some name =>
    by_cases isConstant : (constants.body? name).isSome
    · simp only [if_pos isConstant]
      exact (each name known).bind fun _ => .ok _
    · simp only [if_neg isConstant]
      by_cases isLoad : instr.opcode = .ld
      · rw [if_pos isLoad]
        exact .error trivial
      · rw [if_neg isLoad]
        exact .ok (_, known)

theorem once {name : String} {compute : Expander (List Instr)} {known : Constants}
    (blames : BlamesNames (compute known)) : BlamesNames (Expander.once name compute known) :=
  fun error failed => blames error (Expander.once_eq_error failed)

theorem expandFrom (constants : Constants) : ∀ (depth : Nat) (path : List String) (name : String)
    (known : Constants), BlamesNames (constants.expandFrom depth path name known)
  | 0, _, _, _ => .error trivial
  | depth + 1, path, name, known => by
    unfold Constants.expandFrom
    refine once ?_
    by_cases onPath : name ∈ path
    · rw [if_pos onPath]
      exact .error trivial
    · rw [if_neg onPath]
      cases constants.body? name with
      | none => exact .error trivial
      | some body =>
        have each := expandInstr constants name (expandFrom constants depth (name :: path))
        exact (mapM_expander each body known).bind fun _ => .ok _

theorem expandAll (constants : Constants) : BlamesNames constants.expandAll := by
  refine .bind (mapM_expander (fun entry known => ?_) constants []) fun _ => .ok _
  exact (expandFrom constants _ [] entry.1 known).bind fun _ => .ok _

theorem resolveClosure (site : Site) (instr : Instr) :
    BlamesNames (site.resolveClosure instr) := by
  unfold Site.resolveClosure
  split
  · split
    · exact .ok _
    · split
      · exact .error trivial
      · exact .ok _
  · exact .ok _

theorem resolve (site : Site) (instr : Instr) : BlamesNames (site.resolve instr) := by
  unfold Site.resolve
  split
  · exact .ok _
  · split
    · exact .ok _
    · split
      · exact (Reports.mapM (resolveClosure site) _).bind fun _ => .ok _
      · split
        · exact (resolveClosure site instr).bind fun _ => .ok _
        · exact .error trivial

theorem resolveAll (site : Site) (instrs : List Instr) : BlamesNames (site.resolveAll instrs) :=
  (Reports.mapM (resolve site) instrs).bind fun _ => .ok _

theorem resolveBlock (program : ObjectProgram) (table : Constants) (site : Scope × Block) :
    BlamesNames (program.resolveBlock table site) :=
  (resolveAll _ _).bind fun _ => .ok _

theorem patch (options : Options) (layout : List PlacedBlock) (block : String) (instr : Instr) :
    BlamesNames (instr.patch options layout block) := by
  refine .bind ?_ fun _ => .ok _
  unfold Instr.patchArgs
  split
  · refine .mapM (fun operand => ?_) _
    unfold Operand.patch
    split
    · split
      · exact .ok _
      · exact .error trivial
    · exact .ok _
  · exact .ok _

theorem patchBlock (options : Options) (layout : List PlacedBlock) (block : PlacedBlock) :
    BlamesNames (block.patch options layout) :=
  (Reports.mapM (patch options layout block.name) _).bind fun _ => .ok _

theorem finish (options : Options) (name : String) (declared : List String)
    (loose : List LooseBlock) : BlamesNames (ObjectProgram.finish options name declared loose) :=
  (Reports.mapM (patch options _ _) _).bind fun _ =>
    (Reports.mapM (patchBlock options _) _).bind fun _ => .ok _

end BlamesNames

/-- The report is one of linking. -/
def CompileError.IsLinkFault (error : CompileError) : Prop := error.IsScopeFault ∨ error.IsStray

theorem BlamesNames.isLinkFault {α : Type} {computed : Except CompileError α}
    (blames : BlamesNames computed) : Reports CompileError.IsLinkFault computed :=
  blames.mono fun _ isScopeFault => .inl isScopeFault

namespace ObjectProgram

variable (program : ObjectProgram)

theorem reports_block (id : BlockId) : Reports CompileError.IsLinkFault (program.block id) := by
  unfold block
  split
  · exact .ok _
  · exact .error (.inr trivial)

theorem reports_visitFrom {α : Type} {visit : Block → Except CompileError α}
    (each : ∀ block, Reports CompileError.IsLinkFault (visit block)) :
    ∀ (depth : Nat) (id : BlockId),
      Reports CompileError.IsLinkFault (program.visitFrom visit depth id)
  | 0, _ => .error (.inr trivial)
  | depth + 1, id => by
    refine (program.reports_block id).bind fun block => (each block).bind fun _ => ?_
    exact (Reports.mapM (reports_visitFrom each depth) _).bind fun _ => .ok _

theorem reports_resolveTree (table : Constants) (scope : Scope) (id : BlockId) :
    Reports CompileError.IsLinkFault (program.resolveTree table scope id) :=
  program.reports_visitFrom
    (fun _ => (BlamesNames.resolveAll _ _).isLinkFault.bind fun _ => .ok _) _ id

/-- Linking has no other reports, whether the program hangs together or not. -/
theorem reports_link (options : Options) :
    Reports CompileError.IsLinkFault (program.link options) := by
  have ofEntry : Reports CompileError.IsLinkFault (program.entry options.entry) := by
    unfold entry
    split
    · exact .ok _
    · exact .error (.inl trivial)
  refine ofEntry.bind fun entry => ?_
  refine (BlamesNames.expandAll _).isLinkFault.bind fun table => ?_
  refine .bind (.mapM (fun id => (program.reports_block id).bind fun _ => .ok _) _) fun _ => ?_
  refine (program.reports_block entry).bind fun main => ?_
  refine (program.reports_resolveTree table _ entry).bind fun _ => ?_
  refine .bind (.mapM (fun id => (program.reports_block id).bind fun _ =>
    program.reports_resolveTree table _ id) _) fun _ => ?_
  refine BlamesNames.isLinkFault ?_
  exact (Reports.mapM (BlamesNames.patch options _ _) _).bind fun _ =>
    (Reports.mapM (BlamesNames.patchBlock options _) _).bind fun _ => .ok _

end ObjectProgram

/-! ## The walk of the linker -/

namespace ObjectProgram

/-- The frame that the block of a number opens. -/
def frameOf (program : ObjectProgram) (id : BlockId) : List String :=
  (program.blocks[id]?.map Block.frame).getD []

/-- The name of the block of a number. -/
def nameOf (program : ObjectProgram) (id : BlockId) : String :=
  (program.blocks[id]?.map Block.name).getD ""

/-- The slots of the frame of declarations. -/
def declared (program : ObjectProgram) (entry : BlockId) : List String :=
  (program.others entry).map program.nameOf

/-- The frames that the code of a block sees, read off its scope. -/
def scopeOf (program : ObjectProgram) (entry : BlockId) (block : Block) : Scope :=
  let outer := [program.declared entry, program.frameOf entry]
  if block.scope = entry then outer else program.frameOf block.scope :: outer

/-- Resolves the block of a number in the frames that its scope gives it. -/
def resolveAt (program : ObjectProgram) (table : Constants) (entry id : BlockId) :
    Except CompileError LooseBlock := do
  let block ← program.block id
  program.resolveBlock table (program.scopeOf entry block, block)

theorem mem_functions_of_function? {program : ObjectProgram} {name : String} {id : BlockId}
    (found : program.function? name = some id) : id ∈ program.functions := by
  simpa using (Option.filter_eq_some_iff.mp found).2

theorem has_of_block_eq {program : ObjectProgram} {id : BlockId} {block : Block}
    (found : program.block id = .ok block) : program.Has id block := by
  unfold ObjectProgram.block at found
  split at found
  · rename_i isBlock
    cases found
    exact isBlock
  · cases found

theorem Has.frameOf_eq {program : ObjectProgram} {id : BlockId} {block : Block}
    (has : program.Has id block) : program.frameOf id = block.frame := by
  rw [Has] at has
  simp [frameOf, has]

theorem Has.nameOf_eq {program : ObjectProgram} {id : BlockId} {block : Block}
    (has : program.Has id block) : program.nameOf id = block.name := by
  rw [Has] at has
  simp [nameOf, has]

namespace IsForest

variable {program : ObjectProgram}

theorem blockNames_eq (forest : program.IsForest) (entry : BlockId) :
    program.blockNames (program.others entry) = .ok (program.declared entry) := by
  refine mapM_eq_map fun id isOther => ?_
  obtain ⟨block, has⟩ := exists_has (forest.lt_of_mem_functions (List.mem_of_mem_filter isOther))
  simp [has.block_eq, has.nameOf_eq]

/-- Resolving a function with all its arms: each of them has the function as its scope. -/
theorem resolveTree_eq (forest : program.IsForest) {root entry : BlockId} {ids : List BlockId}
    (isFunction : root ∈ program.functions) (walk : program.Walk [root] ids) (table : Constants)
    {scope : Scope} (inScope : ∀ block, block.scope = root → program.scopeOf entry block = scope) :
    program.resolveTree table scope root = ids.mapM (program.resolveAt table entry) := by
  rw [resolveTree, walk.visitTree_eq _ forest]
  refine mapM_congr fun id isMet => ?_
  obtain ⟨block, has⟩ := walk.has_of_mem id isMet
  have ownScope : block.scope = root := by
    refine walk.scope_eq forest (fun other isRoot body hasBody => ?_) id isMet block has
    obtain ⟨found, hasFound, own⟩ := (forest.bodies root).mp isFunction
    rw [List.mem_singleton.mp isRoot] at hasBody
    rw [hasBody.unique hasFound, own]
  rw [resolveAt, has.block_eq, ok_bind, ok_bind, inScope block ownScope]
  rfl

/-- The functions other than the entry function, one after the other. -/
theorem resolveFunctions_eq (forest : program.IsForest) {entry : BlockId} (table : Constants) :
    ∀ {roots ids : List BlockId}, (∀ root ∈ roots, root ∈ program.functions ∧ root ≠ entry) →
      program.Walk roots ids →
      (do return (← roots.mapM (program.resolveFunction table
        [program.declared entry, program.frameOf entry])).flatten) =
      ids.mapM (program.resolveAt table entry)
  | [], _, _, walk => by
    cases walk
    rfl
  | root :: rest, _, areOthers, walk => by
    obtain ⟨first, later, rfl, ofRoot, ofRest⟩ := walk.of_cons
    obtain ⟨isFunction, notEntry⟩ := areOthers root List.mem_cons_self
    obtain ⟨body, has, -⟩ := (forest.bodies root).mp isFunction
    have inScope : ∀ block : Block, block.scope = root → program.scopeOf entry block =
        body.frame :: [program.declared entry, program.frameOf entry] := by
      intro block ownScope
      rw [scopeOf, ownScope, if_neg notEntry, has.frameOf_eq]
    have next := forest.resolveFunctions_eq table
      (fun other member => areOthers other (List.mem_cons_of_mem _ member)) ofRest
    rw [List.mapM_append, ← next, List.mapM_cons, resolveFunction, has.block_eq, ok_bind,
      forest.resolveTree_eq isFunction ofRoot table inScope]
    simp

/-- The entry function and then the others are all functions. -/
theorem entry_others_perm (forest : program.IsForest) {entry : BlockId}
    (isFunction : entry ∈ program.functions) :
    (entry :: program.others entry).Perm program.functions := by
  have nodup : program.functions.Nodup := forest.increasing.imp Nat.ne_of_lt
  have erased : program.others entry = program.functions.erase entry := by
    rw [nodup.erase_eq_filter entry, others]
    exact List.filter_congr fun id _ => by by_cases same : id = entry <;> simp [same]
  rw [erased]
  exact (List.perm_cons_erase isFunction).symm

/-- There is a walk from the entry function and then from the others, and it meets every block. -/
theorem exists_order (forest : program.IsForest) {name : String} {entry : BlockId}
    (hasEntry : program.function? name = some entry) :
    ∃ order, program.Walk (entry :: program.others entry) order ∧
      order.Perm (List.range program.blocks.length) := by
  have perm := forest.entry_others_perm (mem_functions_of_function? hasEntry)
  obtain ⟨order, walk⟩ := forest.exists_walk fun root isRoot =>
    forest.lt_of_mem_functions (perm.mem_iff.mp isRoot)
  exact ⟨order, walk, forest.walk_perm_range perm walk⟩

/-- Linking is a walk through all functions, the entry function first. -/
theorem link_eq (forest : program.IsForest) {options : Options} {entry : BlockId}
    (hasEntry : program.function? options.entry = some entry) {order : List BlockId}
    (walk : program.Walk (entry :: program.others entry) order) :
    program.link options = (do
      let table ← program.constants.expandAll
      let loose ← order.mapM (program.resolveAt table entry)
      finish options program.name (program.declared entry) loose) := by
  have isFunction := mem_functions_of_function? hasEntry
  obtain ⟨first, later, rfl, ofEntry, ofOthers⟩ := walk.of_cons
  obtain ⟨body, has, -⟩ := (forest.bodies entry).mp isFunction
  have main (table : Constants) := forest.resolveTree_eq isFunction ofEntry table
    fun block ownScope => by rw [scopeOf, if_pos ownScope]
  have rest (table : Constants) := forest.resolveFunctions_eq table
    (fun root isOther => by simpa [others] using isOther) ofOthers
  simp only [link, ObjectProgram.entry, hasEntry, ok_bind, forest.blockNames_eq, has.block_eq,
    ← has.frameOf_eq, main, List.mapM_append, ← rest]
  simp [finish, bind_assoc]

/-- Linking follows no number that leads nowhere. -/
theorem grounded_link (forest : program.IsForest) (options : Options) :
    Grounded (program.link options) := by
  refine BlamesNames.grounded ?_
  cases hasEntry : program.function? options.entry with
  | none =>
    rw [link, ObjectProgram.entry, hasEntry]
    exact .error trivial
  | some entry =>
    obtain ⟨order, walk, -⟩ := forest.exists_order hasEntry
    rw [forest.link_eq hasEntry walk]
    refine .bind (BlamesNames.expandAll _) fun table => ?_
    intro error failed
    rcases bind_eq_error.mp failed with someFailed | ⟨loose, -, notFinished⟩
    · obtain ⟨id, isMet, idFailed⟩ := exists_of_mapM_eq_error someFailed
      obtain ⟨block, has⟩ := walk.has_of_mem id isMet
      rw [resolveAt, has.block_eq, ok_bind] at idFailed
      exact BlamesNames.resolveBlock _ _ _ error idFailed
    · exact BlamesNames.finish _ _ _ _ error notFinished

end IsForest

/-- A linked block comes from the block of a number, resolved in the frames of its scope. -/
def LinksAt (program : ObjectProgram) (options : Options) (table : Constants) (entry : BlockId)
    (listing : Listing) (id : BlockId) (placed : PlacedBlock) : Prop :=
  ∃ block, program.Has id block ∧ LinksBlock options program table listing.blocks
    (program.scopeOf entry block, block) placed

namespace IsForest

variable {program : ObjectProgram}

/-- A listing holds the blocks of the walk in its order. -/
theorem forall₂_linksAt {options : Options} {entry : BlockId} {order : List BlockId}
    {table : Constants} {listing : Listing} {loose : List LooseBlock}
    (resolved : order.mapM (program.resolveAt table entry) = .ok loose)
    (finished : finish options program.name (program.declared entry) loose = .ok listing) :
    List.Forall₂ (program.LinksAt options table entry listing) order listing.blocks := by
  obtain ⟨-, patched, -⟩ := finish_eq_ok finished
  refine forall₂_trans (fun id block placed isLoose isPlaced => ?_) (mapM_eq_ok.mp resolved) patched
  obtain ⟨named, patches⟩ := isPlaced
  rw [resolveAt, bind_eq_ok] at isLoose
  obtain ⟨source, isSource, resolves⟩ := isLoose
  obtain ⟨middle, isMiddle, rfl⟩ := by
    simpa only [resolveBlock, bind_eq_ok, pure_eq_ok] using resolves
  exact ⟨source, has_of_block_eq isSource, named, middle, isMiddle, patches⟩

end IsForest

/-- However an object program is built, its blocks are a forest under its functions. Linking it
never follows a number that leads nowhere or in a circle; from the entry function on it is a walk
that meets every block once, the entry function with its arms first and then the other functions in
declaration order, each block in the frames of the function that is its scope; and the listing it
gives has one block for each block of the walk. -/
theorem linked_as_forest (name : String) (operations : List Operation) (options : Options) :
    (build name operations).IsForest ∧ Grounded ((build name operations).link options) ∧
      (∀ listing, (build name operations).link options = .ok listing →
        ((build name operations).function? options.entry).isSome) ∧
      ∀ entry, (build name operations).function? options.entry = some entry → ∃ order,
        (build name operations).Walk (entry :: (build name operations).others entry) order ∧
        order.Perm (List.range (build name operations).blocks.length) ∧
        (build name operations).link options = (do
          let table ← (build name operations).constants.expandAll
          let loose ← order.mapM ((build name operations).resolveAt table entry)
          finish options (build name operations).name ((build name operations).declared entry)
            loose) ∧
        ∀ listing, (build name operations).link options = .ok listing → ∃ table,
          (build name operations).constants.expandAll = .ok table ∧
          List.Forall₂ ((build name operations).LinksAt options table entry listing) order
            listing.blocks := by
  have forest := isForest_build name operations
  generalize build name operations = program at forest ⊢
  refine ⟨forest, forest.grounded_link options, fun listing linked => ?_, fun entry hasEntry => ?_⟩
  · cases hasEntry : program.function? options.entry with
    | some entry => rfl
    | none =>
      rw [link, ObjectProgram.entry, hasEntry] at linked
      cases linked
  · obtain ⟨order, walk, perm⟩ := forest.exists_order hasEntry
    have linkEq := forest.link_eq hasEntry walk
    refine ⟨order, walk, perm, linkEq, fun listing linked => ?_⟩
    rw [linkEq, bind_eq_ok] at linked
    obtain ⟨table, expanded, rest⟩ := linked
    obtain ⟨loose, resolved, finished⟩ := bind_eq_ok.mp rest
    exact ⟨table, expanded, IsForest.forall₂_linksAt resolved finished⟩

-- two arms of one name, a function and a block that are refused, the entry function last
example : ((build "p" [.addFunction "f" ["x"], .addFunction "main" [], .addArm 1 "t", .addArm 1 "t",
    .addFunction "main.0t" [], .append 9 [.plain .rtn], .append 3 [.ldc 1]]).link {}).toOption.map
      (fun listing => listing.blocks.map fun block => (block.name, block.instrs.length)) =
    some [("main", 0), ("main.0t", 0), ("main.0t", 1), ("f", 0)] := by decide

end ObjectProgram

end Secd
