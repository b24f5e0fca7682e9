import Secd.Proofs.Resolution

namespace Secd

open Results

/-! # The two passes of linking

There are four places where the linker looks for a name, in two passes: a name in scope is found
first, a constant is looked up after that, closures inside constants follow, and what is left is
sought among the blocks in the second pass. An instruction either is refused in the first pass
(`Site.Rejects`), or goes through it; if it then still holds a name other than that of an arm, the
name had no meaning (`Site.sifts_resolveAll`), and the second pass refuses it
(`ObjectProgram.finish_cases`).
-/

/-! ## Names in scope -/

/-- Some frame has a slot of this name. -/
def Scope.Binds (scope : Scope) (name : String) : Prop := ∃ frame ∈ scope, name ∈ frame

theorem Scope.address?_eq_none_iff {scope : Scope} {name : String} :
    scope.address? name = none ↔ ¬ scope.Binds name := by
  induction scope with
  | nil => simp [Binds]
  | cons frame outer ih =>
    by_cases inFrame : name ∈ frame
    · obtain ⟨index, found⟩ : ∃ index, frame.idxOf? name = some index := by
        rw [← Option.isSome_iff_exists, List.isSome_idxOf?]
        exact inFrame
      simp [address?_cons_of_some outer found, Binds, inFrame]
    · have absent : frame.idxOf? name = none := List.idxOf?_eq_none_iff.mpr inFrame
      rw [address?_cons_of_none outer absent, Option.map_eq_none_iff, ih]
      simp [Binds, inFrame]

theorem Scope.binds_of_address? {scope : Scope} {name : String} {address : Address}
    (found : scope.address? name = some address) : scope.Binds name := by
  by_contra unbound
  rw [address?_eq_none_iff.mpr unbound] at found
  cases found

theorem Scope.binds_of_mem_params {functions : List FunctionDecl} {main decl : FunctionDecl}
    (sameMain : decl.name = main.name → decl = main) {name : String} (isParam : name ∈ decl.params) :
    (framesOf functions main decl).Binds name := by
  unfold framesOf
  by_cases isEntry : decl.name = main.name
  · obtain rfl := sameMain isEntry
    exact ⟨decl.params, by simp, isParam⟩
  · exact ⟨decl.params, by simp [isEntry], isParam⟩

/-- A name has a meaning: it is a variable in scope, or a constant of which nothing is left that is
not in scope. -/
def Constants.Reaches (constants : Constants) (scope : Scope) (name : String) : Prop :=
  scope.Binds name ∨ ∃ result, constants.ExpandsTo name result ∧
    ∀ instr ∈ result, ∀ called, instr.reference? = some called → scope.Binds called

theorem Constants.not_reaches_of_undefined {constants : Constants} {scope : Scope} {name : String}
    (unbound : ¬ scope.Binds name) (undefined : constants.body? name = none) :
    ¬ constants.Reaches scope name := by
  rintro (bound | ⟨result, ⟨body, hasBody, -⟩, -⟩)
  · exact unbound bound
  · rw [undefined] at hasBody
    cases hasBody

/-- A constant has no meaning exactly where something is left in its expansion that is not in
scope. -/
theorem Constants.not_reaches_iff {constants : Constants} {scope : Scope} {name : String}
    {body result : List Instr} (unbound : ¬ scope.Binds name)
    (hasBody : constants.body? name = some body) (expansion : Expansion constants body result) :
    ¬ constants.Reaches scope name ↔
      ∃ instr ∈ result, ∃ called, instr.reference? = some called ∧ ¬ scope.Binds called := by
  constructor
  · intro unreached
    by_contra none
    push Not at none
    exact unreached (.inr ⟨result, ⟨body, hasBody, expansion⟩, none⟩)
  · rintro ⟨instr, member, called, refers, calledUnbound⟩ (bound | reached)
    · exact unbound bound
    · obtain ⟨other, ⟨otherBody, hasOther, otherExpansion⟩, allBound⟩ := reached
      rw [hasBody] at hasOther
      cases hasOther
      rw [← expansion.unique otherExpansion] at allBound
      exact calledUnbound (allBound instr member called refers)

/-! ## The first pass -/

namespace Site

/-- A called name that the first pass leaves in an instruction. -/
def Leftover (site : Site) (constants : Constants) (called : CallSite → Prop) (instr : Instr) :
    Prop :=
  ∃ call comment, called call ∧ instr = ⟨.ldf, [.name call.func], comment⟩ ∧
    ¬ site.scope.Binds call.func ∧ constants.body? call.func = none ∧
    site.program.function? call.func = none

/-- An instruction whose names, if it has any, are those of arms. -/
def Patchable (arm : String → Prop) (instr : Instr) : Prop :=
  instr.opcode.takesBlocks = false ∨ ∃ thenName elseName comment, arm thenName ∧ arm elseName ∧
    instr = ⟨.sel, [.name thenName, .name elseName], comment⟩

/-- The reports of the first pass. -/
inductive Rejects (site : Site) (constants : Constants) : CompileError → Prop where
  | symbol {name : String} (unbound : ¬ site.scope.Binds name)
      (undefined : constants.body? name = none) :
    Rejects site constants
      (.unresolvedSymbol { symbol := name, block := site.block, frames := site.scope })
  | function {name : String} (unbound : ¬ site.scope.Binds name)
      (isFunction : (site.program.function? name).isSome) :
    Rejects site constants (.unreachableFunction name site.block)

variable {site : Site} {constants : Constants} {called : CallSite → Prop} {arm : String → Prop}

theorem not_patchable_of_leftover {instr : Instr} (leftover : site.Leftover constants called instr) :
    ¬ Patchable arm instr := by
  obtain ⟨call, comment, -, rfl, -⟩ := leftover
  rintro (noBlocks | ⟨_, _, _, _, _, isBranch⟩)
  · cases noBlocks
  · cases isBranch

theorem patchable_of_reference? {instr : Instr} (ofBlock : BlockInstr called arm instr)
    (noName : instr.reference? = none) : Patchable arm instr := by
  cases ofBlock with
  | straight isStraight => exact .inl (isStraight.takesBlocks_eq_false noName)
  | branch isThen isElse comment => exact .inr ⟨_, _, comment, isThen, isElse, rfl⟩
  | join => exact .inl rfl
  | rtn => exact .inl rfl

/-- What the first pass makes of code: it refuses it on account of a name without meaning, or lets
it through, and then a name is left exactly where there is one without meaning. -/
def Sifts (site : Site) (constants : Constants) (called : CallSite → Prop) (arm : String → Prop)
    (meaningless : Prop) : Except CompileError (List Instr) → Prop
  | .error error => site.Rejects constants error ∧ meaningless
  | .ok results =>
    (∀ result ∈ results, Patchable arm result ∨ site.Leftover constants called result) ∧
      ((∃ result ∈ results, site.Leftover constants called result) ↔ meaningless)

theorem sifts_of_patchable {meaningless : Prop} {instr : Instr} (patchable : Patchable arm instr)
    (meaningful : ¬ meaningless) : site.Sifts constants called arm meaningless (.ok [instr]) := by
  simp only [Sifts, List.mem_singleton, forall_eq, exists_eq_left]
  exact ⟨.inl patchable,
    iff_of_false (fun leftover => not_patchable_of_leftover leftover patchable) meaningful⟩

theorem sifts_of_leftover {meaningless : Prop} {instr : Instr}
    (leftover : site.Leftover constants called instr) (unmeant : meaningless) :
    site.Sifts constants called arm meaningless (.ok [instr]) := by
  simp only [Sifts, List.mem_singleton, forall_eq, exists_eq_left]
  exact ⟨.inr leftover, iff_of_true leftover unmeant⟩

namespace Sifts

theorem append {ofFirst ofRest : Prop} {first rest : Except CompileError (List Instr)}
    (sifts : site.Sifts constants called arm ofFirst first)
    (siftsRest : site.Sifts constants called arm ofRest rest) :
    site.Sifts constants called arm (ofFirst ∨ ofRest) (do return (← first) ++ (← rest)) := by
  cases first with
  | error error => exact ⟨sifts.1, .inl sifts.2⟩
  | ok results =>
    cases rest with
    | error error => exact ⟨siftsRest.1, .inr siftsRest.2⟩
    | ok others =>
      refine ⟨List.forall_mem_append.mpr ⟨sifts.1, siftsRest.1⟩, ?_⟩
      rw [← sifts.2, ← siftsRest.2]
      simp only [List.mem_append, or_and_right, exists_or]

theorem traverse {meaningless : Instr → Prop} {f : Instr → Except CompileError (List Instr)}
    {instrs : List Instr}
    (each : ∀ instr ∈ instrs, site.Sifts constants called arm (meaningless instr) (f instr)) :
    site.Sifts constants called arm (∃ instr ∈ instrs, meaningless instr)
      (do return (← instrs.mapM f).flatten) := by
  induction instrs with
  | nil => exact ⟨by simp, by simp⟩
  | cons instr instrs ih =>
    have both := (each instr List.mem_cons_self).append
      (ih fun other member => each other (List.mem_cons_of_mem _ member))
    simpa [List.mapM_cons] using both

theorem splice {meaningless : Prop} {outcome : Except CompileError (List Instr)}
    (sifts : site.Sifts constants called arm meaningless outcome) (reference : Instr) :
    site.Sifts constants called arm meaningless (do return reference.splice (← outcome)) := by
  cases outcome with
  | error error => exact sifts
  | ok results =>
    -- neither kind of instruction depends on its comment
    refine ⟨List.forall_mem_map.mpr fun result isResult => ?_, ?_⟩
    · rcases sifts.1 result isResult with
        (noBlocks | ⟨_, _, comment, isThen, isElse, rfl⟩) | ⟨call, comment, isCalled, rfl, out⟩
      · exact .inl (.inl noBlocks)
      · exact .inl (.inr ⟨_, _, _, isThen, isElse, rfl⟩)
      · exact .inr ⟨call, _, isCalled, rfl, out⟩
    · rw [← sifts.2]
      constructor
      · rintro ⟨spliced, member, call, comment, isCalled, same, out⟩
        obtain ⟨⟨opcode, args, _⟩, isOriginal, rfl⟩ := List.mem_map.mp member
        cases same
        exact ⟨_, isOriginal, call, _, isCalled, rfl, out⟩
      · rintro ⟨original, isOriginal, call, comment, isCalled, rfl, out⟩
        exact ⟨_, List.mem_map_of_mem isOriginal, call, _, isCalled, rfl, out⟩

end Sifts

/-- An instruction of an expanded constant. -/
theorem sifts_resolveClosure (site : Site) {instr : Instr} (straight : Straight called instr)
    (kept : ∀ name, instr.reference? = some name →
      constants.body? name = none ∧ instr.opcode = .ldf) :
    site.Sifts constants called arm
      (∃ name, instr.reference? = some name ∧ ¬ site.scope.Binds name)
      (do return [← site.resolveClosure instr]) := by
  cases refers : instr.reference? with
  | none =>
    have noBlocks := straight.takesBlocks_eq_false refers
    rw [site.resolveClosure_of_takesBlocks noBlocks]
    exact sifts_of_patchable (.inl noBlocks) (by simp)
  | some name =>
    obtain ⟨undefined, isClosure⟩ := kept name refers
    obtain ⟨call, comment, isCalled, rfl⟩ := straight.eq_of_closure isClosure
    cases refers
    simp only [resolveClosure, Instr.symbol?, Option.some.injEq, exists_eq_left']
    cases found : site.scope.address? call.func with
    | some address => exact sifts_of_patchable (.inl rfl) (not_not.mpr (Scope.binds_of_address? found))
    | none =>
      have unbound := Scope.address?_eq_none_iff.mp found
      by_cases isFunction : (site.program.function? call.func).isSome
      · simp only [if_pos isFunction]
        exact ⟨.function unbound isFunction, unbound⟩
      · simp only [if_neg isFunction]
        exact sifts_of_leftover
          ⟨call, comment, isCalled, rfl, unbound, undefined, by simpa using isFunction⟩ unbound

/-- The code of an expanded constant. -/
theorem sifts_expansion (site : Site) {code : List Instr}
    (straight : ∀ instr ∈ code, Straight called instr)
    (kept : ∀ instr ∈ code, ∀ name, instr.reference? = some name →
      constants.body? name = none ∧ instr.opcode = .ldf) :
    site.Sifts constants called arm
      (∃ instr ∈ code, ∃ name, instr.reference? = some name ∧ ¬ site.scope.Binds name)
      (code.mapM site.resolveClosure) := by
  rw [← mapM_singletons]
  exact .traverse fun instr member =>
    site.sifts_resolveClosure (straight instr member) (kept instr member)

/-- An instruction of a block. -/
theorem sifts_resolve (site : Site)
    (ofConstants : ∀ name body, constants.body? name = some body →
      ∀ instr ∈ body, Straight called instr)
    (expanded : constants.expandAll = .ok site.constants) {instr : Instr}
    (ofBlock : BlockInstr called arm instr) :
    site.Sifts constants called arm
      (∃ name, instr.reference? = some name ∧ ¬ constants.Reaches site.scope name)
      (site.resolve instr) := by
  cases refers : instr.reference? with
  | none =>
    rw [resolve, refers]
    exact sifts_of_patchable (patchable_of_reference? ofBlock refers) (by simp)
  | some name =>
    simp only [resolve, refers, Option.some.injEq, exists_eq_left']
    cases found : site.scope.address? name with
    | some address =>
      exact sifts_of_patchable (.inl rfl) (not_not.mpr (.inl (Scope.binds_of_address? found)))
    | none =>
      have unbound := Scope.address?_eq_none_iff.mp found
      rcases Constants.lookup_of_expandAll expanded name with
        ⟨undefined, unknown⟩ | ⟨result, known, body, hasBody, expansion⟩
      · have unreached := Constants.not_reaches_of_undefined unbound undefined
        simp only [unknown]
        by_cases isClosure : instr.opcode = .ldf
        · -- nothing but a function can be meant by a called name that is no constant
          have straight := ofBlock.straight_of_reference? refers
          have kept : ∀ other, instr.reference? = some other →
              constants.body? other = none ∧ instr.opcode = .ldf := by
            intro other otherRefers
            rw [refers] at otherRefers
            cases otherRefers
            exact ⟨undefined, isClosure⟩
          have sifts : site.Sifts constants called arm _ _ := site.sifts_resolveClosure straight kept
          rw [if_pos isClosure]
          simp only [refers, Option.some.injEq, exists_eq_left'] at sifts
          rwa [← iff_of_true unbound unreached]
        · rw [if_neg isClosure]
          exact ⟨.symbol unbound undefined, unreached⟩
      · have straight := expansion.forall_mem (Straight called)
          (fun instr comment isStraight => isStraight.recommented (by simp)) ofConstants
          (ofConstants name body hasBody)
        simp only [known, Constants.not_reaches_iff unbound hasBody expansion]
        exact (site.sifts_expansion straight expansion.reference_of_mem).splice instr

/-- The code of a block. -/
theorem sifts_resolveAll (site : Site)
    (ofConstants : ∀ name body, constants.body? name = some body →
      ∀ instr ∈ body, Straight called instr)
    (expanded : constants.expandAll = .ok site.constants) {instrs : List Instr}
    (ofBlock : ∀ instr ∈ instrs, BlockInstr called arm instr) :
    site.Sifts constants called arm
      (∃ instr ∈ instrs, ∃ name, instr.reference? = some name ∧
        ¬ constants.Reaches site.scope name)
      (site.resolveAll instrs) :=
  .traverse fun instr member => site.sifts_resolve ofConstants expanded (ofBlock instr member)

end Site

/-! ## The second pass -/

theorem Instr.patch_of_patchable (options : Options) {layout : List PlacedBlock} (block : String)
    {instr : Instr} (patchable : Site.Patchable (· ∈ layout.map PlacedBlock.name) instr) :
    ∃ result, instr.patch options layout block = .ok result := by
  rcases patchable with noBlocks | ⟨thenName, elseName, comment, isThen, isElse, rfl⟩
  · exact ⟨_, Instr.patch_eq_ok.mpr ⟨instr.args, by simp [Instr.patchArgs, noBlocks], rfl⟩⟩
  · have placed : ∀ name ∈ layout.map PlacedBlock.name, ∃ offset,
        targetOffset? layout name = some offset := by
      intro name member
      rw [← Option.isSome_iff_exists, Option.isSome_iff_ne_none]
      exact fun absent => targetOffset?_eq_none_iff.mp absent member
    obtain ⟨thenOffset, thenPlaced⟩ := placed thenName isThen
    obtain ⟨elseOffset, elsePlaced⟩ := placed elseName isElse
    refine ⟨_, Instr.patch_eq_ok.mpr ⟨[.offset thenOffset, .offset elseOffset], ?_, rfl⟩⟩
    simp [Instr.patchArgs, Opcode.takesBlocks, Operand.patch, thenPlaced, elsePlaced]

theorem Instr.patch_of_closure {options : Options} {layout : List PlacedBlock} {block name : String}
    {comment : Option String} (unplaced : name ∉ layout.map PlacedBlock.name) :
    Instr.patch options layout block ⟨.ldf, [.name name], comment⟩ =
      .error (.unresolvedTarget { symbol := name, block }) := by
  simp [Instr.patch, Instr.patchArgs, Opcode.takesBlocks, Operand.patch,
    targetOffset?_eq_none_iff.mpr unplaced]

theorem Instr.patch_of_placed {options : Options} {layout : List PlacedBlock} {block name : String}
    {comment : Option String} (placed : name ∈ layout.map PlacedBlock.name) :
    ∃ result, Instr.patch options layout block ⟨.ldf, [.name name], comment⟩ = .ok result := by
  obtain ⟨offset, found⟩ : ∃ offset, targetOffset? layout name = some offset := by
    rw [← Option.isSome_iff_exists, Option.isSome_iff_ne_none]
    exact fun absent => targetOffset?_eq_none_iff.mp absent placed
  refine ⟨_, Instr.patch_eq_ok.mpr ⟨[.offset offset], ?_, rfl⟩⟩
  simp [Instr.patchArgs, Opcode.takesBlocks, Operand.patch, found]

theorem takesBlocks_of_mem_preamble {entry : String} {declared : List String} {instr : Instr}
    (member : instr ∈ preamble entry declared) :
    instr.opcode.takesBlocks = false ∨ ∃ name ∈ entry :: declared, ∃ comment,
      instr = ⟨.ldf, [.name name], comment⟩ := by
  unfold preamble at member
  split at member
  · simp only [List.mem_cons, List.not_mem_nil, or_false] at member
    rcases member with rfl | rfl | rfl
    · exact .inr ⟨entry, List.mem_cons_self, _, rfl⟩
    · exact .inl rfl
    · exact .inl rfl
  · simp only [List.cons_append, List.mem_cons, List.mem_append, List.mem_map, List.not_mem_nil,
      or_false] at member
    rcases member with rfl | ⟨name, isDeclared, rfl⟩ | rfl | rfl | rfl
    · exact .inl rfl
    · exact .inr ⟨name, List.mem_cons_of_mem _ isDeclared, _, rfl⟩
    · exact .inr ⟨entry, List.mem_cons_self, _, rfl⟩
    · exact .inl rfl
    · exact .inl rfl

/-- A closure of a name that no block has. -/
def LeftIn (loose : List LooseBlock) (instr : Instr) (name : String) : Prop :=
  ∃ comment, instr = ⟨.ldf, [.name name], comment⟩ ∧ name ∉ loose.map LooseBlock.name

/-- Blocks can be finished exactly where no closure is left in them; otherwise one is reported. -/
theorem ObjectProgram.finish_cases {options : Options} (title : String) {declared : List String}
    {loose : List LooseBlock}
    (functions : ∀ name ∈ options.entry :: declared, name ∈ loose.map LooseBlock.name)
    (settled : ∀ block ∈ loose, ∀ instr ∈ block.instrs,
      Site.Patchable (· ∈ loose.map LooseBlock.name) instr ∨ ∃ name, LeftIn loose instr name) :
    (∃ listing, finish options title declared loose = .ok listing ∧
      ∀ block ∈ loose, ∀ instr ∈ block.instrs, ∀ name, ¬ LeftIn loose instr name) ∨
    ∃ block ∈ loose, ∃ instr ∈ block.instrs, ∃ name, LeftIn loose instr name ∧
      finish options title declared loose =
        .error (.unresolvedTarget { symbol := name, block := block.name }) := by
  let start := Secd.preamble options.entry declared
  let layout := placeBlocks start.length loose
  have names : layout.map PlacedBlock.name = loose.map LooseBlock.name :=
    map_name_placeBlocks _ _
  obtain ⟨head, headOk⟩ : ∃ head, start.mapM (Instr.patch options layout "preamble") = .ok head := by
    refine exists_mapM_eq_ok fun instr member => ?_
    rcases takesBlocks_of_mem_preamble member with noBlocks | ⟨name, isFunction, comment, rfl⟩
    · exact Instr.patch_of_patchable options _ (.inl noBlocks)
    · exact Instr.patch_of_placed (names ▸ functions name isFunction)
  -- a loose block and the same block in its place
  have isLoose : ∀ placed ∈ layout, (⟨placed.name, placed.instrs⟩ : LooseBlock) ∈ loose := by
    intro placed member
    rw [← map_loose_placeBlocks start.length loose]
    exact List.mem_map_of_mem member
  cases patched : layout.mapM (PlacedBlock.patch options layout) with
  | ok blocks =>
    refine .inl ⟨{ name := title, preamble := head, blocks }, ?_, ?_⟩
    · simp only [finish]
      rw [headOk, ok_bind, patched]
      rfl
    · rintro block isBlock instr isInstr name ⟨comment, rfl, unplaced⟩
      rw [← map_loose_placeBlocks start.length loose] at isBlock
      obtain ⟨placed, isPlaced, rfl⟩ := List.mem_map.mp isBlock
      obtain ⟨result, -, resultOk⟩ := exists_of_mem_left (mapM_eq_ok.mp patched) isPlaced
      have instrsOk := (PlacedBlock.patch_eq_ok.mp resultOk).2
      obtain ⟨out, -, outOk⟩ := exists_of_mem_left (mapM_eq_ok.mp instrsOk) isInstr
      rw [Instr.patch_of_closure (names ▸ unplaced)] at outOk
      cases outOk
  | error error =>
    obtain ⟨placed, isPlaced, placedFailed⟩ := exists_of_mapM_eq_error patched
    rcases bind_eq_error.mp placedFailed with instrsFailed | ⟨_, -, impossible⟩
    · obtain ⟨instr, isInstr, instrFailed⟩ := exists_of_mapM_eq_error instrsFailed
      refine .inr ⟨_, isLoose placed isPlaced, instr, isInstr, ?_⟩
      rcases settled _ (isLoose placed isPlaced) instr isInstr with patchable | ⟨name, left⟩
      · rw [← names] at patchable
        obtain ⟨out, outOk⟩ := Instr.patch_of_patchable options placed.name patchable
        rw [outOk] at instrFailed
        cases instrFailed
      · refine ⟨name, left, ?_⟩
        obtain ⟨comment, rfl, unplaced⟩ := left
        rw [Instr.patch_of_closure (names ▸ unplaced)] at instrFailed
        cases instrFailed
        simp only [finish]
        rw [headOk, ok_bind, patched]
        rfl
    · cases impossible

end Secd
