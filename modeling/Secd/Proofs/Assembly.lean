import Mathlib.Data.List.Nodup
import Secd.Object.Generate
import Secd.Proofs.ArmNames

namespace Secd

open Results

/-! # Generated object programs

Of an object program that was generated from source everything is known (`Assembled`): its blocks
are those of its functions one function after the other, each body followed by its arms; its index
is the list of block names; its constants are those that the source defines. A walk from a function
body goes through the blocks of that function in order (`Assembled.visitTree_eq`), and where no name
has a dot the index finds every block (`Assembled.find?_name`).
-/

/-! ## Functions with their code -/

/-- A function together with the code generated for it. -/
structure CompiledFunction where
  decl : FunctionDecl
  code : Fragment

namespace CompiledFunction

/-- The blocks of a function whose body has the number `id`. -/
def blocks (function : CompiledFunction) (id : Nat) : List Block :=
  { name := function.decl.name, frame := function.decl.params, scope := id,
    instrs := function.code.instrs, children := function.code.arms.roots (id + 1) } ::
    function.code.arms.place id (id + 1)

/-- The names of its blocks. -/
def names (function : CompiledFunction) : List String :=
  function.decl.name :: function.code.arms.names

@[simp] theorem length_blocks (function : CompiledFunction) (id : Nat) :
    (function.blocks id).length = 1 + function.code.arms.size := by
  simp [blocks, Nat.add_comm]

@[simp] theorem map_name_blocks (function : CompiledFunction) (id : Nat) :
    (function.blocks id).map Block.name = function.names := by
  simp [blocks, names]

/-- Functions with the numbers of their bodies when they are laid out from `start` on. -/
def number (start : Nat) : List CompiledFunction → List (Nat × CompiledFunction)
  | [] => []
  | function :: rest =>
    (start, function) :: number (start + 1 + function.code.arms.size) rest

/-- The blocks of functions laid out from `start` on. -/
def blocksOf (start : Nat) (functions : List CompiledFunction) : List Block :=
  (number start functions).flatMap fun (id, function) => function.blocks id

theorem number_append (start : Nat) (first second : List CompiledFunction) :
    number start (first ++ second) =
      number start first ++ number (start + (blocksOf start first).length) second := by
  induction first generalizing start with
  | nil => simp [number, blocksOf]
  | cons function rest ih =>
    simp only [List.cons_append, number, ih, blocksOf, List.flatMap_cons, List.length_append,
      length_blocks]
    congr 3
    omega

@[simp] theorem map_snd_number (start : Nat) (functions : List CompiledFunction) :
    (number start functions).map Prod.snd = functions := by
  induction functions generalizing start with
  | nil => rfl
  | cons function rest ih => simp [number, ih]

theorem mem_of_mem_number {start id : Nat} {function : CompiledFunction}
    {functions : List CompiledFunction} (member : (id, function) ∈ number start functions) :
    function ∈ functions := by
  rw [← map_snd_number start functions]
  exact List.mem_map_of_mem member

theorem map_name_blocksOf (start : Nat) (functions : List CompiledFunction) :
    (blocksOf start functions).map Block.name = functions.flatMap names := by
  induction functions generalizing start with
  | nil => rfl
  | cons function rest ih =>
    have tail := ih (start + 1 + function.code.arms.size)
    simp only [blocksOf] at tail
    simp [blocksOf, number, tail]

/-- The blocks of a function stand together, from the number of its body on. -/
theorem blocksOf_split {start id : Nat} {function : CompiledFunction}
    {functions : List CompiledFunction} (member : (id, function) ∈ number start functions) :
    ∃ before after, blocksOf start functions = before ++ function.blocks id ++ after ∧
      start + before.length = id := by
  induction functions generalizing start with
  | nil => cases member
  | cons head rest ih =>
    rcases List.mem_cons.mp member with same | inRest
    · cases same
      exact ⟨[], blocksOf (id + 1 + function.code.arms.size) rest, by simp [blocksOf, number], rfl⟩
    · obtain ⟨before, after, split, place⟩ := ih inRest
      refine ⟨head.blocks start ++ before, after, ?_, ?_⟩
      · simp only [blocksOf, number, List.flatMap_cons, List.append_assoc] at split ⊢
        rw [split]
      · simp only [List.length_append, length_blocks]
        omega

theorem le_of_mem_number {start id : Nat} {function : CompiledFunction}
    {functions : List CompiledFunction} (member : (id, function) ∈ number start functions) :
    start ≤ id := by
  obtain ⟨before, after, -, place⟩ := blocksOf_split member
  omega

/-- No two functions have one number. -/
theorem nodup_number (start : Nat) (functions : List CompiledFunction) :
    ((number start functions).map Prod.fst).Nodup := by
  induction functions generalizing start with
  | nil => exact List.nodup_nil
  | cons function rest ih =>
    refine List.nodup_cons.mpr ⟨fun member => ?_, ih _⟩
    obtain ⟨⟨id, other⟩, isNumbered, same⟩ := List.mem_map.mp member
    have later := le_of_mem_number isNumbered
    simp only at same
    omega

end CompiledFunction

/-! ## Walking the blocks of a function -/

theorem ObjectProgram.block_eq_ok {program : ObjectProgram} (before after : List Block)
    {block : Block} (blocks : program.blocks = before ++ block :: after) :
    program.block before.length = .ok block := by
  simp [ObjectProgram.block, blocks]

/-- Going through the outermost arms of a forest, each with all that is nested in it, is going
through all its arms. -/
theorem ObjectProgram.visit_roots {α : Type} {program : ObjectProgram}
    {visit : Block → Except CompileError α} {scope : Nat} (forest : Forest) :
    ∀ (before after : List Block) {depth : Nat},
      program.blocks = before ++ forest.place scope before.length ++ after →
      forest.size ≤ depth →
      (do return (← (forest.roots before.length).mapM (program.visitFrom visit depth)).flatten) =
        (forest.place scope before.length).mapM visit := by
  induction forest with
  | nil => intros; rfl
  | node name instrs nested next ihNested ihNext =>
    intro before after depth blocks enough
    simp only [Forest.size] at enough
    obtain ⟨depth, rfl⟩ : ∃ smaller, depth = smaller + 1 := ⟨depth - 1, by omega⟩
    -- the arm itself comes first, then what is nested in it, then its neighbours
    let arm : Block :=
      { name, scope, instrs, children := nested.roots (before.length + 1) }
    have nestedWalk := ihNested (before ++ [arm])
      (next.place scope (before.length + 1 + nested.size) ++ after)
      (by simp [blocks, Forest.place, arm]) (show nested.size ≤ depth by omega)
    have nextWalk := ihNext (before ++ arm :: nested.place scope (before.length + 1)) after
      (by simp [blocks, Forest.place, arm, Nat.add_assoc, Nat.add_comm nested.size])
      (show next.size ≤ depth + 1 by omega)
    simp only [List.length_append, List.length_cons, List.length_nil, Forest.length_place,
      ← Nat.add_assoc, Nat.zero_add, Nat.add_right_comm _ nested.size 1] at nestedWalk nextWalk
    have armAt : program.block before.length = .ok arm :=
      block_eq_ok before (nested.place scope (before.length + 1) ++
        next.place scope (before.length + 1 + nested.size) ++ after)
        (by simp [blocks, Forest.place, arm])
    simp only [Forest.roots, Forest.place, List.mapM_cons, List.mapM_append, ← nestedWalk,
      ← nextWalk, visitFrom, armAt, arm]
    simp [bind_assoc]

/-- The walk from a function body is a walk through the blocks of the function in order. -/
theorem ObjectProgram.visitTree_eq_mapM {α : Type} {program : ObjectProgram}
    {visit : Block → Except CompileError α} {function : CompiledFunction}
    (before after : List Block)
    (blocks : program.blocks = before ++ function.blocks before.length ++ after) :
    program.visitTree visit before.length = (function.blocks before.length).mapM visit := by
  let body : Block :=
    { name := function.decl.name, frame := function.decl.params, scope := before.length,
      instrs := function.code.instrs, children := function.code.arms.roots (before.length + 1) }
  have walk := @visit_roots α program visit before.length function.code.arms (before ++ [body])
    after program.blocks.length (by simp [blocks, CompiledFunction.blocks, body])
    (by simp [blocks]; omega)
  have bodyAt : program.block before.length = .ok body :=
    block_eq_ok before (function.code.arms.place before.length (before.length + 1) ++ after)
      (by simp [blocks, CompiledFunction.blocks, body])
  simp only [List.length_append, List.length_singleton] at walk
  simp only [visitTree, visitFrom, bodyAt, CompiledFunction.blocks, List.mapM_cons, ← walk, body]
  simp

/-! ## What generation puts together -/

/-- The constants are those of `definitions`: each stands for the code of its expression, comments
apart. -/
structure Defines (options : Options) (definitions : List (String × Expr))
    (constants : Constants) : Prop where
  absent : ∀ name, definitions.lookup name = none → constants.body? name = none
  present : ∀ name value, definitions.lookup name = some value →
    ∃ code, value.code options [] = .ok code ∧
      ∃ body, constants.body? name = some body ∧
        body.map Instr.uncommented = code.map Instr.uncommented

/-- The object program consists of the compiled functions and the defined constants. -/
structure Assembled (options : Options) (sources : List FunctionDecl)
    (definitions : List (String × Expr)) (object : ObjectProgram)
    (functions : List CompiledFunction) : Prop where
  decls : functions.map CompiledFunction.decl = sources
  code : ∀ function ∈ functions, function.decl.code options = .ok function.code
  nodup : (sources.map FunctionDecl.name).Nodup
  blocks : object.blocks = CompiledFunction.blocksOf 0 functions
  numbers : object.functions = (CompiledFunction.number 0 functions).map Prod.fst
  index : object.index =
    (object.blocks.zipIdx.map fun (block, id) => (block.name, id)).reverse
  constants : Defines options definitions object.constants
  distinct : (definitions.map Prod.fst).Nodup

namespace Defines

variable {options : Options} {definitions : List (String × Expr)} {constants : Constants}

theorem body?_eq_none_iff (defines : Defines options definitions constants) (name : String) :
    constants.body? name = none ↔ definitions.lookup name = none := by
  refine ⟨fun absent => ?_, defines.absent name⟩
  cases defined : definitions.lookup name with
  | none => rfl
  | some value =>
    obtain ⟨-, -, body, known, -⟩ := defines.present name value defined
    rw [absent] at known
    cases known

theorem insert (defines : Defines options definitions constants) {name : String} {value : Expr}
    {code body : List Instr} (fresh : constants.body? name = none)
    (compiled : value.code options [] = .ok code)
    (same : body.map Instr.uncommented = code.map Instr.uncommented) :
    Defines options (definitions ++ [(name, value)]) (constants.insert name body) := by
  have undefined : definitions.lookup name = none := (defines.body?_eq_none_iff name).mp fresh
  constructor
  · intro query absent
    rw [List.lookup_append, Option.or_eq_none_iff] at absent
    obtain ⟨notBefore, notName⟩ := absent
    have distinct : query ≠ name := by
      rintro rfl
      simp at notName
    rw [Constants.body?_insert, if_neg distinct]
    exact defines.absent query notBefore
  · intro query found present
    rw [List.lookup_append] at present
    by_cases isName : query = name
    · subst isName
      rw [undefined, Option.none_or, List.lookup_cons_self] at present
      cases present
      exact ⟨code, compiled, body, by simp [Constants.body?_insert], same⟩
    · have notLast : List.lookup query [(name, value)] = none := by simp [isName]
      rw [notLast, Option.or_none] at present
      rw [Constants.body?_insert, if_neg isName]
      exact defines.present query found present

end Defines

namespace Assembled

variable {options : Options} {sources : List FunctionDecl} {definitions : List (String × Expr)}
  {object : ObjectProgram} {functions : List CompiledFunction}

theorem empty (options : Options) (name : String) :
    Assembled options [] [] { name } [] where
  decls := rfl
  code := by simp
  nodup := List.nodup_nil
  blocks := rfl
  numbers := rfl
  index := rfl
  constants := ⟨fun _ _ => rfl, by simp⟩
  distinct := List.nodup_nil

theorem name_mem_index (assembled : Assembled options sources definitions object functions)
    {name : String} (fresh : object.find? name = none) :
    name ∉ object.blocks.map Block.name := by
  intro member
  obtain ⟨block, isBlock, rfl⟩ := List.mem_map.mp member
  obtain ⟨id, bound, rfl⟩ := List.mem_iff_getElem.mp isBlock
  rw [ObjectProgram.find?, List.lookup_eq_none_iff, assembled.index] at fresh
  have listed : (object.blocks[id].name, id) ∈
      (object.blocks.zipIdx.map fun (block, id) => (block.name, id)).reverse := by
    rw [List.mem_reverse, List.mem_map]
    exact ⟨(object.blocks[id], id), by simp [List.mem_zipIdx_iff_getElem?], rfl⟩
  simpa using fresh _ listed

theorem name_mem_blocks (assembled : Assembled options sources definitions object functions)
    {decl : FunctionDecl} (member : decl ∈ sources) :
    decl.name ∈ object.blocks.map Block.name := by
  rw [← assembled.decls] at member
  obtain ⟨function, isFunction, rfl⟩ := List.mem_map.mp member
  rw [assembled.blocks, CompiledFunction.map_name_blocksOf]
  exact List.mem_flatMap.mpr ⟨function, isFunction, List.mem_cons_self⟩

theorem declareFunction (assembled : Assembled options sources definitions object functions)
    {decl : FunctionDecl} {extended : ObjectProgram}
    (declared : object.declareFunction options decl = .ok extended) :
    ∃ code, Assembled options (sources ++ [decl]) definitions extended
      (functions ++ [⟨decl, code⟩]) := by
  obtain ⟨_, isFresh, code, codeOk, rfl⟩ := by
    simpa only [ObjectProgram.declareFunction, bind_eq_ok, pure_eq_ok] using declared
  have unknown : object.find? decl.name = none := by
    simpa [ObjectProgram.requireFresh] using isFresh
  have single : CompiledFunction.number object.blocks.length [⟨decl, code⟩] =
      [(object.blocks.length, ⟨decl, code⟩)] := rfl
  refine ⟨code, ?_, ?_, ?_, ?_, ?_, ?_, ?_, assembled.distinct⟩
  · simp [assembled.decls]
  · intro function member
    rcases List.mem_append.mp member with isOld | isNew
    · exact assembled.code function isOld
    · rw [List.mem_singleton] at isNew
      subst isNew
      exact codeOk
  · -- a name that a function has would be found among the blocks
    rw [List.map_append, List.map_singleton, List.nodup_append']
    refine ⟨assembled.nodup, List.nodup_singleton _, ?_⟩
    rw [List.disjoint_singleton]
    intro isOld
    obtain ⟨other, isDecl, sameName⟩ := List.mem_map.mp isOld
    exact assembled.name_mem_index unknown (sameName ▸ assembled.name_mem_blocks isDecl)
  · rw [CompiledFunction.blocksOf, CompiledFunction.number_append, List.flatMap_append,
      ← CompiledFunction.blocksOf, Nat.zero_add, ← assembled.blocks, single]
    simp [ObjectProgram.install, CompiledFunction.blocks]
  · rw [CompiledFunction.number_append, Nat.zero_add, ← assembled.blocks, single,
      ObjectProgram.functions_install, assembled.numbers]
    simp
  · simp [ObjectProgram.install, ObjectProgram.addBlocks, assembled.index, List.zipIdx_append]
  · exact assembled.constants

theorem addConst (assembled : Assembled options sources definitions object functions) {name : String}
    {value : Expr} {code body : List Instr} {extended : ObjectProgram}
    (compiled : value.code options [] = .ok code)
    (same : body.map Instr.uncommented = code.map Instr.uncommented)
    (added : object.addConst name body = .ok extended) :
    Assembled options sources (definitions ++ [(name, value)]) extended functions := by
  unfold ObjectProgram.addConst at added
  split at added
  · cases added
  · rename_i isSome
    cases added
    have absent : object.constants.body? name = none := by simpa using isSome
    have undefined := (assembled.constants.body?_eq_none_iff name).mp absent
    refine { assembled with
      constants := assembled.constants.insert absent compiled same, distinct := ?_ }
    rw [List.map_append, List.map_singleton, List.nodup_append']
    refine ⟨assembled.distinct, List.nodup_singleton _, ?_⟩
    rw [List.disjoint_singleton]
    intro isOld
    obtain ⟨entry, isEntry, rfl⟩ := List.mem_map.mp isOld
    simpa using List.lookup_eq_none_iff.mp undefined entry isEntry

/-- Constants that are added one by one add their definitions. -/
theorem addConsts {α : Type} {add : ObjectProgram → α → Except CompileError ObjectProgram}
    {define : α → String × Expr}
    (addOne : ∀ {definitions : List (String × Expr)} {object extended : ObjectProgram} (item : α),
      Assembled options sources definitions object functions → add object item = .ok extended →
      Assembled options sources (definitions ++ [define item]) extended functions) :
    ∀ (items : List α) {definitions : List (String × Expr)} {object extended : ObjectProgram},
      Assembled options sources definitions object functions →
      items.foldlM add object = .ok extended →
      Assembled options sources (definitions ++ items.map define) extended functions
  | [], _, _, _, assembled, added => by
    rw [List.foldlM_nil, pure_eq_ok] at added
    subst added
    simpa using assembled
  | item :: rest, _, _, _, assembled, added => by
    obtain ⟨middle, first, later⟩ := by simpa only [List.foldlM_cons, bind_eq_ok] using added
    have done := addConsts addOne rest (addOne item assembled first) later
    simpa using done

theorem declareConsts (assembled : Assembled options sources definitions object functions)
    {group : ConstGroup} {extended : ObjectProgram}
    (declared : object.declareConsts options group = .ok extended) :
    Assembled options sources (definitions ++ group.definitions) extended functions := by
  unfold ObjectProgram.declareConsts at declared
  unfold ConstGroup.definitions
  cases isValue : group.values with
  | ordinals =>
    simp only [isValue] at declared ⊢
    refine addConsts ?_ _ assembled declared
    intro definitions object extended item assembled added
    have compiled : (Expr.int (Int64.ofNat item.2)).code options [] =
        .ok [.ldc (Int64.ofNat item.2)] := rfl
    exact assembled.addConst compiled (by simp) added
  | exprs values =>
    simp only [isValue] at declared ⊢
    by_cases sameLength : values.length = group.names.length
    · rw [if_pos sameLength] at declared
      rw [← List.map_id (group.names.zip values)]
      refine addConsts ?_ _ assembled declared
      intro definitions object extended item assembled added
      obtain ⟨code, compiled, inserted⟩ := by
        simpa only [ObjectProgram.declareExpr, bind_eq_ok] using added
      exact assembled.addConst compiled (by simp [Function.comp_def]) inserted
    · rw [if_neg sameLength] at declared
      cases declared

theorem declareAll (name : String) : ∀ (items : List Decl) {sources : List FunctionDecl}
    {definitions : List (String × Expr)} {object extended : ObjectProgram}
    {functions : List CompiledFunction},
    Assembled options sources definitions object functions →
    items.foldlM (ObjectProgram.declare options) object = .ok extended →
    ∃ functions, Assembled options (sources ++ Program.functions ⟨name, items⟩)
      (definitions ++ Program.constants ⟨name, items⟩) extended functions
  | [], _, _, _, _, functions, assembled, generated => by
    rw [List.foldlM_nil, pure_eq_ok] at generated
    subst generated
    exact ⟨functions, by simpa [Program.functions, Program.constants] using assembled⟩
  | .function decl :: rest, _, _, _, _, _, assembled, generated => by
    obtain ⟨middle, declared, later⟩ := by
      simpa only [List.foldlM_cons, bind_eq_ok, ObjectProgram.declare] using generated
    obtain ⟨code, grown⟩ := assembled.declareFunction declared
    obtain ⟨functions, done⟩ := declareAll name rest grown later
    exact ⟨functions, by simpa [Program.functions, Program.constants] using done⟩
  | .consts group :: rest, _, _, _, _, _, assembled, generated => by
    obtain ⟨middle, declared, later⟩ := by
      simpa only [List.foldlM_cons, bind_eq_ok, ObjectProgram.declare] using generated
    obtain ⟨functions, done⟩ := declareAll name rest (assembled.declareConsts declared) later
    exact ⟨functions, by simpa [Program.functions, Program.constants] using done⟩

end Assembled

/-- What generation gives is assembled from the functions and the constants of the source. -/
theorem Program.assembled_of_object {options : Options} {program : Program}
    {object : ObjectProgram} (generated : program.object options = .ok object) :
    ∃ functions, Assembled options program.functions program.constants object functions := by
  have done := Assembled.declareAll program.name program.decls
    (Assembled.empty options program.name) generated
  simpa using done

/-! ## Looking up names -/

namespace CompiledFunction

variable {options : Options} {function : CompiledFunction}

theorem under_of_mem_names (compiled : function.decl.code options = .ok function.code)
    {name : String} (member : name ∈ function.names) : Under function.decl.name name := by
  obtain ⟨body, yields, -, arms⟩ := FunctionDecl.yields_of_code compiled
  rcases List.mem_cons.mp member with rfl | inArms
  · exact .refl _
  · exact (yields.under_block (arms ▸ inArms)).1

theorem nodup_names (compiled : function.decl.code options = .ok function.code) :
    function.names.Nodup := by
  obtain ⟨body, yields, -, arms⟩ := FunctionDecl.yields_of_code compiled
  rw [names, arms, List.nodup_cons]
  exact ⟨fun member => (yields.under_block member).2 (.refl _), yields.nodup_names⟩

end CompiledFunction

namespace Assembled

variable {options : Options} {sources : List FunctionDecl} {definitions : List (String × Expr)}
  {object : ObjectProgram} {functions : List CompiledFunction}

theorem mem_sources (assembled : Assembled options sources definitions object functions)
    {function : CompiledFunction} (member : function ∈ functions) : function.decl ∈ sources := by
  rw [← assembled.decls]
  exact List.mem_map_of_mem member

/-- Every definition is found by its name. -/
theorem lookup_of_mem (assembled : Assembled options sources definitions object functions)
    {name : String} {value : Expr} (defined : (name, value) ∈ definitions) :
    definitions.lookup name = some value := by
  cases found : definitions.lookup name with
  | none => simpa using List.lookup_eq_none_iff.mp found _ defined
  | some other =>
    obtain ⟨before, after, split, -⟩ := List.lookup_eq_some_iff.mp found
    have isOther : (name, other) ∈ definitions := by simp [split]
    have same := List.inj_on_of_nodup_map assembled.distinct isOther defined rfl
    rw [(Prod.mk.inj same).2]

/-- Every declared function has been compiled. -/
theorem exists_numbered (assembled : Assembled options sources definitions object functions)
    {decl : FunctionDecl} (isDecl : decl ∈ sources) :
    ∃ id function, (id, function) ∈ CompiledFunction.number 0 functions ∧ function.decl = decl := by
  rw [← assembled.decls] at isDecl
  obtain ⟨function, isFunction, rfl⟩ := List.mem_map.mp isDecl
  rw [← CompiledFunction.map_snd_number 0 functions] at isFunction
  obtain ⟨⟨id, numbered⟩, isNumbered, rfl⟩ := List.mem_map.mp isFunction
  exact ⟨id, numbered, isNumbered, rfl⟩

/-- Functions with one name are the same function. -/
theorem eq_of_name (assembled : Assembled options sources definitions object functions)
    {first second : Nat × CompiledFunction}
    (isFirst : first ∈ CompiledFunction.number 0 functions)
    (isSecond : second ∈ CompiledFunction.number 0 functions)
    (sameName : first.2.decl.name = second.2.decl.name) : first = second := by
  have names : (CompiledFunction.number 0 functions).map (fun entry => entry.2.decl.name) =
      sources.map FunctionDecl.name := by
    rw [← assembled.decls, List.map_map,
      ← CompiledFunction.map_snd_number 0 functions, List.map_map,
      CompiledFunction.map_snd_number]
    rfl
  have nodup := assembled.nodup
  rw [← names] at nodup
  exact List.inj_on_of_nodup_map nodup isFirst isSecond sameName

/-- Names of blocks are different if no two functions share one. -/
theorem nodup_of_disjoint (assembled : Assembled options sources definitions object functions)
    (apart : ∀ first ∈ functions, ∀ second ∈ functions, first.decl.name ≠ second.decl.name →
      ∀ name ∈ first.names, name ∉ second.names) :
    (functions.flatMap CompiledFunction.names).Nodup := by
  rw [List.nodup_flatMap]
  refine ⟨fun function member => CompiledFunction.nodup_names (assembled.code function member), ?_⟩
  have distinct : functions.Pairwise fun first second => first.decl.name ≠ second.decl.name := by
    have nodup := assembled.nodup
    rwa [← assembled.decls, List.map_map, List.Nodup, List.pairwise_map] at nodup
  exact distinct.imp_of_mem fun isFirst isSecond differ name =>
    apart _ isFirst _ isSecond differ name

/-- The blocks have different names, in whatever order the functions are taken. -/
theorem nodup_names (assembled : Assembled options sources definitions object functions)
    (dotFree : ∀ decl ∈ sources, DotFree decl.name) {order : List CompiledFunction}
    (perm : order.Perm functions) : (order.flatMap CompiledFunction.names).Nodup := by
  rw [(perm.flatMap_right _).nodup_iff]
  refine assembled.nodup_of_disjoint fun first isFirst second isSecond differ name inFirst
    inSecond => ?_
  exact differ (eq_of_under (dotFree _ (assembled.mem_sources isFirst))
    (dotFree _ (assembled.mem_sources isSecond))
    (CompiledFunction.under_of_mem_names (assembled.code first isFirst) inFirst)
    (CompiledFunction.under_of_mem_names (assembled.code second isSecond) inSecond))

theorem block_of_find? (assembled : Assembled options sources definitions object functions)
    {name : String} {id : Nat} (found : object.find? name = some id) :
    ∃ block, object.blocks[id]? = some block ∧ block.name = name := by
  rw [ObjectProgram.find?, List.lookup_eq_some_iff, assembled.index] at found
  obtain ⟨before, after, split, -⟩ := found
  have listed : (name, id) ∈
      (object.blocks.zipIdx.map fun (block, id) => (block.name, id)).reverse := by
    rw [split]
    simp
  rw [List.mem_reverse, List.mem_map] at listed
  obtain ⟨⟨block, number⟩, isBlock, same⟩ := listed
  cases same
  exact ⟨block, List.mem_zipIdx_iff_getElem?.mp isBlock, rfl⟩

/-- Where no two blocks have one name, the index leads from a name back to its block. -/
theorem find?_of_nodup (assembled : Assembled options sources definitions object functions)
    (nodup : (object.blocks.map Block.name).Nodup) {id : Nat} {block : Block}
    (isBlock : object.blocks[id]? = some block) : object.find? block.name = some id := by
  cases found : object.find? block.name with
  | none =>
    refine absurd ?_ (assembled.name_mem_index found)
    exact List.mem_map_of_mem (List.mem_of_getElem? isBlock)
  | some other =>
    obtain ⟨otherBlock, isOther, sameName⟩ := assembled.block_of_find? found
    have otherAt : (object.blocks.map Block.name)[other]? = some block.name := by
      simp [isOther, sameName]
    have blockAt : (object.blocks.map Block.name)[id]? = some block.name := by simp [isBlock]
    obtain ⟨otherBound, -⟩ := List.getElem?_eq_some_iff.mp otherAt
    rw [(List.getElem?_inj otherBound nodup).mp (otherAt.trans blockAt.symm)]

/-- The index finds every block by its name. -/
theorem find?_name (assembled : Assembled options sources definitions object functions)
    (dotFree : ∀ decl ∈ sources, DotFree decl.name) {id : Nat} {block : Block}
    (isBlock : object.blocks[id]? = some block) : object.find? block.name = some id := by
  refine assembled.find?_of_nodup ?_ isBlock
  rw [assembled.blocks, CompiledFunction.map_name_blocksOf]
  exact assembled.nodup_names dotFree (List.Perm.refl _)

theorem getElem?_body (assembled : Assembled options sources definitions object functions)
    {id : Nat} {function : CompiledFunction}
    (member : (id, function) ∈ CompiledFunction.number 0 functions) :
    ∃ body, object.blocks[id]? = some body ∧ body.name = function.decl.name ∧
      body.frame = function.decl.params := by
  obtain ⟨before, after, split, place⟩ := CompiledFunction.blocksOf_split member
  rw [Nat.zero_add] at place
  subst place
  rw [assembled.blocks, split]
  simp [CompiledFunction.blocks]

/-- Whatever can be looked up as a function is a declared one. -/
theorem exists_of_function? (assembled : Assembled options sources definitions object functions)
    {name : String} {id : Nat} (found : object.function? name = some id) :
    ∃ function, (id, function) ∈ CompiledFunction.number 0 functions ∧
      function.decl.name = name := by
  simp only [ObjectProgram.function?, Option.filter_eq_some_iff, decide_eq_true_eq,
    assembled.numbers, List.mem_map] at found
  obtain ⟨inIndex, ⟨number, function⟩, isNumbered, rfl⟩ := found
  obtain ⟨block, isBlock, rfl⟩ := assembled.block_of_find? inIndex
  obtain ⟨body, isBody, named, -⟩ := assembled.getElem?_body isNumbered
  rw [isBody] at isBlock
  cases isBlock
  exact ⟨function, isNumbered, named.symm⟩

/-- The functions that can be looked up are the declared ones. -/
theorem function?_eq_some_iff (assembled : Assembled options sources definitions object functions)
    (dotFree : ∀ decl ∈ sources, DotFree decl.name) {name : String} {id : Nat} :
    object.function? name = some id ↔
      ∃ function, (id, function) ∈ CompiledFunction.number 0 functions ∧
        function.decl.name = name := by
  refine ⟨assembled.exists_of_function?, ?_⟩
  rintro ⟨function, isNumbered, rfl⟩
  obtain ⟨body, isBody, named, -⟩ := assembled.getElem?_body isNumbered
  have found := assembled.find?_name dotFree isBody
  simp only [ObjectProgram.function?, Option.filter_eq_some_iff, decide_eq_true_eq,
    assembled.numbers, List.mem_map]
  exact ⟨named ▸ found, (id, function), isNumbered, rfl⟩

theorem visitTree_eq {α : Type}
    (assembled : Assembled options sources definitions object functions)
    {visit : Block → Except CompileError α} {id : Nat} {function : CompiledFunction}
    (member : (id, function) ∈ CompiledFunction.number 0 functions) :
    object.visitTree visit id = (function.blocks id).mapM visit := by
  obtain ⟨before, after, split, place⟩ := CompiledFunction.blocksOf_split member
  rw [Nat.zero_add] at place
  subst place
  exact ObjectProgram.visitTree_eq_mapM before after (by rw [assembled.blocks, split])

end Assembled

end Secd
