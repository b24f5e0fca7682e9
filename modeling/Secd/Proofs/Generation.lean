import Mathlib.Data.List.Induction
import Secd.Proofs.Linking

namespace Secd

open Results

/-! # Which programs can be generated

Where no function has a dot in its name, an object program is generated exactly if functions have
different names and so have constants, if every function and the value of every constant has code,
and if groups of constants have as many values as names (`Program.object_succeeds_iff`). None of
this depends on the order of declarations. Neither does the table of constants, which is in the
order of their names (`Constants.ofList_eq_of_perm`); it is the table of `Program.entries`
(`Program.constants_of_object`).
-/

/-! ## Tables of constants -/

namespace Constants

/-- Which of two constants is inserted first does not matter. -/
theorem insert_comm {name other : String} (differ : name ≠ other) (body otherBody : List Instr)
    (constants : Constants) :
    insert other otherBody (insert name body constants) =
      insert name body (insert other otherBody constants) := by
  induction constants with
  | nil => grind [insert]
  | cons entry rest ih =>
    obtain ⟨third, thirdBody⟩ := entry
    -- where the two stand relative to the first constant of the table decides
    grind [insert]

/-- Enters constants one after the other. -/
def insertAll (constants : Constants) (entries : List (String × List Instr)) : Constants :=
  entries.foldl (fun constants (name, body) => insert name body constants) constants

theorem ofList_append (entries others : List (String × List Instr)) :
    ofList (entries ++ others) = (ofList entries).insertAll others :=
  List.foldl_append

/-- The table does not depend on the order in which constants are entered. -/
theorem ofList_eq_of_perm {entries others : List (String × List Instr)}
    (perm : entries.Perm others) (nodup : (entries.map Prod.fst).Nodup) :
    ofList entries = ofList others := by
  refine perm.foldl_eq' (fun first isFirst second isSecond constants => ?_) []
  by_cases same : first = second
  · rw [same]
  · refine insert_comm (fun sameName => same ?_) first.2 second.2 constants
    exact List.inj_on_of_nodup_map nodup isFirst isSecond sameName

end Constants

/-! ## The constants of a program with their instructions -/

/-- The group has a value for each of its names. -/
def ConstGroup.Balanced (group : ConstGroup) : Prop :=
  match group.values with
  | .ordinals => True
  | .exprs values => values.length = group.names.length

/-- The constants of a group with the instructions they stand for; where a value has no code there
are none. -/
def ConstGroup.entries (options : Options) (group : ConstGroup) : List (String × List Instr) :=
  match group.values with
  | .ordinals => group.names.zipIdx.map fun (name, ordinal) =>
      (name, [(Instr.ldc (Int64.ofNat ordinal)).commented name])
  | .exprs values => (group.names.zip values).map fun (name, value) =>
      (name, ((value.code options []).toOption.getD []).map (·.orCommented (some name)))

namespace Program

/-- The same for all groups, in declaration order. -/
def entries (options : Options) (program : Program) : List (String × List Instr) :=
  program.decls.flatMap fun
    | .function _ => []
    | .consts group => group.entries options

/-- The conditions under which an object program can be generated. -/
structure Generable (options : Options) (program : Program) : Prop where
  functions : (program.functions.map FunctionDecl.name).Nodup
  code : ∀ decl ∈ program.functions, ∃ code, decl.code options = .ok code
  balanced : ∀ group, .consts group ∈ program.decls → group.Balanced
  constants : (program.constants.map Prod.fst).Nodup
  values : ∀ definition ∈ program.constants, ∃ code, definition.2.code options [] = .ok code

end Program

theorem ConstGroup.map_fst_entries (options : Options) (group : ConstGroup) :
    (group.entries options).map Prod.fst = group.definitions.map Prod.fst := by
  unfold entries definitions
  cases group.values with
  | ordinals => simp [Function.comp_def]
  | exprs values => simp [Function.comp_def]

theorem Program.map_fst_entries (options : Options) (program : Program) :
    (program.entries options).map Prod.fst = program.constants.map Prod.fst := by
  rw [entries, constants, List.map_flatMap, List.map_flatMap]
  refine List.flatMap_congr fun decl _ => ?_
  cases decl with
  | function _ => rfl
  | consts group => exact group.map_fst_entries options

/-! ## Declaring -/

namespace ObjectProgram

theorem addConst_eq_ok {object : ObjectProgram} {name : String}
    (isNew : object.constants.body? name = none) (body : List Instr) :
    object.addConst name body =
      .ok { object with constants := object.constants.insert name body } := by
  simp [addConst, isNew]

/-- Constants of new and different names are entered one after the other. -/
theorem foldlM_addConst : ∀ (entries : List (String × List Instr)) {object : ObjectProgram},
    (entries.map Prod.fst).Nodup →
    (∀ name ∈ entries.map Prod.fst, object.constants.body? name = none) →
    entries.foldlM (fun object (name, body) => object.addConst name body) object =
      .ok { object with constants := object.constants.insertAll entries }
  | [], _, _, _ => rfl
  | (name, body) :: rest, object, nodup, areNew => by
    obtain ⟨notLater, restNodup⟩ := List.nodup_cons.mp nodup
    simp only [List.foldlM_cons, addConst_eq_ok (areNew name List.mem_cons_self), ok_bind]
    refine foldlM_addConst rest restNodup fun other isLater => ?_
    have differ : other ≠ name := fun same => notLater (same ▸ isLater)
    rw [Constants.body?_insert, if_neg differ]
    exact areNew other (List.mem_cons_of_mem _ isLater)

/-- A group of constants is entered constant by constant. -/
theorem declareConsts_eq {options : Options} {group : ConstGroup} (balanced : group.Balanced)
    (values : ∀ definition ∈ group.definitions, ∃ code, definition.2.code options [] = .ok code)
    (object : ObjectProgram) :
    object.declareConsts options group =
      (group.entries options).foldlM (fun object (name, body) => object.addConst name body)
        object := by
  unfold declareConsts ConstGroup.entries
  unfold ConstGroup.Balanced at balanced
  unfold ConstGroup.definitions at values
  cases isValue : group.values with
  | ordinals =>
    simp only [List.foldlM_map]
    rfl
  | exprs exprs =>
    simp only [isValue] at balanced values ⊢
    rw [if_pos balanced, List.foldlM_map]
    refine foldlM_congr (fun (name, value) member object => ?_) object
    obtain ⟨code, compiled⟩ := values (name, value) member
    simp [declareExpr, compiled, Except.toOption]

end ObjectProgram

namespace Assembled

variable {options : Options} {sources : List FunctionDecl} {definitions : List (String × Expr)}
  {object : ObjectProgram} {functions : List CompiledFunction}

/-- A name without a dot that no function has is free. -/
theorem find?_eq_none (assembled : Assembled options sources definitions object functions)
    {name : String} (dotFree : DotFree name) (isNew : name ∉ sources.map FunctionDecl.name) :
    object.find? name = none := by
  cases found : object.find? name with
  | none => rfl
  | some id =>
    obtain ⟨block, isBlock, rfl⟩ := assembled.block_of_find? found
    have isName := List.mem_map_of_mem (f := Block.name) (List.mem_of_getElem? isBlock)
    rw [assembled.blocks, CompiledFunction.map_name_blocksOf] at isName
    obtain ⟨function, isFunction, inNames⟩ := List.mem_flatMap.mp isName
    have under := CompiledFunction.under_of_mem_names (assembled.code function isFunction) inNames
    rw [eq_of_under_of_dotFree dotFree under] at isNew
    exact absurd (List.mem_map_of_mem (assembled.mem_sources isFunction)) isNew

/-- The functions that can be looked up are those of the source. -/
theorem isSome_function?_iff (assembled : Assembled options sources definitions object functions)
    (dotFree : ∀ decl ∈ sources, DotFree decl.name) {name : String} :
    (object.function? name).isSome ↔ ∃ decl ∈ sources, decl.name = name := by
  simp only [Option.isSome_iff_exists, assembled.function?_eq_some_iff dotFree]
  constructor
  · rintro ⟨id, function, isNumbered, rfl⟩
    have isFunction := CompiledFunction.mem_of_mem_number isNumbered
    exact ⟨function.decl, assembled.mem_sources isFunction, rfl⟩
  · rintro ⟨decl, isDecl, rfl⟩
    obtain ⟨id, function, isNumbered, rfl⟩ := assembled.exists_numbered isDecl
    exact ⟨id, function, isNumbered, rfl⟩

theorem body?_eq_none (assembled : Assembled options sources definitions object functions)
    {name : String} (isNew : name ∉ definitions.map Prod.fst) :
    object.constants.body? name = none := by
  refine assembled.constants.absent name (List.lookup_eq_none_iff.mpr fun definition member => ?_)
  have differ : name ≠ definition.1 := by
    rintro rfl
    exact isNew (List.mem_map_of_mem member)
  simpa using differ

end Assembled

/-! ## Success -/

namespace Program

variable {options : Options}

theorem functions_append (name : String) (first second : List Decl) :
    functions ⟨name, first ++ second⟩ = functions ⟨name, first⟩ ++ functions ⟨name, second⟩ := by
  simp [functions]

theorem constants_append (name : String) (first second : List Decl) :
    constants ⟨name, first ++ second⟩ = constants ⟨name, first⟩ ++ constants ⟨name, second⟩ := by
  simp [constants]

theorem entries_append (name : String) (first second : List Decl) :
    entries options ⟨name, first ++ second⟩ =
      entries options ⟨name, first⟩ ++ entries options ⟨name, second⟩ := by
  simp [entries]

/-- The conditions hold of the first declarations too. -/
theorem Generable.of_append {name : String} {first second : List Decl}
    (generable : Generable options ⟨name, first ++ second⟩) : Generable options ⟨name, first⟩ where
  functions := by
    have nodup := generable.functions
    rw [functions_append, List.map_append] at nodup
    exact nodup.of_append_left
  code := fun decl member => generable.code decl (by simp [functions_append, member])
  balanced := fun group member => generable.balanced group (List.mem_append_left _ member)
  constants := by
    have nodup := generable.constants
    rw [constants_append, List.map_append] at nodup
    exact nodup.of_append_left
  values := fun definition member =>
    generable.values definition (by simp [constants_append, member])

/-- One more declaration can be added. -/
theorem Generable.declare {name : String} {earlier : List Decl} {last : Decl}
    (generable : Generable options ⟨name, earlier ++ [last]⟩)
    (dotFree : ∀ decl ∈ Program.functions ⟨name, [last]⟩, Secd.DotFree decl.name)
    {object : ObjectProgram} (generated : Program.object options ⟨name, earlier⟩ = .ok object)
    (named : object.name = name)
    (constants : object.constants = Constants.ofList (entries options ⟨name, earlier⟩)) :
    ∃ extended, object.declare options last = .ok extended ∧ extended.name = name ∧
      extended.constants = Constants.ofList (entries options ⟨name, earlier ++ [last]⟩) := by
  obtain ⟨functions, assembled⟩ := assembled_of_object generated
  cases last with
  | function decl =>
    have isLast : decl ∈ Program.functions ⟨name, [.function decl]⟩ := by simp [Program.functions]
    obtain ⟨code, compiled⟩ := generable.code decl (by simp [functions_append, isLast])
    have isNew : decl.name ∉ (Program.functions ⟨name, earlier⟩).map FunctionDecl.name := by
      have nodup := generable.functions
      rw [functions_append, List.map_append] at nodup
      exact fun isOld => List.disjoint_of_nodup_append nodup isOld (List.mem_map_of_mem isLast)
    have free := assembled.find?_eq_none (dotFree decl isLast) isNew
    refine ⟨object.install decl.name decl.params code, ?_, named, ?_⟩
    · simp [ObjectProgram.declare, ObjectProgram.declareFunction, ObjectProgram.requireFresh, free,
        compiled]
    · have noMore : entries options ⟨name, [.function decl]⟩ = [] := rfl
      rw [entries_append, noMore, List.append_nil]
      exact constants
  | consts group =>
    have ofGroup : Program.constants ⟨name, [.consts group]⟩ = group.definitions := by
      simp [Program.constants]
    have entriesOfGroup : entries options ⟨name, [.consts group]⟩ = group.entries options := by
      simp [entries]
    have nodup := generable.constants
    rw [constants_append, List.map_append, ofGroup, ← group.map_fst_entries options] at nodup
    have values : ∀ definition ∈ group.definitions,
        ∃ code, definition.2.code options [] = .ok code := fun definition member =>
      generable.values definition (by simp [constants_append, ofGroup, member])
    have balanced := generable.balanced group (by simp)
    have declared := ObjectProgram.declareConsts_eq balanced values object
    rw [ObjectProgram.foldlM_addConst _ nodup.of_append_right fun other isLater =>
      assembled.body?_eq_none fun isOld =>
        List.disjoint_of_nodup_append nodup isOld isLater] at declared
    refine ⟨_, declared, named, ?_⟩
    rw [entries_append, entriesOfGroup, Constants.ofList_append, ← constants]

theorem Generable.object {program : Program} (generable : program.Generable options)
    (dotFree : ∀ decl ∈ program.functions, Secd.DotFree decl.name) :
    ∃ object, program.object options = .ok object ∧ object.name = program.name ∧
      object.constants = Constants.ofList (program.entries options) := by
  obtain ⟨name, decls⟩ := program
  -- declarations are added at the end, so the induction is from there
  induction decls using List.reverseRecOn with
  | nil => exact ⟨{ name }, rfl, rfl, rfl⟩
  | append_singleton earlier last ih =>
    simp only [functions_append, List.mem_append] at dotFree
    obtain ⟨object, generated, named, constants⟩ :=
      ih generable.of_append fun decl member => dotFree decl (.inl member)
    obtain ⟨extended, declared, rest⟩ := generable.declare
      (fun decl member => dotFree decl (.inr member)) generated named constants
    refine ⟨extended, ?_, rest⟩
    rw [Program.object, List.foldlM_append, bind_eq_ok]
    exact ⟨object, generated, by simpa using declared⟩

theorem balanced_of_declare {object extended : ObjectProgram} {group : ConstGroup}
    (declared : object.declareConsts options group = .ok extended) : group.Balanced := by
  unfold ObjectProgram.declareConsts at declared
  unfold ConstGroup.Balanced
  cases isValue : group.values with
  | ordinals => trivial
  | exprs values =>
    simp only [isValue] at declared ⊢
    by_contra differ
    rw [if_neg differ] at declared
    cases declared

theorem balanced_of_foldlM : ∀ (decls : List Decl) {object extended : ObjectProgram},
    decls.foldlM (ObjectProgram.declare options) object = .ok extended →
    ∀ group, .consts group ∈ decls → group.Balanced
  | [], _, _, _, _, member => by cases member
  | decl :: rest, object, extended, generated, group, member => by
    rw [List.foldlM_cons, bind_eq_ok] at generated
    obtain ⟨middle, declared, later⟩ := generated
    rcases List.mem_cons.mp member with rfl | inRest
    · exact balanced_of_declare declared
    · exact balanced_of_foldlM rest later group inRest

theorem Generable.of_object {program : Program} {object : ObjectProgram}
    (generated : program.object options = .ok object) : program.Generable options := by
  obtain ⟨functions, assembled⟩ := assembled_of_object generated
  refine ⟨assembled.nodup, fun decl isDecl => ?_, balanced_of_foldlM program.decls generated,
    assembled.distinct, fun ⟨name, value⟩ isDefined => ?_⟩
  · obtain ⟨id, function, isNumbered, rfl⟩ := assembled.exists_numbered isDecl
    exact ⟨function.code, assembled.code function (CompiledFunction.mem_of_mem_number isNumbered)⟩
  · obtain ⟨code, compiled, -⟩ :=
      assembled.constants.present name value (assembled.lookup_of_mem isDefined)
    exact ⟨code, compiled⟩

/-- The object program exists exactly under these conditions. -/
theorem object_succeeds_iff {program : Program}
    (dotFree : ∀ decl ∈ program.functions, Secd.DotFree decl.name) :
    (∃ object, program.object options = .ok object) ↔ program.Generable options := by
  constructor
  · rintro ⟨object, generated⟩
    exact .of_object generated
  · intro generable
    obtain ⟨object, generated, -⟩ := generable.object dotFree
    exact ⟨object, generated⟩

/-- What is generated has the name of the program and the table of its constants. -/
theorem constants_of_object {program : Program}
    (dotFree : ∀ decl ∈ program.functions, Secd.DotFree decl.name) {object : ObjectProgram}
    (generated : program.object options = .ok object) :
    object.name = program.name ∧
      object.constants = Constants.ofList (program.entries options) := by
  obtain ⟨other, alsoGenerated, same⟩ := (Generable.of_object generated).object dotFree
  rw [generated] at alsoGenerated
  cases alsoGenerated
  exact same

/-! ## Order of declarations -/

/-- The conditions do not depend on the order of declarations. -/
theorem Generable.of_perm {program other : Program} (perm : program.decls.Perm other.decls)
    (generable : program.Generable options) : other.Generable options where
  functions := ((perm.filterMap _).map _).nodup_iff.mp generable.functions
  code := fun decl member => generable.code decl ((perm.filterMap _).mem_iff.mpr member)
  balanced := fun group member => generable.balanced group (perm.mem_iff.mpr member)
  constants := ((perm.flatMap_right _).map _).nodup_iff.mp generable.constants
  values := fun definition member =>
    generable.values definition ((perm.flatMap_right _).mem_iff.mpr member)

end Program

end Secd
