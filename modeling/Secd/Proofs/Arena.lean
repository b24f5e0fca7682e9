import Mathlib.Data.List.Nodup
import Secd.Object
import Secd.Proofs.Results

namespace Secd

open Results

/-! # Object programs that are built step by step

An object program keeps its blocks in one list and ties them together by numbers: the index of
names, the list of functions, the scope of every block and its children. However such a program is
built (`ObjectProgram.build`), these agree with each other (`ObjectProgram.IsForest`): the blocks
are trees of arms under the bodies of functions. That holds of the empty program and is kept by
every operation, refused ones included (`IsForest.apply`); an arm that takes the name of another
block hides it in the index, but that is all it does.
-/

namespace ObjectProgram

/-! ## Operations -/

/-- What can be done to an object program. One instruction is appended as a list of one. -/
inductive Operation where
  | addFunction (name : String) (frame : List String)
  | addArm (parent : BlockId) (tag : String)
  | append (id : BlockId) (instrs : List Instr)
  | addConst (name : String) (body : List Instr)
  deriving DecidableEq, Repr

/-- The program after an operation, or the reason why the operation is refused. -/
def attempt (program : ObjectProgram) : Operation → Except CompileError ObjectProgram
  | .addFunction name frame => do return (← program.addFunction name frame).2
  | .addArm parent tag => do return (← program.addArm parent tag).2
  | .append id instrs => program.append id instrs
  | .addConst name body => program.addConst name body

/-- The program after an operation; one that is refused changes nothing. -/
def apply (program : ObjectProgram) (operation : Operation) : ObjectProgram :=
  (program.attempt operation).toOption.getD program

/-- The program that operations build, one after the other. -/
def build (name : String) (operations : List Operation) : ObjectProgram :=
  operations.foldl apply { name }

/-! ## The invariant -/

/-- The block has this number. -/
def Has (program : ObjectProgram) (id : BlockId) (block : Block) : Prop :=
  program.blocks[id]? = some block

/-- The blocks are trees under the bodies of functions, and everything that refers to a block by its
number agrees on that. -/
structure IsForest (program : ObjectProgram) : Prop where
  /-- An entry of the index leads to a block of its name. -/
  index : ∀ name id, (name, id) ∈ program.index → ∃ block, program.Has id block ∧ block.name = name
  /-- No block is missing in the index. -/
  indexed : ∀ id block, program.Has id block → (program.find? block.name).isSome
  increasing : program.functions.Pairwise (· < ·)
  /-- The functions are the blocks that are their own scope. -/
  bodies : ∀ id, id ∈ program.functions ↔ ∃ block, program.Has id block ∧ block.scope = id
  /-- Functions have different names. -/
  named : ∀ first ∈ program.functions, ∀ second ∈ program.functions, ∀ body other,
    program.Has first body → program.Has second other → body.name = other.name → first = second
  /-- Every scope is a function. -/
  scopes : ∀ id block, program.Has id block → block.scope ∈ program.functions
  /-- A child is an arm with a larger number and the same scope. -/
  nested : ∀ (id : Nat) block, program.Has id block → ∀ child : Nat, child ∈ block.children →
    id < child ∧ child ∉ program.functions ∧
      ∃ arm, program.Has child arm ∧ arm.scope = block.scope
  /-- A block that is no function opens no frame and is a child once, of one block. -/
  arms : ∀ id arm, program.Has id arm → id ∉ program.functions →
    arm.frame = [] ∧ ∃ parent owner, program.Has parent owner ∧ owner.children.count id = 1 ∧
      ∀ other block, program.Has other block → id ∈ block.children → other = parent

namespace Has

variable {program : ObjectProgram} {id : Nat} {block : Block}

theorem lt (has : program.Has id block) : id < program.blocks.length :=
  (List.getElem?_eq_some_iff.mp has).1

theorem unique (has : program.Has id block) {other : Block} (hasOther : program.Has id other) :
    block = other :=
  Option.some.inj (has.symm.trans hasOther)

theorem block_eq (has : program.Has id block) : program.block id = .ok block := by
  rw [Has] at has
  simp [ObjectProgram.block, has]

end Has

theorem exists_has {program : ObjectProgram} {id : BlockId} (bound : id < program.blocks.length) :
    ∃ block, program.Has id block :=
  ⟨_, List.getElem?_eq_getElem bound⟩

/-- The blocks after one more has been added. -/
theorem getElem?_concat {blocks : List Block} {last block : Block} {id : Nat} :
    (blocks ++ [last])[id]? = some block ↔
      blocks[id]? = some block ∨ id = blocks.length ∧ last = block := by
  rw [List.getElem?_append]
  split
  · rename_i bound
    simp [Nat.ne_of_lt bound]
  · rename_i bound
    have isLast : id - blocks.length = 0 ↔ id = blocks.length := by omega
    simp [List.getElem?_eq_none (Nat.le_of_not_lt bound), List.getElem?_singleton, isLast]

/-- The blocks after one has been changed. -/
theorem getElem?_modify {blocks : List Block} {change : Block → Block} {target id : Nat}
    {block : Block} :
    (blocks.modify target change)[id]? = some block ↔
      ∃ old, blocks[id]? = some old ∧ (if target = id then change old else old) = block := by
  rw [List.getElem?_modify, Option.map_eq_map, Option.map_eq_some_iff]

theorem isSome_find?_cons (program : ObjectProgram) (name query : String) (id : BlockId) :
    (List.lookup query ((name, id) :: program.index)).isSome ↔
      query = name ∨ (program.find? query).isSome := by
  rw [List.lookup_cons, find?]
  by_cases same : query = name
  · simp [same]
  · simp [same, beq_eq_false_iff_ne.mpr same]

namespace IsForest

variable {program : ObjectProgram}

theorem empty (name : String) : IsForest { name } where
  index := by simp
  indexed := by simp [Has]
  increasing := .nil
  bodies := by simp [Has]
  named := by simp
  scopes := by simp [Has]
  nested := by simp [Has]
  arms := by simp [Has]

theorem lt_of_mem_functions (forest : program.IsForest) {id : BlockId}
    (isFunction : id ∈ program.functions) : id < program.blocks.length := by
  obtain ⟨block, has, -⟩ := (forest.bodies id).mp isFunction
  exact has.lt

theorem lt_of_mem_children (forest : program.IsForest) {id child : BlockId} {block : Block}
    (has : program.Has id block) (isChild : child ∈ block.children) :
    child < program.blocks.length := by
  obtain ⟨-, -, arm, hasArm, -⟩ := forest.nested id block has child isChild
  exact hasArm.lt

/-! ## Adding a function -/

theorem install (forest : program.IsForest) {name : String} {frame : List String}
    (isNew : program.find? name = none) : (program.install name frame .empty).IsForest := by
  let body : Block := { name, frame, scope := program.blocks.length }
  have has : ∀ {id block}, (program.install name frame .empty).Has id block ↔
      program.Has id block ∨ id = program.blocks.length ∧ body = block := getElem?_concat
  have function : ∀ {id}, id ∈ (program.install name frame .empty).functions ↔
      id ∈ program.functions ∨ id = program.blocks.length := by simp
  have old : ∀ {id block}, program.Has id block → id ≠ program.blocks.length :=
    fun hasBlock => Nat.ne_of_lt hasBlock.lt
  -- the name is new, so no block has it
  have otherName : ∀ {id block}, program.Has id block → block.name ≠ name := by
    intro id block hasBlock same
    have isKnown := forest.indexed id block hasBlock
    rw [same, isNew] at isKnown
    cases isKnown
  refine ⟨?_, ?_, ?_, ?_, ?_, ?_, ?_, ?_⟩
  · intro query id isEntry
    rcases List.mem_cons.mp isEntry with isLast | isOld
    · obtain ⟨rfl, rfl⟩ := Prod.mk.inj isLast
      exact ⟨body, has.mpr (.inr ⟨rfl, rfl⟩), rfl⟩
    · obtain ⟨block, hasBlock, named⟩ := forest.index query id isOld
      exact ⟨block, has.mpr (.inl hasBlock), named⟩
  · intro id block hasBlock
    refine (isSome_find?_cons program name block.name _).mpr ?_
    rcases has.mp hasBlock with isOld | ⟨-, rfl⟩
    · exact .inr (forest.indexed id block isOld)
    · exact .inl rfl
  · refine List.pairwise_append.mpr ⟨forest.increasing, List.pairwise_singleton _ _, ?_⟩
    intro id isFunction last isLast
    rw [List.mem_singleton.mp isLast]
    exact forest.lt_of_mem_functions isFunction
  · intro id
    rw [function, forest.bodies]
    constructor
    · rintro (⟨block, hasBlock, own⟩ | rfl)
      · exact ⟨block, has.mpr (.inl hasBlock), own⟩
      · exact ⟨body, has.mpr (.inr ⟨rfl, rfl⟩), rfl⟩
    · rintro ⟨block, hasBlock, own⟩
      rcases has.mp hasBlock with isOld | ⟨rfl, -⟩
      · exact .inl ⟨block, isOld, own⟩
      · exact .inr rfl
  · intro first isFirst second isSecond block other hasBlock hasOther sameName
    rcases has.mp hasBlock with isOld | ⟨rfl, rfl⟩
    · rcases has.mp hasOther with otherIsOld | ⟨rfl, rfl⟩
      · exact forest.named first ((function.mp isFirst).resolve_right (old isOld)) second
          ((function.mp isSecond).resolve_right (old otherIsOld)) block other isOld otherIsOld
          sameName
      · exact absurd sameName (otherName isOld)
    · rcases has.mp hasOther with otherIsOld | ⟨rfl, rfl⟩
      · exact absurd sameName.symm (otherName otherIsOld)
      · rfl
  · intro id block hasBlock
    rcases has.mp hasBlock with isOld | ⟨-, rfl⟩
    · exact function.mpr (.inl (forest.scopes id block isOld))
    · exact function.mpr (.inr rfl)
  · intro id block hasBlock child isChild
    rcases has.mp hasBlock with isOld | ⟨-, rfl⟩
    · obtain ⟨larger, noBody, arm, hasArm, sameScope⟩ := forest.nested id block isOld child isChild
      refine ⟨larger, fun isFunction => ?_, arm, has.mpr (.inl hasArm), sameScope⟩
      exact (function.mp isFunction).elim noBody (old hasArm)
    · cases isChild
  · intro id arm hasArm isArm
    rcases has.mp hasArm with isOld | ⟨rfl, -⟩
    · obtain ⟨noFrame, parent, owner, hasOwner, once, only⟩ :=
        forest.arms id arm isOld fun isFunction => isArm (function.mpr (.inl isFunction))
      refine ⟨noFrame, parent, owner, has.mpr (.inl hasOwner), once, ?_⟩
      intro other block hasBlock isChild
      rcases has.mp hasBlock with otherIsOld | ⟨-, rfl⟩
      · exact only other block otherIsOld isChild
      · cases isChild
    · exact absurd (function.mpr (.inr rfl)) isArm

end IsForest

/-! ## Adding an arm -/

/-- A block after an arm has been added to `parent`. -/
def withArm (program : ObjectProgram) (parent id : BlockId) (block : Block) : Block :=
  if parent = id then { block with children := block.children ++ [program.blocks.length] }
  else block

section

variable (program : ObjectProgram) (parent id : BlockId) (block : Block)

@[simp] theorem name_withArm : (program.withArm parent id block).name = block.name := by
  unfold withArm
  split <;> rfl

@[simp] theorem frame_withArm : (program.withArm parent id block).frame = block.frame := by
  unfold withArm
  split <;> rfl

@[simp] theorem scope_withArm : (program.withArm parent id block).scope = block.scope := by
  unfold withArm
  split <;> rfl

theorem children_withArm : (program.withArm parent id block).children =
    block.children ++ if parent = id then [program.blocks.length] else [] := by
  unfold withArm
  split <;> simp

end

/-- What adding an arm does. -/
theorem addArm_eq_ok {program extended : ObjectProgram} {parent id : BlockId} {tag : String}
    (added : program.addArm parent tag = .ok (id, extended)) :
    ∃ owner arm, program.Has parent owner ∧ arm.scope = owner.scope ∧ arm.frame = [] ∧
      arm.children = [] ∧ extended.index = (arm.name, program.blocks.length) :: program.index ∧
      extended.functions = program.functions ∧ ∀ {id block}, extended.Has id block ↔
        (∃ old, program.Has id old ∧ program.withArm parent id old = block) ∨
          id = program.blocks.length ∧ arm = block := by
  cases hasOwner : program.blocks[parent]? with
  | none => simp [ObjectProgram.addArm, ObjectProgram.block, hasOwner] at added
  | some owner =>
    simp only [ObjectProgram.addArm, ObjectProgram.block, hasOwner, ok_bind, pure_eq_ok,
      Prod.mk.injEq] at added
    obtain ⟨-, rfl⟩ := added
    let arm : Block := { name := armName owner.name owner.instrs.length tag, scope := owner.scope }
    refine ⟨owner, arm, hasOwner, rfl, rfl, rfl, rfl, rfl, fun {id block} => ?_⟩
    have inRange : parent < program.blocks.length := Has.lt hasOwner
    simp only [Has, blocks_addBlocks, getElem?_modify, getElem?_concat, withArm]
    constructor
    · rintro ⟨old, isOld | ⟨rfl, rfl⟩, rfl⟩
      · exact .inl ⟨old, isOld, rfl⟩
      · exact .inr ⟨rfl, by rw [if_neg (Nat.ne_of_lt inRange)]⟩
    · rintro (⟨old, isOld, rfl⟩ | ⟨rfl, rfl⟩)
      · exact ⟨old, .inl isOld, rfl⟩
      · exact ⟨_, .inr ⟨rfl, rfl⟩, by rw [if_neg (Nat.ne_of_lt inRange)]⟩

namespace IsForest

variable {program : ObjectProgram}

theorem addArm (forest : program.IsForest) {parent id : BlockId} {tag : String}
    {extended : ObjectProgram} (added : program.addArm parent tag = .ok (id, extended)) :
    extended.IsForest := by
  obtain ⟨owner, arm, hasOwner, sameScope, noFrame, noChildren, index, functions, has⟩ :=
    addArm_eq_ok added
  have ofOld : ∀ {id old}, program.Has id old → extended.Has id (program.withArm parent id old) :=
    fun hasOld => has.mpr (.inl ⟨_, hasOld, rfl⟩)
  have ofNew : extended.Has program.blocks.length arm := has.mpr (.inr ⟨rfl, rfl⟩)
  have noBody : program.blocks.length ∉ program.functions := fun member =>
    Nat.lt_irrefl _ (forest.lt_of_mem_functions member)
  have child : ∀ {id old query}, query ∈ (program.withArm parent id old).children ↔
      query ∈ old.children ∨ parent = id ∧ query = program.blocks.length := by
    intro id old query
    rw [children_withArm, List.mem_append]
    split <;> simp_all
  refine ⟨?_, ?_, ?_, ?_, ?_, ?_, ?_, ?_⟩
  · intro query id isEntry
    rw [index] at isEntry
    rcases List.mem_cons.mp isEntry with isLast | isOld
    · obtain ⟨rfl, rfl⟩ := Prod.mk.inj isLast
      exact ⟨arm, ofNew, rfl⟩
    · obtain ⟨old, hasOld, named⟩ := forest.index query id isOld
      exact ⟨_, ofOld hasOld, by simpa using named⟩
  · intro id block hasBlock
    rw [find?, index]
    refine (isSome_find?_cons program arm.name block.name _).mpr ?_
    rcases has.mp hasBlock with ⟨old, hasOld, rfl⟩ | ⟨-, rfl⟩
    · exact .inr (by simpa using forest.indexed id old hasOld)
    · exact .inl rfl
  · rw [functions]
    exact forest.increasing
  · intro id
    rw [functions, forest.bodies]
    constructor
    · rintro ⟨old, hasOld, own⟩
      exact ⟨_, ofOld hasOld, by simpa using own⟩
    · rintro ⟨block, hasBlock, own⟩
      rcases has.mp hasBlock with ⟨old, hasOld, rfl⟩ | ⟨rfl, rfl⟩
      · exact ⟨old, hasOld, by simpa using own⟩
      · -- the scope of the arm is a function, and its own number is none
        rw [sameScope] at own
        exact absurd (own ▸ forest.scopes parent owner hasOwner) noBody
  · intro first isFirst second isSecond block other hasBlock hasOther sameName
    rw [functions] at isFirst isSecond
    rcases has.mp hasBlock with ⟨old, hasOld, rfl⟩ | ⟨rfl, -⟩
    · rcases has.mp hasOther with ⟨otherOld, hasOtherOld, rfl⟩ | ⟨rfl, -⟩
      · exact forest.named first isFirst second isSecond old otherOld hasOld hasOtherOld
          (by simpa using sameName)
      · exact absurd isSecond noBody
    · exact absurd isFirst noBody
  · intro id block hasBlock
    rw [functions]
    rcases has.mp hasBlock with ⟨old, hasOld, rfl⟩ | ⟨-, rfl⟩
    · simpa using forest.scopes id old hasOld
    · exact sameScope ▸ forest.scopes parent owner hasOwner
  · intro id block hasBlock query isChild
    rw [functions]
    rcases has.mp hasBlock with ⟨old, hasOld, rfl⟩ | ⟨-, rfl⟩
    · rcases child.mp isChild with isOld | ⟨rfl, rfl⟩
      · obtain ⟨larger, noFunction, inner, hasInner, inScope⟩ :=
          forest.nested id old hasOld query isOld
        exact ⟨larger, noFunction, _, ofOld hasInner, by simpa using inScope⟩
      · cases hasOld.unique hasOwner
        exact ⟨hasOld.lt, noBody, arm, ofNew, by simpa using sameScope⟩
    · rw [noChildren] at isChild
      cases isChild
  · intro id block hasBlock isArm
    rw [functions] at isArm
    rcases has.mp hasBlock with ⟨old, hasOld, rfl⟩ | ⟨rfl, rfl⟩
    · obtain ⟨frame, outer, outerBlock, hasOuter, once, only⟩ := forest.arms id old hasOld isArm
      have isOld : id ≠ program.blocks.length := Nat.ne_of_lt hasOld.lt
      refine ⟨by simpa using frame, outer, _, ofOld hasOuter, ?_, ?_⟩
      · rw [children_withArm, List.count_append, once]
        split <;> simp [isOld.symm]
      · intro other otherBlock hasOther isChild
        rcases has.mp hasOther with ⟨otherOld, hasOtherOld, rfl⟩ | ⟨-, rfl⟩
        · rcases child.mp isChild with isOldChild | ⟨-, isNew⟩
          · exact only other otherOld hasOtherOld isOldChild
          · exact absurd isNew isOld
        · rw [noChildren] at isChild
          cases isChild
    · -- the new arm is a child of its parent and of no other block
      have notYet : ∀ {id old}, program.Has id old → program.blocks.length ∉ old.children :=
        fun hasOld isChild => Nat.lt_irrefl _ (forest.lt_of_mem_children hasOld isChild)
      refine ⟨noFrame, parent, _, ofOld hasOwner, ?_, ?_⟩
      · rw [children_withArm, if_pos rfl, List.count_append,
          List.count_eq_zero_of_not_mem (notYet hasOwner)]
        simp
      · intro other otherBlock hasOther isChild
        rcases has.mp hasOther with ⟨otherOld, hasOtherOld, rfl⟩ | ⟨-, rfl⟩
        · rcases child.mp isChild with isOldChild | ⟨same, -⟩
          · exact absurd isOldChild (notYet hasOtherOld)
          · exact same.symm
        · rw [noChildren] at isChild
          cases isChild

/-! ## Instructions and constants -/

/-- Only instructions change when instructions are appended. -/
theorem append (forest : program.IsForest) {target : BlockId} {instrs : List Instr}
    {extended : ObjectProgram} (appended : program.append target instrs = .ok extended) :
    extended.IsForest := by
  obtain ⟨-, -, rfl⟩ := by simpa only [ObjectProgram.append, bind_eq_ok, pure_eq_ok] using appended
  let change (block : Block) : Block := { block with instrs := block.instrs ++ instrs }
  let extended : ObjectProgram := { program with blocks := program.blocks.modify target change }
  have ofOld : ∀ {id old}, program.Has id old →
      ∃ block, extended.Has id block ∧ block.name = old.name ∧ block.frame = old.frame ∧
        block.scope = old.scope ∧ block.children = old.children := by
    intro id old hasOld
    refine ⟨_, getElem?_modify.mpr ⟨old, hasOld, rfl⟩, ?_⟩
    split <;> exact ⟨rfl, rfl, rfl, rfl⟩
  have toOld : ∀ {id block}, extended.Has id block →
      ∃ old, program.Has id old ∧ block.name = old.name ∧ block.frame = old.frame ∧
        block.scope = old.scope ∧ block.children = old.children := by
    intro id block hasBlock
    obtain ⟨old, hasOld, rfl⟩ := getElem?_modify.mp hasBlock
    refine ⟨old, hasOld, ?_⟩
    split <;> exact ⟨rfl, rfl, rfl, rfl⟩
  refine ⟨?_, ?_, forest.increasing, ?_, ?_, ?_, ?_, ?_⟩
  · intro name id isEntry
    obtain ⟨old, hasOld, named⟩ := forest.index name id isEntry
    obtain ⟨block, hasBlock, sameName, -⟩ := ofOld hasOld
    exact ⟨block, hasBlock, sameName.trans named⟩
  · intro id block hasBlock
    obtain ⟨old, hasOld, sameName, -⟩ := toOld hasBlock
    exact sameName ▸ forest.indexed id old hasOld
  · intro id
    refine (forest.bodies id).trans ⟨?_, ?_⟩
    · rintro ⟨old, hasOld, own⟩
      obtain ⟨block, hasBlock, -, -, sameScope, -⟩ := ofOld hasOld
      exact ⟨block, hasBlock, sameScope.trans own⟩
    · rintro ⟨block, hasBlock, own⟩
      obtain ⟨old, hasOld, -, -, sameScope, -⟩ := toOld hasBlock
      exact ⟨old, hasOld, sameScope.symm.trans own⟩
  · intro first isFirst second isSecond block other hasBlock hasOther sameName
    obtain ⟨old, hasOld, named, -⟩ := toOld hasBlock
    obtain ⟨otherOld, hasOtherOld, otherNamed, -⟩ := toOld hasOther
    exact forest.named first isFirst second isSecond old otherOld hasOld hasOtherOld
      (named.symm.trans (sameName.trans otherNamed))
  · intro id block hasBlock
    obtain ⟨old, hasOld, -, -, sameScope, -⟩ := toOld hasBlock
    exact sameScope ▸ forest.scopes id old hasOld
  · intro id block hasBlock child isChild
    obtain ⟨old, hasOld, -, -, sameScope, sameChildren⟩ := toOld hasBlock
    obtain ⟨larger, isArm, arm, hasArm, inScope⟩ :=
      forest.nested id old hasOld child (sameChildren ▸ isChild)
    obtain ⟨later, hasLater, -, -, laterScope, -⟩ := ofOld hasArm
    exact ⟨larger, isArm, later, hasLater, laterScope.trans (inScope.trans sameScope.symm)⟩
  · intro id block hasBlock isArm
    obtain ⟨old, hasOld, -, sameFrame, -, -⟩ := toOld hasBlock
    obtain ⟨noFrame, parent, owner, hasOwner, once, only⟩ := forest.arms id old hasOld isArm
    obtain ⟨later, hasLater, -, -, -, laterChildren⟩ := ofOld hasOwner
    refine ⟨sameFrame.trans noFrame, parent, later, hasLater, laterChildren ▸ once, ?_⟩
    intro other otherBlock hasOther isChild
    obtain ⟨otherOld, hasOtherOld, -, -, -, otherChildren⟩ := toOld hasOther
    exact only other otherOld hasOtherOld (otherChildren ▸ isChild)

theorem addConst (forest : program.IsForest) {name : String} {body : List Instr}
    {extended : ObjectProgram} (added : program.addConst name body = .ok extended) :
    extended.IsForest := by
  unfold ObjectProgram.addConst at added
  split at added
  · cases added
  · cases added
    exact ⟨forest.index, forest.indexed, forest.increasing, forest.bodies, forest.named,
      forest.scopes, forest.nested, forest.arms⟩

/-! ## Programs that are built -/

theorem attempt (forest : program.IsForest) {operation : Operation} {extended : ObjectProgram}
    (done : program.attempt operation = .ok extended) : extended.IsForest := by
  cases operation with
  | addFunction name frame =>
    obtain ⟨⟨id, added⟩, isAdded, rfl⟩ := by
      simpa only [ObjectProgram.attempt, bind_eq_ok, pure_eq_ok] using done
    obtain ⟨_, isFresh, same⟩ := by
      simpa only [ObjectProgram.addFunction, bind_eq_ok, pure_eq_ok] using isAdded
    obtain ⟨-, rfl⟩ := Prod.mk.inj same
    exact forest.install (by simpa [requireFresh] using isFresh)
  | addArm parent tag =>
    obtain ⟨⟨id, added⟩, isAdded, rfl⟩ := by
      simpa only [ObjectProgram.attempt, bind_eq_ok, pure_eq_ok] using done
    exact forest.addArm isAdded
  | append id instrs => exact forest.append done
  | addConst name body => exact forest.addConst done

theorem apply (forest : program.IsForest) (operation : Operation) :
    (program.apply operation).IsForest := by
  unfold ObjectProgram.apply
  cases done : program.attempt operation with
  | error error => exact forest
  | ok extended => exact forest.attempt done

theorem foldl_apply (operations : List Operation) : ∀ {program : ObjectProgram},
    program.IsForest → (operations.foldl ObjectProgram.apply program).IsForest := by
  induction operations with
  | nil => exact id
  | cons operation rest ih => exact fun forest => ih (forest.apply operation)

end IsForest

theorem isForest_build (name : String) (operations : List Operation) :
    (build name operations).IsForest :=
  .foldl_apply operations (.empty name)

end ObjectProgram

end Secd
