import Secd.Proofs.BlockNames

namespace Secd

open Results

/-! # Conditionals and their arms

Code generation names the arms of a conditional after the number of instructions that stand before
its branch, compiles both arms with all that is nested in them, and only then adds the branch. That
nothing is added in between is what `Chooses` says of a run of code: the outermost arms are those
that its branches name, in order, and each branch names the arms of its own position. It holds of
the code of statements at any position (`Yields.chooses`), and the blocks of a program are laid out
so that the children of each block are these arms (`Forest.exists_of_getElem?_place`). So in a
generated program branches and arms correspond one to one (`Program.branches_match_arms`).
-/

/-! ## Branches of a run of code -/

/-- Takes a condition and enters one of two arms. -/
def Instr.branches (instr : Instr) : Bool := instr.opcode = .sel

/-- The arms that the branches of some code enter, if it stands at `position` of a block. -/
def armsEntered (block : String) (position : Nat) (code : List Instr) : List String :=
  (code.findIdxs Instr.branches position).flatMap fun index =>
    [armName block index "t", armName block index "f"]

/-- The names of the outermost arms. -/
def Forest.rootNames : Forest → List String
  | .nil => []
  | .node name _ _ next => name :: next.rootNames

@[simp] theorem Forest.rootNames_append (first second : Forest) :
    (first ++ second).rootNames = first.rootNames ++ second.rootNames := by
  induction first with
  | nil => rfl
  | node _ _ _ _ _ ih => rw [Forest.node_append, rootNames, rootNames, ih, List.cons_append]

/-- The outermost arms are those that the branches of the code enter, each branch names its own two
arms, and no instruction leaves the block. -/
structure Chooses (block : String) (position : Nat) (code : List Instr) (arms : Forest) :
    Prop where
  entered : arms.rootNames = armsEntered block position code
  named : ∀ index instr, code[index]? = some instr → instr.branches →
    instr = branch block (position + index)
  stays : ∀ instr ∈ code, instr.opcode ≠ .rtn ∧ instr.opcode ≠ .join

namespace Chooses

variable {block : String} {position : Nat}

theorem empty (block : String) (position : Nat) : Chooses block position [] .nil where
  entered := rfl
  named := by simp
  stays := by simp

/-- Straight code has no arms. -/
theorem ofStraight {called : CallSite → Prop} {code : List Instr}
    (straight : ∀ instr ∈ code, Straight called instr) (block : String) (position : Nat) :
    Chooses block position code .nil := by
  have plain : ∀ instr ∈ code,
      instr.opcode ≠ .sel ∧ instr.opcode ≠ .join ∧ instr.opcode ≠ .rtn := by
    intro instr member
    simpa using (straight instr member).opcode_notMem
  have noBranch : ∀ instr ∈ code, instr.branches = false := by
    intro instr member
    simpa [Instr.branches] using (plain instr member).1
  refine ⟨?_, ?_, ?_⟩
  · rw [armsEntered, List.findIdxs_eq_nil_iff.mpr noBranch]
    rfl
  · intro index instr atIndex isBranch
    rw [noBranch instr (List.mem_of_getElem? atIndex)] at isBranch
    cases isBranch
  · intro instr member
    obtain ⟨-, noJoin, noReturn⟩ := plain instr member
    exact ⟨noReturn, noJoin⟩

/-- A branch by itself, with two arms of any code. -/
theorem branching (block : String) (position : Nat) (thenCode elseCode : List Instr)
    (inThen inElse : Forest) :
    Chooses block position [branch block position]
      (.node (armName block position "t") thenCode inThen
        (.node (armName block position "f") elseCode inElse .nil)) where
  entered := rfl
  named := by
    intro index instr atIndex _
    obtain ⟨rfl, rfl⟩ := by simpa [List.getElem?_singleton] using atIndex
    rfl
  stays := by simp [branch, Instr.sel, Instr.commented]

theorem append {first second : List Instr} {firstArms secondArms : Forest}
    (ofFirst : Chooses block position first firstArms)
    (ofSecond : Chooses block (position + first.length) second secondArms) :
    Chooses block position (first ++ second) (firstArms ++ secondArms) where
  entered := by
    rw [Forest.rootNames_append, ofFirst.entered, ofSecond.entered, armsEntered, armsEntered,
      armsEntered, List.findIdxs_append, List.flatMap_append]
  named := by
    intro index instr atIndex isBranch
    by_cases inFirst : index < first.length
    · rw [List.getElem?_append_left inFirst] at atIndex
      exact ofFirst.named index instr atIndex isBranch
    · rw [List.getElem?_append_right (by omega)] at atIndex
      rw [ofSecond.named _ instr atIndex isBranch]
      congr 1
      omega
  stays := List.forall_mem_append.mpr ⟨ofFirst.stays, ofSecond.stays⟩

end Chooses

/-! ## Generated code -/

/-- Every arm, nested ones included, satisfies a property of its name, its code and what is nested
in it. -/
def Forest.Each (holds : String → List Instr → Forest → Prop) : Forest → Prop
  | .nil => True
  | .node name instrs nested next => holds name instrs nested ∧ nested.Each holds ∧ next.Each holds

/-- The code of a block ends in `last`, and its branches enter its arms. -/
def EndsIn (last : Opcode) (name : String) (instrs : List Instr) (arms : Forest) : Prop :=
  ∃ code, instrs = code ++ [.plain last] ∧ Chooses name 0 code arms

/-- The code of statements branches to its own arms, and so does the code of every arm. -/
theorem Yields.chooses {options : Options} {params : List String} {block : String} {position : Nat}
    {stmts : List Stmt} {fragment : Fragment}
    (yields : Yields options params block position stmts fragment) :
    Chooses block position fragment.instrs fragment.arms ∧ fragment.arms.Each (EndsIn .join) := by
  induction yields with
  | nil block position => exact ⟨.empty block position, trivial⟩
  | @expr block position value code rest tail compiled next ih
  | @ret block position value code rest tail compiled next ih =>
    obtain ⟨ofTail, ofArms⟩ := ih
    have ofValue := Chooses.ofStraight (Expr.straight_of_code compiled) block position
    exact ⟨ofValue.append ofTail, ofArms⟩
  | retNothing _ ih => exact ih
  | @ifElse block position cond thenArm elseArm test taken other rest tail compiled thenYields
      elseYields next ihThen ihElse ihNext =>
    obtain ⟨ofThen, ofThenArms⟩ := ihThen
    obtain ⟨ofElse, ofElseArms⟩ := ihElse
    obtain ⟨ofTail, ofTailArms⟩ := ihNext
    have ofTest := Chooses.ofStraight (Expr.straight_of_code compiled) block position
    -- the branch stands right behind its condition, which is where its arms are named for
    have ofBranch := Chooses.branching block (position + test.length)
      (taken.instrs ++ [.plain .join]) (other.instrs ++ [.plain .join]) taken.arms other.arms
    refine ⟨(ofTest.append ofBranch).append ?_, ?_⟩
    · simpa [Nat.add_assoc] using ofTail
    · exact ⟨⟨taken.instrs, rfl, ofThen⟩, ofThenArms, ⟨other.instrs, rfl, ofElse⟩, ofElseArms,
        ofTailArms⟩

theorem FunctionDecl.endsIn_of_code {options : Options} {decl : FunctionDecl} {code : Fragment}
    (compiled : decl.code options = .ok code) :
    EndsIn .rtn decl.name code.instrs code.arms ∧ code.arms.Each (EndsIn .join) := by
  obtain ⟨body, yields, instrs, arms⟩ := FunctionDecl.yields_of_code compiled
  obtain ⟨ofBody, ofArms⟩ := yields.chooses
  rw [arms]
  exact ⟨⟨body.instrs, instrs, ofBody⟩, ofArms⟩

/-! ## Laid out blocks -/

namespace Forest

/-- The numbers of the outermost arms lead to blocks of their names. -/
theorem map_name_roots {scope : Nat} {blocks : List Block} (forest : Forest) :
    ∀ (before after : List Block),
      blocks = before ++ (forest.place scope before.length ++ after) →
      (forest.roots before.length).map (fun child => blocks[child]?.map Block.name) =
        forest.rootNames.map some := by
  induction forest with
  | nil => intros; rfl
  | node name instrs nested next _ ihNext =>
    intro before after laidOut
    let arm : Block := { name, scope, instrs, children := nested.roots (before.length + 1) }
    have atArm : blocks[before.length]? = some arm := by simp [laidOut, place, arm]
    have sameBase : (before ++ arm :: nested.place scope (before.length + 1)).length =
        before.length + 1 + nested.size := by
      simp only [List.length_append, List.length_cons, length_place]
      omega
    have ofNext := ihNext (before ++ arm :: nested.place scope (before.length + 1)) after
      (by rw [sameBase, laidOut]; simp [place, arm])
    rw [sameBase] at ofNext
    rw [roots, rootNames, List.map_cons, List.map_cons, atArm, ofNext]
    rfl

/-- Every placed block is an arm of the forest, with what is nested in it right behind it. -/
theorem exists_of_getElem?_place {holds : String → List Instr → Forest → Prop} {scope : Nat}
    (forest : Forest) : ∀ {base index : Nat} {block : Block}, forest.Each holds →
      (forest.place scope base)[index]? = some block →
      ∃ nested before after, holds block.name block.instrs nested ∧
        block.children = nested.roots (base + index + 1) ∧ before.length = index + 1 ∧
        forest.place scope base = before ++ (nested.place scope (base + index + 1) ++ after) := by
  induction forest with
  | nil => intro base index block _ atIndex; simp [place] at atIndex
  | node name instrs nested next ihNested ihNext =>
    intro base index block each atIndex
    obtain ⟨ofArm, ofNested, ofNext⟩ := each
    rw [place] at atIndex ⊢
    -- it is the first arm, or nested in it, or one of its neighbours or nested there
    generalize isArm : ({ name, scope, instrs, children := nested.roots (base + 1) } : Block) = arm
      at atIndex ⊢
    cases index with
    | zero =>
      rw [List.getElem?_cons_zero, Option.some.injEq] at atIndex
      subst atIndex
      subst isArm
      exact ⟨nested, [_], _, ofArm, rfl, rfl, rfl⟩
    | succ index =>
      rw [List.getElem?_cons_succ] at atIndex
      by_cases inNested : index < nested.size
      · rw [List.getElem?_append_left (by simpa using inNested)] at atIndex
        obtain ⟨inner, before, after, ofBlock, children, length, split⟩ :=
          ihNested ofNested atIndex
        have sameBase : base + 1 + index + 1 = base + (index + 1) + 1 := by omega
        rw [sameBase] at children split
        refine ⟨inner, arm :: before, after ++ next.place scope (base + 1 + nested.size), ofBlock,
          children, by simp [length], by simp [split]⟩
      · rw [List.getElem?_append_right (by simpa using inNested), length_place] at atIndex
        obtain ⟨inner, before, after, ofBlock, children, length, split⟩ := ihNext ofNext atIndex
        have sameBase : base + 1 + nested.size + (index - nested.size) + 1 =
            base + (index + 1) + 1 := by omega
        rw [sameBase] at children split
        refine ⟨inner, arm :: (nested.place scope (base + 1) ++ before), after, ofBlock, children,
          by simp [length]; omega, by simp [split]⟩

end Forest

/-- Every block of functions laid out one after the other belongs to one of them. -/
theorem CompiledFunction.exists_of_getElem?_blocksOf {functions : List CompiledFunction} :
    ∀ {start index : Nat} {block : Block}, (blocksOf start functions)[index]? = some block →
      ∃ id function offset, (id, function) ∈ number start functions ∧ start + index = id + offset ∧
        (function.blocks id)[offset]? = some block := by
  induction functions with
  | nil => intro start index block atIndex; simp [blocksOf, number] at atIndex
  | cons head rest ih =>
    intro start index block atIndex
    have split : blocksOf start (head :: rest) =
        head.blocks start ++ blocksOf (start + 1 + head.code.arms.size) rest := rfl
    rw [split] at atIndex
    by_cases inHead : index < (head.blocks start).length
    · rw [List.getElem?_append_left inHead] at atIndex
      exact ⟨start, head, index, List.mem_cons_self, rfl, atIndex⟩
    · rw [List.getElem?_append_right (by omega)] at atIndex
      obtain ⟨id, function, offset, isNumbered, place, atOffset⟩ := ih atIndex
      refine ⟨id, function, offset, List.mem_cons_of_mem _ isNumbered, ?_, atOffset⟩
      rw [length_blocks] at inHead place
      omega

/-- Every block of a generated program ends in its own way and has the arms that its branches enter
right behind it. -/
theorem Assembled.exists_arms {options : Options} {sources : List FunctionDecl}
    {definitions : List (String × Expr)} {object : ObjectProgram}
    {functions : List CompiledFunction}
    (assembled : Assembled options sources definitions object functions) {id : Nat}
    {block : Block} (isBlock : object.blocks[id]? = some block) :
    ∃ arms scope before after,
      EndsIn (if id ∈ object.functions then .rtn else .join) block.name block.instrs arms ∧
      block.children = arms.roots (id + 1) ∧ before.length = id + 1 ∧
      object.blocks = before ++ (arms.place scope (id + 1) ++ after) := by
  rw [assembled.blocks] at isBlock
  obtain ⟨number, function, offset, isNumbered, place, atOffset⟩ :=
    CompiledFunction.exists_of_getElem?_blocksOf isBlock
  obtain ⟨before, after, split, start⟩ := CompiledFunction.blocksOf_split isNumbered
  obtain ⟨ofBody, ofArms⟩ := FunctionDecl.endsIn_of_code
    (assembled.code function (CompiledFunction.mem_of_mem_number isNumbered))
  rw [Nat.zero_add] at place start
  subst place
  obtain ⟨body, blocks, ofFirst, firstChildren⟩ : ∃ body : Block,
      function.blocks number = body :: function.code.arms.place number (number + 1) ∧
      EndsIn .rtn body.name body.instrs function.code.arms ∧
      body.children = function.code.arms.roots (number + 1) := ⟨_, rfl, ofBody, rfl⟩
  rw [blocks] at split atOffset
  rw [assembled.blocks, split]
  -- the blocks of a function are its body and then its arms
  cases offset with
  | zero =>
    rw [List.getElem?_cons_zero, Option.some.injEq] at atOffset
    subst atOffset
    have isBody : number ∈ object.functions := by
      rw [assembled.numbers]
      exact List.mem_map_of_mem isNumbered
    refine ⟨function.code.arms, number, before ++ [body], after, ?_, firstChildren, by simp [start],
      by simp⟩
    rw [Nat.add_zero, if_pos isBody]
    exact ofFirst
  | succ offset =>
    rw [List.getElem?_cons_succ] at atOffset
    obtain ⟨bound, -⟩ := List.getElem?_eq_some_iff.mp atOffset
    rw [Forest.length_place] at bound
    have isArm : number + (offset + 1) ∉ object.functions := by
      rw [assembled.numbers]
      intro isBody
      rcases CompiledFunction.le_or_ge_of_mem_number isNumbered isBody with _ | _ <;> omega
    obtain ⟨arms, earlier, later, ofBlock, children, length, placed⟩ :=
      function.code.arms.exists_of_getElem?_place ofArms atOffset
    have sameBase : number + 1 + offset + 1 = number + (offset + 1) + 1 := by omega
    rw [sameBase] at children placed
    refine ⟨arms, number, before ++ body :: earlier, later ++ after, ?_, children, ?_, ?_⟩
    · rw [if_neg isArm]
      exact ofBlock
    · simp only [List.length_append, List.length_cons, length, start]
      omega
    · simp [placed]

/-! ## One to one -/

theorem branch_eq (block : String) (position : Nat) :
    branch block position =
      ⟨.sel, [.name (armName block position "t"), .name (armName block position "f")],
        some (armName block position "t" ++ " " ++ armName block position "f")⟩ :=
  Instr.commented_of_ne_empty _ (by simp)

/-- In a generated program the branches of a block and its children correspond: in order, the
children are the two arms named after the position of each branch, and the branch names exactly
these two and says so in its comment. The body of a function ends in `RTN` and an arm in `JOIN`, and
neither occurs anywhere else. -/
theorem Program.branches_match_arms {options : Options} {program : Program}
    {object : ObjectProgram} (generated : program.object options = .ok object) {id : Nat}
    {block : Block} (isBlock : object.blocks[id]? = some block) :
    block.children.map (fun child => object.blocks[child]?.map Block.name) =
      (armsEntered block.name 0 block.instrs).map some ∧
    (∀ index ∈ block.instrs.findIdxs Instr.branches, block.instrs[index]? = some
      ⟨.sel, [.name (armName block.name index "t"), .name (armName block.name index "f")],
        some (armName block.name index "t" ++ " " ++ armName block.name index "f")⟩) ∧
    ∃ code, block.instrs = code ++ [.plain (if id ∈ object.functions then .rtn else .join)] ∧
      ∀ instr ∈ code, instr.opcode ≠ .rtn ∧ instr.opcode ≠ .join := by
  obtain ⟨functions, assembled⟩ := Program.assembled_of_object generated
  obtain ⟨arms, scope, before, after, ⟨code, instrs, chooses⟩, children, length, laidOut⟩ :=
    assembled.exists_arms isBlock
  -- the last instruction is no branch, so the branches are those of the code before it
  have noBranch : ∀ position, [Instr.plain (if id ∈ object.functions then .rtn else .join)].findIdxs
      Instr.branches position = [] := by
    intro position
    split <;> rfl
  have sameBranches : block.instrs.findIdxs Instr.branches = code.findIdxs Instr.branches := by
    rw [instrs, List.findIdxs_append, noBranch, List.append_nil]
  refine ⟨?_, ?_, code, instrs, chooses.stays⟩
  · rw [← length] at laidOut
    rw [children, ← length, arms.map_name_roots before after laidOut, chooses.entered, armsEntered,
      armsEntered, sameBranches]
  · intro index member
    rw [sameBranches] at member
    obtain ⟨bound, isBranch⟩ := List.mem_findIdxs_iff_exists_getElem_pos.mp member
    have named := chooses.named index _ (List.getElem?_eq_getElem bound) isBranch
    rw [instrs, List.getElem?_append_left bound, List.getElem?_eq_getElem bound, named,
      branch_eq, Nat.zero_add]

/-- One conditional after the other, the first with a further one in its first arm. -/
def nestedChoices : Program where
  name := "choices"
  decls := [
    .function ⟨"main", ["x"], [
      .ifElse (.ident "x") [.expr (.int 5), .ifElse (.int 0) [] none] (some [.expr (.int 6)]),
      .ifElse (.ident "x") [] none]⟩]

theorem nestedChoices_match_arms :
    ∃ object arm, nestedChoices.object {} = .ok object ∧ object.blocks[1]? = some arm ∧
      arm.name = "main.1t" ∧ arm.instrs.findIdxs Instr.branches = [2] ∧
      arm.children.map (fun child => object.blocks[child]?.map Block.name) =
        [some "main.1t.2t", some "main.1t.2f"] ∧
      ∃ code, arm.instrs = code ++ [.plain (if 1 ∈ object.functions then .rtn else .join)] := by
  obtain ⟨object, generated, holds⟩ := exists_ok_of_any (nestedChoices.object {})
    (fun object => object.blocks[1]?.any fun arm =>
      arm.name = "main.1t" ∧ arm.instrs.findIdxs Instr.branches = [2]) (by decide)
  obtain ⟨arm, isArm, passes⟩ := (Option.any_eq_true _ _).mp holds
  obtain ⟨named, branches⟩ := of_decide_eq_true passes
  obtain ⟨children, -, code, instrs, -⟩ := Program.branches_match_arms generated isArm
  refine ⟨object, arm, generated, isArm, named, branches, ?_, code, instrs⟩
  rw [children, armsEntered, branches, named]
  decide

end Secd
