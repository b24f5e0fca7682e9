import Secd.Code.Stmt
import Secd.Object
import Secd.Proofs.Code

namespace Secd

open Results

/-! # Code of statements, taken apart

`Yields block position stmts fragment` says by rules, one for each kind of statement, that
`fragment` is the code of `stmts` from `position` of `block` on. Whatever code generation accepts
has code by these rules (`yields_of_codes`, `yields_of_bodyCode`), so a property of generated code
is proved by induction on a derivation: one rule, one case, and no nesting of lists in statements.
-/

/-- The code of statements by rules. -/
inductive Yields (options : Options) (params : List String) :
    String → Nat → List Stmt → Fragment → Prop where
  | nil (block : String) (position : Nat) : Yields options params block position [] .empty
  | expr {block : String} {position : Nat} {value : Expr} {code : List Instr} {rest : List Stmt}
      {tail : Fragment} (compiled : value.code options params = .ok code)
      (next : Yields options params block (position + code.length) rest tail) :
    Yields options params block position (.expr value :: rest) (.ofInstrs code ++ tail)
  | ret {block : String} {position : Nat} {value : Expr} {code : List Instr} {rest : List Stmt}
      {tail : Fragment} (compiled : value.code options params = .ok code)
      (next : Yields options params block (position + code.length) rest tail) :
    Yields options params block position (.ret [value] :: rest) (.ofInstrs code ++ tail)
  | retNothing {block : String} {position : Nat} {rest : List Stmt} {tail : Fragment}
      (next : Yields options params block position rest tail) :
    Yields options params block position (.ret [] :: rest) tail
  | ifElse {block : String} {position : Nat} {cond : Expr} {thenArm : List Stmt}
      {elseArm : Option (List Stmt)} {test : List Instr} {taken other : Fragment}
      {rest : List Stmt} {tail : Fragment} (compiled : cond.code options params = .ok test)
      (thenYields : Yields options params (armName block (position + test.length) "t") 0
        thenArm taken)
      (elseYields : Yields options params (armName block (position + test.length) "f") 0
        (elseArm.getD []) other)
      (next : Yields options params block (position + test.length + 1) rest tail) :
    Yields options params block position (.ifElse cond thenArm elseArm :: rest)
      (conditional block position test taken other ++ tail)

/-! ## Accepted statements have code by the rules -/

theorem Fragment.append_assoc (first second third : Fragment) :
    first ++ second ++ third = first ++ (second ++ third) := by
  show Fragment.append _ _ = Fragment.append _ _
  simp [Fragment.append, Forest.append_assoc]

theorem Fragment.append_empty (fragment : Fragment) : fragment ++ .empty = fragment := by
  show Fragment.append _ _ = fragment
  simp [Fragment.append, Fragment.empty]

theorem Fragment.empty_append (fragment : Fragment) : Fragment.empty ++ fragment = fragment := rfl

@[simp] theorem Fragment.instrs_empty : Fragment.empty.instrs = [] := rfl

@[simp] theorem Fragment.arms_empty : Fragment.empty.arms = .nil := rfl

@[simp] theorem Fragment.instrs_ofInstrs (code : List Instr) :
    (Fragment.ofInstrs code).instrs = code := rfl

@[simp] theorem Fragment.arms_ofInstrs (code : List Instr) :
    (Fragment.ofInstrs code).arms = .nil := rfl

@[simp] theorem conditional_instrs (block : String) (position : Nat) (test : List Instr)
    (taken other : Fragment) :
    (conditional block position test taken other).instrs =
      test ++ [branch block (position + test.length)] := rfl

@[simp] theorem conditional_arms (block : String) (position : Nat) (test : List Instr)
    (taken other : Fragment) :
    (conditional block position test taken other).arms =
      .node (armName block (position + test.length) "t") (taken.instrs ++ [.plain .join]) taken.arms
        (.node (armName block (position + test.length) "f") (other.instrs ++ [.plain .join])
          other.arms .nil) := rfl

namespace Stmt

variable {options : Options} {params : List String}

mutual

theorem yields_of_code {block : String} {position : Nat} {rest : List Stmt} {tail : Fragment} :
    ∀ (stmt : Stmt) {head : Fragment}, stmt.code options params block position = .ok head →
      Yields options params block (position + head.instrs.length) rest tail →
      Yields options params block position (stmt :: rest) (head ++ tail)
  | .expr value, head, compiled, next => by
    obtain ⟨code, codeOk, rfl⟩ := by
      simpa only [Stmt.code, bind_eq_ok, pure_eq_ok] using compiled
    exact .expr codeOk next
  | .ifElse cond thenArm elseArm, head, compiled, next => by
    obtain ⟨test, testOk, taken, takenOk, other, otherOk, rfl⟩ := by
      simpa only [Stmt.code, bind_eq_ok, pure_eq_ok] using compiled
    simp only [conditional_instrs, List.length_append, List.length_singleton, ← Nat.add_assoc]
      at next
    exact .ifElse testOk (yields_of_codes thenArm takenOk) (yields_of_elseCode elseArm otherOk) next
  | .ret _, head, compiled, next => by simp [Stmt.code] at compiled
  | .assign _ _, head, compiled, next => by simp [Stmt.code] at compiled
  | .loop _, head, compiled, next => by simp [Stmt.code] at compiled

theorem yields_of_codes {block : String} {position : Nat} :
    ∀ (stmts : List Stmt) {fragment : Fragment},
      codes options params block position stmts = .ok fragment →
      Yields options params block position stmts fragment
  | [], fragment, compiled => by
    simp only [codes, Except.ok.injEq] at compiled
    subst compiled
    exact .nil block position
  | stmt :: rest, fragment, compiled => by
    obtain ⟨head, headOk, tail, tailOk, rfl⟩ := by
      simpa only [codes, bind_eq_ok, pure_eq_ok] using compiled
    exact yields_of_code stmt headOk (yields_of_codes rest tailOk)

theorem yields_of_elseCode {block : String} :
    ∀ (arm : Option (List Stmt)) {fragment : Fragment},
      elseCode options params block arm = .ok fragment →
      Yields options params block 0 (arm.getD []) fragment
  | none, fragment, compiled => by
    simp only [elseCode, Except.ok.injEq] at compiled
    subst compiled
    exact .nil block 0
  | some stmts, fragment, compiled => by
    rw [elseCode] at compiled
    exact yields_of_codes stmts compiled

end

theorem yields_of_bodyCode {block : String} {position : Nat} {stmts : List Stmt}
    {fragment : Fragment} (compiled : bodyCode options params block position stmts = .ok fragment) :
    Yields options params block position stmts fragment := by
  fun_induction bodyCode options params block position stmts generalizing fragment with
  | case1 position =>
    cases compiled
    exact .nil block position
  | case2 position values =>
    match values, compiled with
    | [], compiled =>
      cases compiled
      exact .retNothing (.nil block position)
    | [value], compiled =>
      obtain ⟨code, codeOk, rfl⟩ := by
        simpa only [returnCode, bind_eq_ok, pure_eq_ok] using compiled
      rw [← Fragment.append_empty (.ofInstrs code)]
      exact .ret codeOk (.nil block _)
    | _ :: _ :: _, compiled => simp [returnCode] at compiled
  | case3 position stmt rest _ ih =>
    obtain ⟨head, headOk, tail, tailOk, rfl⟩ := by
      simpa only [bind_eq_ok, pure_eq_ok] using compiled
    exact yields_of_code stmt headOk (ih head tailOk)

end Stmt

/-- The body of a function by the rules, and `RTN` after it. -/
theorem FunctionDecl.yields_of_code {options : Options} {decl : FunctionDecl} {code : Fragment}
    (compiled : decl.code options = .ok code) :
    ∃ body, Yields options decl.params decl.name 0 decl.body body ∧
      code.instrs = body.instrs ++ [.plain .rtn] ∧ code.arms = body.arms := by
  obtain ⟨body, bodyOk, rfl⟩ := by
    simpa only [FunctionDecl.code, bind_eq_ok, pure_eq_ok] using compiled
  exact ⟨body, Stmt.yields_of_bodyCode bodyOk, by simp, by simp⟩

/-! ## The arms -/

theorem Forest.scope_of_mem_place {forest : Forest} {scope base : Nat} {block : Block}
    (member : block ∈ forest.place scope base) : block.scope = scope := by
  induction forest generalizing base with
  | nil => cases member
  | node name instrs nested next ihNested ihNext =>
    simp only [Forest.place, List.mem_cons, List.mem_append] at member
    rcases member with rfl | inNested | inNext
    · rfl
    · exact ihNested inNested
    · exact ihNext inNext

theorem Stmt.armCountOfArm_eq (arm : Option (List Stmt)) :
    armCountOfArm arm = armCountOfAll (arm.getD []) := by
  cases arm <;> simp [armCountOfArm, armCountOfAll]

/-- The arms are as many as the conditionals need. -/
theorem Yields.size_arms {options : Options} {params : List String} {block : String}
    {position : Nat} {stmts : List Stmt} {fragment : Fragment}
    (yields : Yields options params block position stmts fragment) :
    fragment.arms.size = Stmt.armCountOfAll stmts := by
  induction yields with
  | nil block position => rfl
  | expr _ _ ih => simpa [Stmt.armCountOfAll, Stmt.armCount] using ih
  | ret _ _ ih => simpa [Stmt.armCountOfAll, Stmt.armCount] using ih
  | retNothing _ ih => simpa [Stmt.armCountOfAll, Stmt.armCount] using ih
  | ifElse _ _ _ _ ihThen ihElse ihNext =>
    simp only [Fragment.arms_append, Forest.size_append, conditional_arms, Forest.size, ihThen,
      ihElse, ihNext, Stmt.armCountOfAll, Stmt.armCount, Stmt.armCountOfArm_eq]
    omega

/-! ## What the instructions of blocks can be -/

/-- The instructions of blocks: straight code, branches between arms, and the two ways to leave a
block. -/
inductive BlockInstr (called : CallSite → Prop) (arm : String → Prop) : Instr → Prop where
  | straight {instr : Instr} (isStraight : Straight called instr) : BlockInstr called arm instr
  | branch {thenName elseName : String} (isThen : arm thenName) (isElse : arm elseName)
      (comment : Option String) :
    BlockInstr called arm ⟨.sel, [.name thenName, .name elseName], comment⟩
  | join : BlockInstr called arm (.plain .join)
  | rtn : BlockInstr called arm (.plain .rtn)

theorem BlockInstr.mono_arm {called : CallSite → Prop} {arm block : String → Prop} {instr : Instr}
    (ofBlock : BlockInstr called arm instr) (weaker : ∀ name, arm name → block name) :
    BlockInstr called block instr := by
  cases ofBlock with
  | straight isStraight => exact .straight isStraight
  | branch isThen isElse comment => exact .branch (weaker _ isThen) (weaker _ isElse) comment
  | join => exact .join
  | rtn => exact .rtn

/-- Names of variables and functions come from expressions. -/
theorem BlockInstr.straight_of_reference? {called : CallSite → Prop} {arm : String → Prop}
    {instr : Instr} (ofBlock : BlockInstr called arm instr) {name : String}
    (refers : instr.reference? = some name) : Straight called instr := by
  cases ofBlock with
  | straight isStraight => exact isStraight
  | _ => cases refers

theorem Stmt.exprsOfArm_eq (arm : Option (List Stmt)) :
    exprsOfArm arm = exprsOfAll (arm.getD []) := by
  cases arm <;> simp [exprsOfArm, exprsOfAll]

/-- Every instruction of a block and of its arms is one of these, whatever is known of the calls in
its expressions and of the names of its arms. -/
theorem Yields.blockInstr {options : Options} {params : List String} {block : String}
    {position : Nat} {stmts : List Stmt} {fragment : Fragment}
    (yields : Yields options params block position stmts fragment) {called : CallSite → Prop}
    {arm : String → Prop} :
    (∀ expr ∈ Stmt.exprsOfAll stmts, ∀ site ∈ expr.calls, called site) →
    (∀ name ∈ fragment.arms.names, arm name) →
    (∀ instr ∈ fragment.instrs, BlockInstr called arm instr) ∧
      ∀ scope base, ∀ placed ∈ fragment.arms.place scope base, ∀ instr ∈ placed.instrs,
        BlockInstr called arm instr := by
  induction yields with
  | nil block position => simp [Forest.place]
  | @expr block position value code rest tail compiled next ih
  | @ret block position value code rest tail compiled next ih =>
    intro calls arms
    obtain ⟨ofTail, ofArms⟩ := ih
      (fun item member => calls item (List.mem_cons_of_mem _ member))
      (fun name member => arms name (by simpa using member))
    refine ⟨fun instr member => ?_, fun scope base placed isPlaced =>
      ofArms scope base placed (by simpa using isPlaced)⟩
    rcases List.mem_append.mp member with inCode | inTail
    · exact .straight ((Expr.straight_of_code compiled instr inCode).mono
        fun site => calls value List.mem_cons_self site)
    · exact ofTail instr inTail
  | retNothing next ih => exact ih
  | @ifElse block position cond thenArm elseArm test taken other rest tail compiled thenYields
      elseYields next ihThen ihElse ihNext =>
    intro calls arms
    simp only [Stmt.exprsOfAll, Stmt.exprs, Stmt.exprsOfArm_eq, List.cons_append,
      List.append_assoc] at calls
    simp only [Fragment.arms_append, conditional_arms, Forest.node_append, Forest.nil_append,
      Forest.names, List.mem_cons, List.mem_append] at arms
    obtain ⟨ofThen, ofThenArms⟩ := ihThen
      (fun item member => calls item (by simp [member]))
      (fun name member => arms name (by simp [member]))
    obtain ⟨ofElse, ofElseArms⟩ := ihElse
      (fun item member => calls item (by simp [member]))
      (fun name member => arms name (by simp [member]))
    obtain ⟨ofTail, ofTailArms⟩ := ihNext
      (fun item member => calls item (by simp [member]))
      (fun name member => arms name (by simp [member]))
    -- the code of an arm ends in `JOIN`
    have ofArm : ∀ {code : List Instr}, (∀ instr ∈ code, BlockInstr called arm instr) →
        ∀ instr ∈ code ++ [Instr.plain .join], BlockInstr called arm instr := by
      intro code ofCode instr member
      rcases List.mem_append.mp member with inCode | isLast
      · exact ofCode instr inCode
      · rw [List.mem_singleton.mp isLast]
        exact .join
    constructor
    · intro instr member
      simp only [Fragment.instrs_append, conditional_instrs, List.mem_append,
        List.mem_singleton] at member
      rcases member with (inTest | rfl) | inTail
      · exact .straight ((Expr.straight_of_code compiled instr inTest).mono
          fun site => calls cond (by simp) site)
      · exact .branch (arms _ (by simp)) (arms _ (by simp)) _
      · exact ofTail instr inTail
    · intro scope base placed isPlaced instr member
      simp only [Fragment.arms_append, conditional_arms, Forest.node_append, Forest.nil_append,
        Forest.place, List.mem_cons, List.mem_append] at isPlaced
      rcases isPlaced with rfl | inThen | rfl | inElse | inTail
      · exact ofArm ofThen instr member
      · exact ofThenArms _ _ placed inThen instr member
      · exact ofArm ofElse instr member
      · exact ofElseArms _ _ placed inElse instr member
      · exact ofTailArms _ _ placed inTail instr member

end Secd
