import Secd.Proofs.Image

namespace Secd

open Results

/-! # Control flow of listings

Every listing that compilation gives keeps to its blocks (`control_flow_integrity`). A function body
ends in `RTN` and an arm in `JOIN`, and neither stands anywhere else; closures are made in the
preamble only, of function bodies; a branch goes to the two arms that were made for its conditional.
The last point rests on `Image`: arms are numbered in the order in which they are created, and a
branch holds the offsets of the blocks with the numbers of its own arms.
-/

/-- The branch of a conditional in a function with the given blocks: `before` is the code that
stands before it in its block, and the two blocks are the arms with the numbers of the conditional.
-/
structure BranchesTo (emits : Expr → List Instr → Prop) (blocks : List PlacedBlock)
    (conditional : Stmt.Conditional) (before : List Instr) (instr : Instr)
    (thenBlock elseBlock : PlacedBlock) : Prop where
  condition : ∃ earlier test, before = earlier ++ test ∧ emits conditional.cond test
  isThen : blocks[conditional.number]? = some thenBlock
  thenCode : ∃ taken, thenBlock.bare = taken ++ [.plain .join] ∧
    Realises emits blocks (conditional.number + 1) conditional.thenArm taken
  isElse : blocks[conditional.number + 1 + Stmt.armCountOfAll conditional.thenArm]? = some elseBlock
  elseCode : ∃ other, elseBlock.bare = other ++ [.plain .join] ∧
    Realises emits blocks
      (conditional.number + 1 + Stmt.armCountOfAll conditional.thenArm + 1) conditional.elseArm other
  operands : instr.args = [.offset thenBlock.offset, .offset elseBlock.offset]

/-- Code that leaves its block only through branches of the given conditionals and calls: all else
in it computes in the given scope. -/
def StaysInside (scope : Scope) (emits : Expr → List Instr → Prop) (blocks : List PlacedBlock)
    (conditionals : List Stmt.Conditional) (code : List Instr) : Prop :=
  ∀ index instr, code[index]? = some instr → instr.opcode ∉ [.rtn, .join, .ldf] ∧
    (instr.opcode ≠ .sel → Computes scope instr) ∧
    (instr.opcode = .sel → ∃ conditional ∈ conditionals, ∃ thenBlock elseBlock,
      BranchesTo emits blocks conditional (code.take index) instr thenBlock elseBlock)

namespace StaysInside

variable {scope : Scope} {emits : Expr → List Instr → Prop} {blocks : List PlacedBlock}
  {conditionals : List Stmt.Conditional}

theorem nil : StaysInside scope emits blocks conditionals [] := by simp [StaysInside]

theorem of_computes {code : List Instr}
    (computes : ∀ instr ∈ code, Computes scope instr) :
    StaysInside scope emits blocks conditionals code := by
  intro index instr isInstr
  have ofInstr := computes instr (List.mem_of_getElem? isInstr)
  have straight : instr.opcode ∉ [.rtn, .join, .ldf] ∧ instr.opcode ≠ .sel := by
    cases ofInstr with
    | @operation opcode isOperation => cases opcode <;> simp_all [Opcode.isOperation, Instr.plain]
    | _ => simp [Instr.ldc, Instr.ldcText, Instr.ldAddress, Instr.ap]
  exact ⟨straight.1, fun _ => ofInstr, fun isBranch => absurd isBranch straight.2⟩

theorem append {first second : List Instr} (ofFirst : StaysInside scope emits blocks conditionals first)
    (ofSecond : StaysInside scope emits blocks conditionals second) :
    StaysInside scope emits blocks conditionals (first ++ second) := by
  intro index instr isInstr
  by_cases inFirst : index < first.length
  · rw [List.getElem?_append_left inFirst] at isInstr
    rw [List.take_append_of_le_length (by omega)]
    exact ofFirst index instr isInstr
  · rw [List.getElem?_append_right (by omega)] at isInstr
    obtain ⟨allowed, computes, branches⟩ := ofSecond _ instr isInstr
    refine ⟨allowed, computes, fun isBranch => ?_⟩
    obtain ⟨conditional, member, thenBlock, elseBlock, target⟩ := branches isBranch
    obtain ⟨earlier, test, split, emitted⟩ := target.condition
    refine ⟨conditional, member, thenBlock, elseBlock, { target with condition := ?_ }⟩
    refine ⟨first ++ earlier, test, ?_, emitted⟩
    rw [List.take_append, List.take_of_length_le (by omega), split, List.append_assoc]

/-- A branch right after the code of its condition. -/
theorem branch {conditional : Stmt.Conditional} (member : conditional ∈ conditionals)
    {test : List Instr} (ofTest : StaysInside scope emits blocks conditionals test) {instr : Instr}
    {thenBlock elseBlock : PlacedBlock} (isBranch : instr.opcode = .sel)
    (target : BranchesTo emits blocks conditional test instr thenBlock elseBlock) :
    StaysInside scope emits blocks conditionals (test ++ [instr]) := by
  intro index other isOther
  by_cases inTest : index < test.length
  · rw [List.getElem?_append_left inTest] at isOther
    rw [List.take_append_of_le_length (by omega)]
    exact ofTest index other isOther
  · rw [List.getElem?_append_right (by omega)] at isOther
    rw [List.getElem?_singleton] at isOther
    split at isOther
    case isFalse => cases isOther
    case isTrue atEnd =>
    cases isOther
    have isLast : index = test.length := by omega
    subst isLast
    refine ⟨by simp [isBranch], fun noBranch => absurd isBranch noBranch,
      fun _ => ⟨conditional, member, thenBlock, elseBlock, ?_⟩⟩
    rwa [List.take_left]

end StaysInside

/-- The code of statements and of their arms stays inside, and each arm ends in `JOIN`. -/
theorem Realises.staysInside {emits : Expr → List Instr → Prop} {blocks : List PlacedBlock}
    {scope : Scope}
    (computes : ∀ expr code, emits expr code → ∀ instr ∈ code, Computes scope instr)
    {conditionals : List Stmt.Conditional} {next : Nat} {stmts : List Stmt} {out : List Instr}
    (realises : Realises emits blocks next stmts out) :
    Stmt.conditionalsOfAll next stmts ⊆ conditionals →
    StaysInside scope emits blocks conditionals out ∧
      ∀ number, next ≤ number → number < next + Stmt.armCountOfAll stmts →
        ∃ arm code, blocks[number]? = some arm ∧ arm.bare = code ++ [.plain .join] ∧
          StaysInside scope emits blocks conditionals code := by
  induction realises with
  | nil next =>
    intro _
    refine ⟨.nil, fun number lower upper => ?_⟩
    simp only [Stmt.armCountOfAll] at upper
    omega
  | expr emitted _ ih | ret emitted _ ih =>
    intro known
    obtain ⟨ofRest, ofArms⟩ := ih known
    exact ⟨.append (.of_computes (computes _ _ emitted)) ofRest, fun number lower upper =>
      ofArms number lower (by simpa [Stmt.armCountOfAll, Stmt.armCount] using upper)⟩
  | retNothing _ ih =>
    intro known
    obtain ⟨ofRest, ofArms⟩ := ih known
    exact ⟨ofRest, fun number lower upper =>
      ofArms number lower (by simpa [Stmt.armCountOfAll, Stmt.armCount] using upper)⟩
  | @ifElse next cond thenArm elseArm test taken other thenBlock elseBlock rest out emitted isThen
      thenCode thenRealises isElse elseCode elseRealises after ihThen ihElse ihAfter =>
    intro known
    have elseConditionals : ∀ first, Stmt.conditionalsOfArm first elseArm =
        Stmt.conditionalsOfAll first (elseArm.getD []) := by
      intro first
      cases elseArm <;> simp [Stmt.conditionalsOfArm, Stmt.conditionalsOfAll]
    simp only [Stmt.conditionalsOfAll, Stmt.conditionals, elseConditionals, List.cons_append,
      List.append_assoc, List.cons_subset, List.append_subset] at known
    obtain ⟨isConditional, thenKnown, elseKnown, restKnown⟩ := known
    obtain ⟨ofThen, ofThenArms⟩ := ihThen thenKnown
    obtain ⟨ofElse, ofElseArms⟩ := ihElse elseKnown
    obtain ⟨ofRest, ofRestArms⟩ := ihAfter restKnown
    constructor
    · have target : BranchesTo emits blocks ⟨next, cond, thenArm, elseArm.getD []⟩ test
          (.selOffsets thenBlock elseBlock) thenBlock elseBlock :=
        ⟨⟨[], test, rfl, emitted⟩, isThen, ⟨taken, thenCode, thenRealises⟩, isElse,
          ⟨other, elseCode, elseRealises⟩, rfl⟩
      have upToBranch := StaysInside.branch isConditional
        (.of_computes (computes _ _ emitted)) rfl target
      simpa using upToBranch.append ofRest
    · -- an arm is one of the two, nested in one of them, or of a later statement
      intro number lower upper
      simp only [Stmt.armCountOfAll, Stmt.armCount, Stmt.armCountOfArm_eq] at upper ofRestArms
      rcases Nat.lt_trichotomy number (next + 1 + Stmt.armCountOfAll thenArm) with
        inThen | rfl | afterElse
      · by_cases isFirst : number = next
        · subst isFirst
          exact ⟨thenBlock, taken, isThen, thenCode, ofThen⟩
        · exact ofThenArms number (by omega) inThen
      · exact ⟨elseBlock, other, isElse, elseCode, ofElse⟩
      · by_cases inElse : number <
            next + 1 + Stmt.armCountOfAll thenArm + 1 + Stmt.armCountOfAll (elseArm.getD [])
        · exact ofElseArms number (by omega) inElse
        · exact ofRestArms number (by omega) (by omega)

/-- The preamble ends in `RTN` and makes closures of the given bodies only. -/
theorem startCode_eq (entry : Nat) (declared : List Nat) :
    ∃ code, startCode entry declared = code ++ [.plain .rtn] ∧ ∀ instr ∈ code,
      instr.opcode ∉ [.rtn, .join, .sel] ∧
        (instr.opcode = .ldf → ∃ offset ∈ entry :: declared, instr.args = [.offset offset]) := by
  have closure : ∀ offset ∈ entry :: declared, ∃ target ∈ entry :: declared,
      (Instr.ldfOffset offset).args = [.offset target] := fun offset member => ⟨offset, member, rfl⟩
  unfold startCode
  split
  · refine ⟨[.ldfOffset entry, .ap 0], rfl, ?_⟩
    simp [Instr.ldfOffset, Instr.ap]
  · refine ⟨.dum declared.length :: declared.map Instr.ldfOffset ++
      [.ldfOffset entry, .rap declared.length], by simp, fun instr member => ?_⟩
    simp only [List.cons_append, List.mem_cons, List.mem_append, List.mem_map, List.not_mem_nil,
      or_false] at member
    rcases member with rfl | ⟨offset, isDeclared, rfl⟩ | rfl | rfl
    · exact ⟨by simp [Instr.dum], by simp [Instr.dum]⟩
    · exact ⟨by simp [Instr.ldfOffset], fun _ => closure offset (List.mem_cons_of_mem _ isDeclared)⟩
    · exact ⟨by simp [Instr.ldfOffset], fun _ => closure entry List.mem_cons_self⟩
    · exact ⟨by simp [Instr.rap], by simp [Instr.rap]⟩

/-- The linked code of an expression in a function, where `main` is the entry function. -/
def CodeIn (program : Program) (main decl : FunctionDecl) (depth : Nat) (expr : Expr)
    (code : List Instr) : Prop :=
  Emits (framesOf program.functions main decl) program.constants depth .function [expr] code

/-- Code of a routine that leaves its block only through branches of its own conditionals and
calls. -/
def Routine.StaysInside (program : Program) (main : FunctionDecl) (depth : Nat) (routine : Routine)
    (code : List Instr) : Prop :=
  Secd.StaysInside (framesOf program.functions main routine.decl)
    (CodeIn program main routine.decl depth) routine.blocks
    (Stmt.conditionalsOfAll 1 routine.decl.body) code

/-- Bodies end in `RTN` and arms in `JOIN`; what comes before stays inside. -/
theorem Image.staysInside {options : Options} {program : Program} {listing : Listing}
    {main : Routine} {others : List Routine} {depth : Nat}
    (image : Image options program listing main others depth) :
    ∀ routine ∈ main :: others,
      (∃ code, routine.body.bare = code ++ [.plain .rtn] ∧
        routine.StaysInside program main.decl depth code) ∧
      ∀ arm ∈ routine.arms, ∃ code, arm.bare = code ++ [.plain .join] ∧
        routine.StaysInside program main.decl depth code := by
  intro routine member
  have realised := image.realised routine member
  obtain ⟨code, bare, realises⟩ := realised.code
  obtain ⟨inside, ofArms⟩ := realises.staysInside (fun _ _ emits => emits.computes)
    (List.Subset.refl _)
  refine ⟨⟨code, bare, inside⟩, fun arm isArm => ?_⟩
  obtain ⟨index, bound, rfl⟩ := List.mem_iff_getElem.mp isArm
  obtain ⟨found, armCode, isFound, armBare, armInside⟩ := ofArms (index + 1) (by omega)
    (by rw [← realised.armCount]; omega)
  rw [Routine.blocks, List.getElem?_cons_succ, List.getElem?_eq_getElem bound] at isFound
  cases isFound
  exact ⟨armCode, armBare, armInside⟩

/-- Control flow of a listing. The preamble ends in `RTN`, holds no branch and makes closures of
function bodies only. Every body ends in `RTN` and every arm in `JOIN`. Before that there is neither
of them and no closure, and each branch goes to the two arms of the same function that were made for
its conditional, in this order. -/
theorem control_flow_integrity {options : Options} {program : Program} {listing : Listing}
    (dotFree : program.DotFree) (compiled : compile options program = .ok listing) :
    ∃ main others depth, Image options program listing main others depth ∧
      (∃ code, listing.preamble.map Instr.uncommented = code ++ [.plain .rtn] ∧
        ∀ instr ∈ code, instr.opcode ∉ [.rtn, .join, .sel] ∧
          (instr.opcode = .ldf →
            ∃ routine ∈ main :: others, instr.args = [.offset routine.body.offset])) ∧
      ∀ routine ∈ main :: others,
        (∃ code, routine.body.bare = code ++ [.plain .rtn] ∧
          routine.StaysInside program main.decl depth code) ∧
        ∀ arm ∈ routine.arms, ∃ code, arm.bare = code ++ [.plain .join] ∧
          routine.StaysInside program main.decl depth code := by
  obtain ⟨main, others, depth, image⟩ := Image.of_compile dotFree compiled
  refine ⟨main, others, depth, image, ?_, image.staysInside⟩
  obtain ⟨code, split, allowed⟩ := startCode_eq main.body.offset (others.map (·.body.offset))
  refine ⟨code, image.start.trans split, fun instr isInstr => ⟨(allowed instr isInstr).1, ?_⟩⟩
  intro isClosure
  obtain ⟨offset, isOffset, args⟩ := (allowed instr isInstr).2 isClosure
  have isBody : offset ∈ (main :: others).map (·.body.offset) := isOffset
  obtain ⟨routine, isRoutine, rfl⟩ := List.mem_map.mp isBody
  exact ⟨routine, isRoutine, args⟩

/-- A recursive function with a conditional, called from the entry function. -/
def countdown : Program where
  name := "countdown"
  decls := [
    .function ⟨"main", ["n"], [.expr (.call "down" [.ident "n"])]⟩,
    .function ⟨"down", ["k"], [.ifElse (.ident "k")
      [.expr (.call "down" [.binary .sub (.ident "k") (.int 1)])] (some [.expr (.ident "END")])]⟩,
    .consts ⟨["END"], .ordinals⟩]

theorem countdown_dotFree : countdown.DotFree := ⟨by decide, by decide⟩

theorem countdown_countable : countdown.Countable := ⟨by decide, by decide, by decide⟩

theorem countdown_compiles : ∃ listing, compile {} countdown = .ok listing := by
  have succeeds : (compile {} countdown).toOption.isSome := by decide
  cases compiled : compile {} countdown with
  | error error =>
    rw [compiled] at succeeds
    cases succeeds
  | ok listing => exact ⟨listing, rfl⟩

theorem control_flow_integrity_countdown :
    ∃ listing, compile {} countdown = .ok listing ∧
      ∃ main others depth, Image {} countdown listing main others depth ∧
        ∀ routine ∈ main :: others, ∃ code, routine.body.bare = code ++ [.plain .rtn] ∧
          routine.StaysInside countdown main.decl depth code := by
  obtain ⟨listing, compiled⟩ := countdown_compiles
  obtain ⟨main, others, depth, image, -, routines⟩ := control_flow_integrity countdown_dotFree compiled
  exact ⟨listing, compiled, main, others, depth, image,
    fun routine member => (routines routine member).1⟩

end Secd
