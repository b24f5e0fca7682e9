import Secd.Proofs.Assembly

namespace Secd

open Results

/-! # Function bodies with a hole

An occurrence of an expression in a function body is a body with a hole (`BodyContext`) that is
filled with the expression. A hole stands in one block of the function and has some code before it
there (`BodyContext.lead`); when the function is compiled, the block starts with this code and the
code of the filled-in expression follows (`BodyContext.bodyCode_fill`,
`CompiledFunction.exists_block`).
-/

/-! ## Expressions with a hole -/

inductive ExprContext where
  | hole
  | left (op : BinaryOp) (inner : ExprContext) (rhs : Expr)
  | right (op : BinaryOp) (lhs : Expr) (inner : ExprContext)
  | argument (func : String) (before : List Expr) (inner : ExprContext) (after : List Expr)
  | element (kind : CompositeKind) (before : List Expr) (inner : ExprContext) (after : List Expr)
  | paren (inner : ExprContext)
  deriving Repr

theorem Expr.codes_append (options : Options) (params : List String) (first second : List Expr) :
    codes options params (first ++ second) =
      (do return (← codes options params first) ++ (← codes options params second)) := by
  induction first with
  | nil => simp [codes]
  | cons expr rest ih =>
    simp only [List.cons_append, codes, ih, bind_assoc, pure_bind, List.append_assoc]

theorem Expr.codes_around {options : Options} {params : List String} {before after : List Expr}
    {expr : Expr} {code : List Instr}
    (compiled : codes options params (before ++ expr :: after) = .ok code) :
    ∃ first middle last, codes options params before = .ok first ∧
      expr.code options params = .ok middle ∧ code = first ++ (middle ++ last) := by
  rw [codes_append] at compiled
  obtain ⟨first, firstOk, rest, restOk, rfl⟩ := by
    simpa only [bind_eq_ok, pure_eq_ok] using compiled
  obtain ⟨middle, middleOk, last, -, rfl⟩ := by
    simpa only [codes, bind_eq_ok, pure_eq_ok] using restOk
  exact ⟨first, middle, last, firstOk, middleOk, rfl⟩

namespace ExprContext

/-- Puts an expression into the hole. -/
def fill : ExprContext → Expr → Expr
  | .hole, value => value
  | .left op inner rhs, value => .binary op (inner.fill value) rhs
  | .right op lhs inner, value => .binary op lhs (inner.fill value)
  | .argument func before inner after, value =>
    .call func (before ++ inner.fill value :: after)
  | .element kind before inner after, value =>
    .composite kind (before ++ inner.fill value :: after)
  | .paren inner, value => .paren (inner.fill value)

/-- The code that comes before the code of the hole. -/
def lead (options : Options) (params : List String) :
    ExprContext → Except CompileError (List Instr)
  | .hole => .ok []
  | .left op inner rhs =>
    if op.swapsOperands then
      do return (← rhs.code options params) ++ (← inner.lead options params)
    else
      inner.lead options params
  | .right op lhs inner =>
    if op.swapsOperands then
      inner.lead options params
    else
      do return (← lhs.code options params) ++ (← inner.lead options params)
  | .argument _ before inner _ | .element _ before inner _ =>
    do return (← Expr.codes options params before) ++ (← inner.lead options params)
  | .paren inner => inner.lead options params

variable {options : Options} {params : List String}

/-- The code of a filled-in expression stands in the code of the whole, after what leads to it. -/
theorem code_fill (value : Expr) : ∀ (context : ExprContext) {code : List Instr},
    (context.fill value).code options params = .ok code →
    ∃ before filled after, context.lead options params = .ok before ∧
      value.code options params = .ok filled ∧ code = before ++ (filled ++ after)
  | .hole, code, compiled => ⟨[], code, [], rfl, compiled, by simp⟩
  | .left op inner rhs, code, compiled => by
    obtain ⟨tail, left, right, -, leftOk, rightOk, rfl⟩ := Expr.code_binary_eq_ok.mp compiled
    obtain ⟨before, filled, after, leads, filledOk, rfl⟩ := code_fill value inner leftOk
    by_cases swaps : op.swapsOperands
    · refine ⟨right ++ before, filled, after ++ tail, ?_, filledOk, by simp [swaps]⟩
      simp [lead, swaps, rightOk, leads]
    · refine ⟨before, filled, after ++ right ++ tail, ?_, filledOk, by simp [swaps]⟩
      simp [lead, swaps, leads]
  | .right op lhs inner, code, compiled => by
    obtain ⟨tail, left, right, -, leftOk, rightOk, rfl⟩ := Expr.code_binary_eq_ok.mp compiled
    obtain ⟨before, filled, after, leads, filledOk, rfl⟩ := code_fill value inner rightOk
    by_cases swaps : op.swapsOperands
    · refine ⟨before, filled, after ++ left ++ tail, ?_, filledOk, by simp [swaps]⟩
      simp [lead, swaps, leads]
    · refine ⟨left ++ before, filled, after ++ tail, ?_, filledOk, by simp [swaps]⟩
      simp [lead, swaps, leftOk, leads]
  | .argument func earlier inner later, code, compiled => by
    obtain ⟨argCode, argsOk, shape⟩ := Expr.code_call_eq_ok compiled
    obtain ⟨first, middle, last, firstOk, middleOk, rfl⟩ := Expr.codes_around argsOk
    obtain ⟨before, filled, after, leads, filledOk, rfl⟩ := code_fill value inner middleOk
    obtain ⟨ending, rfl⟩ : ∃ ending, code = first ++ (before ++ (filled ++ after) ++ last) ++ ending := by
      rcases shape with ⟨_, -, -, rfl⟩ | ⟨-, rfl⟩
      · exact ⟨_, rfl⟩
      · exact ⟨_, rfl⟩
    exact ⟨first ++ before, filled, after ++ last ++ ending, by simp [lead, firstOk, leads],
      filledOk, by simp⟩
  | .element kind earlier inner later, code, compiled => by
    obtain ⟨-, elemCode, elemsOk, rfl⟩ := Expr.code_composite_eq_ok compiled
    obtain ⟨first, middle, last, firstOk, middleOk, rfl⟩ := Expr.codes_around elemsOk
    obtain ⟨before, filled, after, leads, filledOk, rfl⟩ := code_fill value inner middleOk
    generalize chainElements _ = ending
    exact ⟨first ++ before, filled, after ++ last ++ ending, by simp [lead, firstOk, leads],
      filledOk, by simp⟩
  | .paren inner, code, compiled => by
    rw [fill, Expr.code] at compiled
    exact code_fill value inner compiled

end ExprContext

/-! ## Bodies with a hole -/

/-- Statements with a hole in one of their expressions. What stands around the hole on its level is
kept with every step inward. -/
inductive BodyContext where
  | inExpr (before : List Stmt) (inner : ExprContext) (after : List Stmt)
  | inReturn (before : List Stmt) (earlier : List Expr) (inner : ExprContext) (later : List Expr)
      (after : List Stmt)
  | inCond (before : List Stmt) (inner : ExprContext) (thenArm : List Stmt)
      (elseArm : Option (List Stmt)) (after : List Stmt)
  | inThen (before : List Stmt) (cond : Expr) (inner : BodyContext)
      (elseArm : Option (List Stmt)) (after : List Stmt)
  | inElse (before : List Stmt) (cond : Expr) (thenArm : List Stmt) (inner : BodyContext)
      (after : List Stmt)
  | inAssign (before : List Stmt) (targets : List String) (earlier : List Expr)
      (inner : ExprContext) (later : List Expr) (after : List Stmt)
  | inLoop (before : List Stmt) (inner : BodyContext) (after : List Stmt)
  deriving Repr

namespace BodyContext

/-- Puts an expression into the hole. -/
def fill : BodyContext → Expr → List Stmt
  | .inExpr before inner after, value => before ++ .expr (inner.fill value) :: after
  | .inReturn before earlier inner later after, value =>
    before ++ .ret (earlier ++ inner.fill value :: later) :: after
  | .inCond before inner thenArm elseArm after, value =>
    before ++ .ifElse (inner.fill value) thenArm elseArm :: after
  | .inThen before cond inner elseArm after, value =>
    before ++ .ifElse cond (inner.fill value) elseArm :: after
  | .inElse before cond thenArm inner after, value =>
    before ++ .ifElse cond thenArm (some (inner.fill value)) :: after
  | .inAssign before targets earlier inner later after, value =>
    before ++ .assign targets (earlier ++ inner.fill value :: later) :: after
  | .inLoop before inner after, value => before ++ .loop (inner.fill value) :: after

/-- The statements before the one with the hole, on the outermost level. -/
def before : BodyContext → List Stmt
  | .inExpr before .. | .inReturn before .. | .inCond before .. | .inThen before ..
  | .inElse before .. | .inAssign before .. | .inLoop before .. => before

/-- The statement with the hole, on the outermost level. -/
def stmt : BodyContext → Expr → Stmt
  | .inExpr _ inner _, value => .expr (inner.fill value)
  | .inReturn _ earlier inner later _, value => .ret (earlier ++ inner.fill value :: later)
  | .inCond _ inner thenArm elseArm _, value => .ifElse (inner.fill value) thenArm elseArm
  | .inThen _ cond inner elseArm _, value => .ifElse cond (inner.fill value) elseArm
  | .inElse _ cond thenArm inner _, value => .ifElse cond thenArm (some (inner.fill value))
  | .inAssign _ targets earlier inner later _, value =>
    .assign targets (earlier ++ inner.fill value :: later)
  | .inLoop _ inner _, value => .loop (inner.fill value)

theorem exists_fill_eq (context : BodyContext) :
    ∃ after, ∀ value, context.fill value = context.before ++ context.stmt value :: after := by
  cases context <;> exact ⟨_, fun _ => rfl⟩

/-- The block in which the hole stands: zero for the body itself, and otherwise the number of the
arm, counted from one in the order in which the arms are created. -/
def number : BodyContext → Nat
  | .inExpr .. | .inReturn .. | .inCond .. | .inAssign .. => 0
  | .inThen before _ inner _ _ => Stmt.armCountOfAll before + 1 + inner.number
  | .inElse before _ thenArm inner _ =>
    Stmt.armCountOfAll before + 1 + Stmt.armCountOfAll thenArm + 1 + inner.number
  | .inLoop _ inner _ => inner.number

/-- The statements before the hole in its block. -/
def preceding : BodyContext → List Stmt
  | .inExpr before .. | .inReturn before .. | .inCond before .. | .inAssign before .. => before
  | .inThen _ _ inner _ _ | .inElse _ _ _ inner _ | .inLoop _ inner _ => inner.preceding

/-- What stands around the hole in its expression. -/
def site : BodyContext → ExprContext
  | .inExpr _ inner _ | .inReturn _ _ inner _ _ | .inCond _ inner _ _ _
  | .inAssign _ _ _ inner _ _ => inner
  | .inThen _ _ inner _ _ | .inElse _ _ _ inner _ | .inLoop _ inner _ => inner.site

/-- The code that comes before the code of the hole in its block. -/
def lead (options : Options) (params : List String) (block : String) (context : BodyContext) :
    Except CompileError (List Instr) := do
  return (← Stmt.codes options params block 0 context.preceding).instrs ++
    (← context.site.lead options params)

end BodyContext

/-! ## Blocks of code by number -/

/-- The arms with their code in the order of their numbers. -/
def Forest.pieces : Forest → List (String × List Instr)
  | .nil => []
  | .node name instrs nested next => (name, instrs) :: (nested.pieces ++ next.pieces)

/-- The code of a block and of its arms. -/
def Fragment.pieces (block : String) (fragment : Fragment) : List (String × List Instr) :=
  (block, fragment.instrs) :: fragment.arms.pieces

namespace Forest

@[simp] theorem pieces_append (first second : Forest) :
    (first ++ second).pieces = first.pieces ++ second.pieces := by
  induction first with
  | nil => rfl
  | node _ _ _ _ _ ih => simp [pieces, ih]

@[simp] theorem length_pieces (forest : Forest) : forest.pieces.length = forest.size := by
  induction forest with
  | nil => rfl
  | node _ _ _ _ ihNested ihNext => simp [pieces, size, ihNested, ihNext]; omega

theorem map_place (forest : Forest) (scope base : Nat) :
    (forest.place scope base).map (fun block => (block.name, block.instrs)) = forest.pieces := by
  induction forest generalizing base with
  | nil => rfl
  | node _ _ _ _ ihNested ihNext => simp [place, pieces, ihNested, ihNext]

theorem map_fst_pieces (forest : Forest) : forest.pieces.map Prod.fst = forest.names := by
  induction forest with
  | nil => rfl
  | node _ _ _ _ ihNested ihNext => simp [pieces, names, ihNested, ihNext]

end Forest

/-- The code of a block by its number, up to where something is known of it. -/
def Fragment.Begins (fragment : Fragment) (block : String) (number : Nat) (name : String)
    (code : List Instr) : Prop :=
  ∃ rest, (fragment.pieces block)[number]? = some (name, code ++ rest)

namespace Fragment.Begins

variable {block name : String} {number : Nat} {code : List Instr}

/-- The code of an arm begins as that of its statements. -/
theorem arm {fragment : Fragment} (begins : fragment.Begins block number name code)
    (ending : List Instr) :
    ∃ rest, ((block, fragment.instrs ++ ending) :: fragment.arms.pieces)[number]? =
      some (name, code ++ rest) := by
  obtain ⟨rest, found⟩ := begins
  cases number with
  | zero =>
    simp only [pieces, List.getElem?_cons_zero, Option.some.injEq, Prod.mk.injEq] at found ⊢
    exact ⟨rest ++ ending, found.1, by rw [found.2, List.append_assoc]⟩
  | succ number => exact ⟨rest, found⟩

/-- The first block goes on with what follows. -/
theorem appendRight {fragment : Fragment} (begins : fragment.Begins block number name code)
    (later : Fragment) : (fragment ++ later).Begins block number name code := by
  obtain ⟨rest, found⟩ := begins
  cases number with
  | zero =>
    simp only [pieces, List.getElem?_cons_zero, Option.some.injEq, Prod.mk.injEq] at found
    exact ⟨rest ++ later.instrs, by simp [pieces, found.1, found.2]⟩
  | succ number =>
    refine ⟨rest, ?_⟩
    simp only [pieces, List.getElem?_cons_succ, arms_append, Forest.pieces_append] at found ⊢
    rw [List.getElem?_append_left (List.getElem?_eq_some_iff.mp found).1, found]

/-- A block of a later fragment is found after the arms of the earlier one. -/
theorem appendLeft {fragment : Fragment} (begins : fragment.Begins block (number + 1) name code)
    (earlier : Fragment) :
    (earlier ++ fragment).Begins block (earlier.arms.size + number + 1) name code := by
  obtain ⟨rest, found⟩ := begins
  refine ⟨rest, ?_⟩
  simp only [pieces, List.getElem?_cons_succ, arms_append, Forest.pieces_append] at found ⊢
  rw [List.getElem?_append_right (by simp), Forest.length_pieces, Nat.add_sub_cancel_left, found]

/-- The first block has the code of the earlier fragment before that of the later one. -/
theorem appendCode {fragment : Fragment} (begins : fragment.Begins block 0 name code)
    (earlier : Fragment) :
    (earlier ++ fragment).Begins block 0 name (earlier.instrs ++ code) := by
  obtain ⟨rest, found⟩ := begins
  simp only [pieces, List.getElem?_cons_zero, Option.some.injEq, Prod.mk.injEq] at found
  exact ⟨rest, by simp [pieces, found.1, found.2]⟩

theorem ofInstrs {before : List Instr} (after : List Instr) :
    (Fragment.ofInstrs (before ++ after)).Begins block 0 block before :=
  ⟨after, rfl⟩

/-- The condition comes first in the code of a conditional. -/
theorem ofCondition {position : Nat} {before after : List Instr} {taken other : Fragment} :
    (conditional block position (before ++ after) taken other).Begins block 0 block before :=
  ⟨after ++ [branch block (position + (before ++ after).length)], by simp [pieces]⟩

/-- The arms of a conditional are its first two blocks, each with those nested in it. -/
theorem ofThen {position : Nat} {test : List Instr} {taken other : Fragment}
    (begins : taken.Begins (armName block (position + test.length) "t") number name code) :
    (conditional block position test taken other).Begins block (number + 1) name code := by
  obtain ⟨rest, found⟩ := begins.arm [.plain .join]
  refine ⟨rest, ?_⟩
  simp only [pieces, List.getElem?_cons_succ, conditional_arms, Forest.pieces]
  rw [← List.cons_append, List.getElem?_append_left (List.getElem?_eq_some_iff.mp found).1, found]

theorem ofElse {position : Nat} {test : List Instr} {taken other : Fragment}
    (begins : other.Begins (armName block (position + test.length) "f") number name code) :
    (conditional block position test taken other).Begins block (1 + taken.arms.size + number + 1)
      name code := by
  obtain ⟨rest, found⟩ := begins.arm [.plain .join]
  refine ⟨rest, ?_⟩
  simp only [pieces, List.getElem?_cons_succ, conditional_arms, Forest.pieces, List.append_nil]
  rw [← List.cons_append, List.getElem?_append_right (by simp; omega), ← found]
  congr 1
  simp only [List.length_cons, Forest.length_pieces]
  omega

end Fragment.Begins

/-! ## The code around a hole -/

namespace Stmt

variable {options : Options} {params : List String} {block : String}

theorem codes_append (options : Options) (params : List String) (block : String)
    (first second : List Stmt) (position : Nat) :
    codes options params block position (first ++ second) = (do
      let head ← codes options params block position first
      let tail ← codes options params block (position + head.instrs.length) second
      return head ++ tail) := by
  induction first generalizing position with
  | nil =>
    simp only [List.nil_append, codes, ok_bind, Fragment.instrs_empty, List.length_nil,
      Nat.add_zero, Fragment.empty_append, bind_pure]
  | cons stmt rest ih =>
    simp only [List.cons_append, codes, ih, bind_assoc, pure_bind, Fragment.append_assoc,
      Fragment.instrs_append, List.length_append, Nat.add_assoc]

/-- Only the last statement of a body may be a return. -/
theorem bodyCode_append (options : Options) (params : List String) (block : String)
    (first : List Stmt) (stmt : Stmt) (rest : List Stmt) (position : Nat) :
    bodyCode options params block position (first ++ stmt :: rest) = (do
      let head ← codes options params block position first
      let tail ← bodyCode options params block (position + head.instrs.length) (stmt :: rest)
      return head ++ tail) := by
  induction first generalizing position with
  | nil =>
    simp only [List.nil_append, codes, ok_bind, Fragment.instrs_empty, List.length_nil,
      Nat.add_zero, Fragment.empty_append, bind_pure]
  | cons earlier others ih =>
    have unfolded : bodyCode options params block position
        (earlier :: (others ++ stmt :: rest)) = (do
          let head ← earlier.code options params block position
          let tail ← bodyCode options params block (position + head.instrs.length)
            (others ++ stmt :: rest)
          return head ++ tail) := by
      cases others <;> simp [bodyCode]
    simp only [List.cons_append, unfolded, codes, ih, bind_assoc, pure_bind, Fragment.append_assoc,
      Fragment.instrs_append, List.length_append, Nat.add_assoc]

/-- The code of a statement stands in that of its block after the code of `before`. -/
def CodedIn (options : Options) (params : List String) (block : String) (before : List Stmt)
    (stmt : Stmt) (fragment : Fragment) : Prop :=
  ∃ head middle tail, codes options params block 0 before = .ok head ∧
    stmt.code options params block head.instrs.length = .ok middle ∧
    fragment = head ++ (middle ++ tail)

theorem codedIn_of_codes {before after : List Stmt} {stmt : Stmt} {fragment : Fragment}
    (compiled : codes options params block 0 (before ++ stmt :: after) = .ok fragment) :
    CodedIn options params block before stmt fragment := by
  rw [codes_append] at compiled
  obtain ⟨head, headOk, rest, restOk, rfl⟩ := by
    simpa only [bind_eq_ok, pure_eq_ok] using compiled
  obtain ⟨middle, middleOk, tail, -, rfl⟩ := by
    simpa only [codes, bind_eq_ok, pure_eq_ok, Nat.zero_add] using restOk
  exact ⟨head, middle, tail, headOk, middleOk, rfl⟩

/-- In a body the statement may also be the return at the end. -/
theorem codedIn_of_bodyCode {before after : List Stmt} {stmt : Stmt} {fragment : Fragment}
    (compiled : bodyCode options params block 0 (before ++ stmt :: after) = .ok fragment) :
    CodedIn options params block before stmt fragment ∨
      ∃ values head last, stmt = .ret values ∧ codes options params block 0 before = .ok head ∧
        returnCode options params values = .ok last ∧ fragment = head ++ last := by
  rw [bodyCode_append] at compiled
  obtain ⟨head, headOk, rest, restOk, rfl⟩ := by
    simpa only [bind_eq_ok, pure_eq_ok, Nat.zero_add] using compiled
  have goesOn : (do
      let middle ← stmt.code options params block head.instrs.length
      let tail ← bodyCode options params block (head.instrs.length + middle.instrs.length) after
      return middle ++ tail) = .ok rest → CodedIn options params block before stmt (head ++ rest) := by
    intro statement
    obtain ⟨middle, middleOk, tail, -, rfl⟩ := by
      simpa only [bind_eq_ok, pure_eq_ok] using statement
    exact ⟨head, middle, tail, headOk, middleOk, rfl⟩
  unfold bodyCode at restOk
  split at restOk
  · rename_i impossible
    cases impossible
  · rename_i values isLast
    cases isLast
    exact .inr ⟨values, head, rest, rfl, headOk, restOk, rfl⟩
  · rename_i same
    cases same
    exact .inl (goesOn restOk)

end Stmt

namespace BodyContext

variable {options : Options} {params : List String}

/-- The block of the hole begins with what leads to the hole and the code of what is in it. -/
def FilledIn (options : Options) (params : List String) (context : BodyContext) (value : Expr)
    (block : String) (fragment : Fragment) : Prop :=
  ∃ name before filled, context.lead options params name = .ok before ∧
    value.code options params = .ok filled ∧
    fragment.Begins block context.number name (before ++ filled)

/-- A hole in an expression of the block itself. -/
theorem filledIn_of_site {context : BodyContext} {value : Expr} {block : String}
    {head middle tail : Fragment} {before filled : List Instr} (outermost : context.number = 0)
    (precedes : Stmt.codes options params block 0 context.preceding = .ok head)
    (leads : context.site.lead options params = .ok before)
    (filledOk : value.code options params = .ok filled)
    (begins : middle.Begins block 0 block (before ++ filled)) :
    context.FilledIn options params value block (head ++ (middle ++ tail)) := by
  refine ⟨block, head.instrs ++ before, filled, by simp [lead, precedes, leads], filledOk, ?_⟩
  rw [outermost, List.append_assoc]
  exact (begins.appendRight tail).appendCode head

/-- A hole in an arm. -/
theorem filledIn_of_arm {context inner : BodyContext} {value : Expr} {block : String}
    {head middle tail : Fragment} {name : String} {before filled : List Instr} {number : Nat}
    (leads : inner.lead options params name = .ok before)
    (samePreceding : context.preceding = inner.preceding) (sameSite : context.site = inner.site)
    (filledOk : value.code options params = .ok filled)
    (begins : middle.Begins block (number + 1) name (before ++ filled))
    (isNumber : context.number = head.arms.size + number + 1) :
    context.FilledIn options params value block (head ++ (middle ++ tail)) := by
  refine ⟨name, before, filled, ?_, filledOk, ?_⟩
  · rw [lead, samePreceding, sameSite]
    exact leads
  · rw [isNumber]
    exact (begins.appendRight tail).appendLeft head

theorem filledIn_of_codedIn (value : Expr) : ∀ (context : BodyContext) {block : String}
    {fragment : Fragment},
    Stmt.CodedIn options params block context.before (context.stmt value) fragment →
    context.FilledIn options params value block fragment
  | .inExpr before inner after, block, fragment, coded => by
    obtain ⟨head, middle, tail, headOk, middleOk, rfl⟩ := coded
    obtain ⟨code, codeOk, rfl⟩ := by
      simpa only [stmt, Stmt.code, bind_eq_ok, pure_eq_ok] using middleOk
    obtain ⟨lead, filled, rest, leads, filledOk, rfl⟩ := inner.code_fill value codeOk
    refine filledIn_of_site rfl headOk leads filledOk ?_
    rw [← List.append_assoc]
    exact .ofInstrs rest
  | .inReturn before earlier inner later after, block, fragment, coded => by
    obtain ⟨head, middle, tail, headOk, middleOk, -⟩ := coded
    simp [stmt, Stmt.code] at middleOk
  | .inCond before inner thenArm elseArm after, block, fragment, coded => by
    obtain ⟨head, middle, tail, headOk, middleOk, rfl⟩ := coded
    obtain ⟨test, testOk, taken, -, other, -, rfl⟩ := by
      simpa only [stmt, Stmt.code, bind_eq_ok, pure_eq_ok] using middleOk
    obtain ⟨lead, filled, rest, leads, filledOk, rfl⟩ := inner.code_fill value testOk
    refine filledIn_of_site rfl headOk leads filledOk ?_
    rw [← List.append_assoc]
    exact .ofCondition
  | .inThen before cond inner elseArm after, block, fragment, coded => by
    obtain ⟨head, middle, tail, headOk, middleOk, rfl⟩ := coded
    obtain ⟨test, testOk, taken, takenOk, other, -, rfl⟩ := by
      simpa only [stmt, Stmt.code, bind_eq_ok, pure_eq_ok] using middleOk
    obtain ⟨later, fillEq⟩ := inner.exists_fill_eq
    rw [fillEq] at takenOk
    obtain ⟨name, lead, filled, leads, filledOk, begins⟩ :=
      filledIn_of_codedIn value inner (Stmt.codedIn_of_codes takenOk)
    refine filledIn_of_arm leads rfl rfl filledOk begins.ofThen ?_
    rw [(Stmt.yields_of_codes _ headOk).size_arms, number, BodyContext.before]
    omega
  | .inElse before cond thenArm inner after, block, fragment, coded => by
    obtain ⟨head, middle, tail, headOk, middleOk, rfl⟩ := coded
    obtain ⟨test, testOk, taken, takenOk, other, otherOk, rfl⟩ := by
      simpa only [stmt, Stmt.code, Stmt.elseCode, bind_eq_ok, pure_eq_ok] using middleOk
    obtain ⟨later, fillEq⟩ := inner.exists_fill_eq
    rw [fillEq] at otherOk
    obtain ⟨name, lead, filled, leads, filledOk, begins⟩ :=
      filledIn_of_codedIn value inner (Stmt.codedIn_of_codes otherOk)
    refine filledIn_of_arm leads rfl rfl filledOk begins.ofElse ?_
    rw [(Stmt.yields_of_codes _ headOk).size_arms, (Stmt.yields_of_codes _ takenOk).size_arms,
      number, BodyContext.before]
    omega
  | .inAssign before targets earlier inner later after, block, fragment, coded => by
    obtain ⟨head, middle, tail, headOk, middleOk, -⟩ := coded
    simp [stmt, Stmt.code] at middleOk
  | .inLoop before inner after, block, fragment, coded => by
    obtain ⟨head, middle, tail, headOk, middleOk, -⟩ := coded
    simp [stmt, Stmt.code] at middleOk

/-- The code of a body with a filled hole. -/
theorem bodyCode_fill {value : Expr} {context : BodyContext} {block : String} {fragment : Fragment}
    (compiled : Stmt.bodyCode options params block 0 (context.fill value) = .ok fragment) :
    context.FilledIn options params value block fragment := by
  obtain ⟨after, fillEq⟩ := context.exists_fill_eq
  rw [fillEq] at compiled
  rcases Stmt.codedIn_of_bodyCode compiled with
    coded | ⟨values, head, last, isReturn, headOk, lastOk, rfl⟩
  · exact filledIn_of_codedIn value context coded
  · cases context with
    | inReturn before earlier inner later after =>
      -- a return has one value where it has code
      cases isReturn
      cases earlier with
      | cons _ _ => cases later <;> simp [Stmt.returnCode] at lastOk
      | nil =>
        cases later with
        | cons _ _ => simp [Stmt.returnCode] at lastOk
        | nil =>
          obtain ⟨code, codeOk, rfl⟩ := by
            simpa only [List.nil_append, Stmt.returnCode, bind_eq_ok, pure_eq_ok] using lastOk
          obtain ⟨lead, filled, rest, leads, filledOk, rfl⟩ := inner.code_fill value codeOk
          rw [← Fragment.append_empty (.ofInstrs _)]
          refine filledIn_of_site rfl headOk leads filledOk ?_
          rw [← List.append_assoc]
          exact .ofInstrs rest
    | _ => cases isReturn

end BodyContext

theorem CompiledFunction.map_blocks (function : CompiledFunction) (id : Nat) :
    (function.blocks id).map (fun block => (block.name, block.instrs)) =
      function.code.pieces function.decl.name := by
  simp [blocks, Fragment.pieces, Forest.map_place]

/-- The block of a function in which a hole stands. -/
theorem CompiledFunction.exists_block {options : Options} {function : CompiledFunction}
    (compiled : function.decl.code options = .ok function.code) {context : BodyContext}
    {value : Expr} (written : function.decl.body = context.fill value) (id : Nat) :
    ∃ block before filled rest, (function.blocks id)[context.number]? = some block ∧
      context.lead options function.decl.params block.name = .ok before ∧
      value.code options function.decl.params = .ok filled ∧
      block.instrs = before ++ (filled ++ rest) := by
  obtain ⟨body, bodyOk, code⟩ := by
    simpa only [FunctionDecl.code, bind_eq_ok, pure_eq_ok] using compiled
  rw [written] at bodyOk
  obtain ⟨name, before, filled, leads, filledOk, begins⟩ := BodyContext.bodyCode_fill bodyOk
  obtain ⟨rest, found⟩ := begins.appendRight (.ofInstrs [.plain .rtn])
  rw [code, ← function.map_blocks id, List.getElem?_map, Option.map_eq_some_iff] at found
  obtain ⟨block, isBlock, same⟩ := found
  obtain ⟨rfl, instrs⟩ := Prod.mk.inj same
  exact ⟨block, before, filled, rest, isBlock, leads, filledOk, by rw [instrs, List.append_assoc]⟩

end Secd
