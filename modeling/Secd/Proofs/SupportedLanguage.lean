import Secd.Proofs.Generation

namespace Secd

open Results

/-! # The language that has code

Which programs can be generated, read off their trees: every expression and every statement is
looked at, however deep it lies, and what is refused is refused for what it is itself. The parts of
a tree are listed by `Expr.parts` and `Stmt.partsOfAll`, and the conditions on a part
(`Expr.Allowed`, `Stmt.IsUnsupported`, `Stmt.IsReturn`) mention nothing below it. Code exists
exactly if all parts pass (`Expr.code_exists_iff`, `Stmt.code_exists_iff`,
`FunctionDecl.code_exists_iff`).

A return is the one statement for which its place counts: it may end the body of a function.
-/

/-! ## Expressions -/

namespace Expr

mutual

/-- An expression and all that is inside it. -/
def parts : Expr → List Expr
  | .literal value => [.literal value]
  | .ident name => [.ident name]
  | .binary op lhs rhs => .binary op lhs rhs :: (lhs.parts ++ rhs.parts)
  | .call func args => .call func args :: partsOfAll args
  | .composite kind elems => .composite kind elems :: partsOfAll elems
  | .paren inner => .paren inner :: inner.parts

def partsOfAll : List Expr → List Expr
  | [] => []
  | expr :: rest => expr.parts ++ partsOfAll rest

end

/-- There is code for an expression of this form: its operator has an instruction, its composite
literal is an array, and where arities are checked its primitive gets as many arguments as it
takes. -/
def Allowed (options : Options) : Expr → Prop
  | .binary op _ _ => op ≠ .rem ∧ op ≠ .and ∧ op ≠ .or
  | .call func args => options.checkArity = true →
      ∀ primitive, Primitive.find? func = some primitive → args.length = primitive.arity
  | .composite kind _ => kind = .array
  | _ => True

/-- The expression and all that is inside it is allowed. -/
def Supported (options : Options) (expr : Expr) : Prop := ∀ part ∈ expr.parts, part.Allowed options

theorem forall_mem_partsOfAll {property : Expr → Prop} {exprs : List Expr} :
    (∀ part ∈ partsOfAll exprs, property part) ↔
      ∀ expr ∈ exprs, ∀ part ∈ expr.parts, property part := by
  induction exprs with
  | nil => simp [partsOfAll]
  | cons expr rest ih => rw [partsOfAll, List.forall_mem_append, List.forall_mem_cons, ih]

end Expr

theorem BinaryOp.tail_exists_iff (op : BinaryOp) :
    (∃ tail, op.tail = .ok tail) ↔ op ≠ .rem ∧ op ≠ .and ∧ op ≠ .or := by
  cases op <;> simp [BinaryOp.tail, BinaryOp.tail?]

theorem BinaryOp.operands_exists_iff (op : BinaryOp)
    {left right : Except CompileError (List Instr)} :
    (∃ code, op.operands left right = .ok code) ↔
      (∃ code, left = .ok code) ∧ ∃ code, right = .ok code := by
  cases swaps : op.swapsOperands <;> cases left <;> cases right <;>
    simp [BinaryOp.operands, swaps]

theorem Primitive.checkArity_exists_iff (options : Options) (primitive : Primitive) (got : Nat) :
    (∃ done, primitive.checkArity options got = .ok done) ↔
      (options.checkArity = true → got = primitive.arity) := by
  by_cases matching : got = primitive.arity
  · simp [checkArity, matching]
  · by_cases checks : options.checkArity = true
    · simp [checkArity, matching, checks]
    · simp [checkArity, checks]

namespace Expr

variable {options : Options} {params : List String}

theorem codes_exists_iff {exprs : List Expr} :
    (∃ code, codes options params exprs = .ok code) ↔
      ∀ expr ∈ exprs, ∃ code, expr.code options params = .ok code := by
  induction exprs with
  | nil => simp [codes]
  | cons expr rest ih =>
    rw [codes, exists_bind_eq_ok_iff fun head => exists_bind_pure_eq_ok_iff, ih,
      List.forall_mem_cons]

/-- An expression has code exactly if all of it is allowed. -/
theorem code_exists_iff (expr : Expr) :
    (∃ code, expr.code options params = .ok code) ↔ expr.Supported options := by
  have codesOf : ∀ exprs : List Expr,
      (∀ expr ∈ exprs, (∃ code, expr.code options params = .ok code) ↔ expr.Supported options) →
      ((∃ code, codes options params exprs = .ok code) ↔
        ∀ part ∈ partsOfAll exprs, part.Allowed options) := by
    intro exprs each
    rw [codes_exists_iff, forall_mem_partsOfAll]
    exact forall₂_congr each
  induction expr using Expr.induct with
  | literal value => cases value <;> simp [code, Supported, parts, Allowed]
  | ident name => simp [code, Supported, parts, Allowed]
  | binary op lhs rhs ihLeft ihRight =>
    rw [code, exists_bind_eq_ok_iff fun tail => exists_bind_pure_eq_ok_iff,
      op.tail_exists_iff, op.operands_exists_iff, Supported, parts, List.forall_mem_cons,
      List.forall_mem_append]
    exact and_congr_right fun _ => and_congr ihLeft ihRight
  | call func args ih =>
    cases found : Primitive.find? func with
    | some primitive =>
      simp only [code, found]
      rw [exists_bind_eq_ok_iff fun _ => exists_bind_pure_eq_ok_iff,
        primitive.checkArity_exists_iff, codesOf args ih]
      simp [Supported, parts, Allowed, found]
    | none =>
      simp only [code, found]
      rw [exists_bind_pure_eq_ok_iff, codesOf args ih]
      simp [Supported, parts, Allowed, found]
  | composite kind elems ih =>
    by_cases isArray : kind = .array
    · subst isArray
      rw [code, exists_bind_pure_eq_ok_iff, codesOf elems ih]
      simp [Supported, parts, Allowed]
    · have refused : ¬ ∃ code, (composite kind elems).code options params = .ok code := by
        rintro ⟨code, compiled⟩
        exact isArray (code_composite_eq_ok compiled).1
      simp [refused, Supported, parts, Allowed, isArray]
  | paren inner ih =>
    rw [code, Supported, parts, List.forall_mem_cons]
    exact ih.trans (and_iff_right trivial).symm

end Expr

/-! ## Statements -/

namespace Stmt

mutual

/-- The statements inside a statement, at any depth. -/
def nested : Stmt → List Stmt
  | .ifElse _ thenArm elseArm => partsOfAll thenArm ++ partsOfArm elseArm
  | .loop body => partsOfAll body
  | _ => []

/-- Statements with all that is inside them. -/
def partsOfAll : List Stmt → List Stmt
  | [] => []
  | stmt :: rest => stmt :: (stmt.nested ++ partsOfAll rest)

def partsOfArm : Option (List Stmt) → List Stmt
  | none => []
  | some stmts => partsOfAll stmts

end

/-- The statements of a body, at any depth, except for the one that ends it. -/
def partsBeforeEnd : List Stmt → List Stmt
  | [] => []
  | [last] => last.nested
  | stmt :: rest => stmt :: (stmt.nested ++ partsBeforeEnd rest)

def IsReturn : Stmt → Prop
  | .ret _ => True
  | _ => False

/-- Assignments and loops have no code anywhere. -/
def IsUnsupported : Stmt → Prop
  | .assign _ _ | .loop _ => True
  | _ => False

variable {options : Options} {params : List String}

mutual

/-- A statement has code, wherever it stands, exactly if it contains neither a return nor anything
that has no code. -/
theorem code_exists_iff (block : String) (position : Nat) : ∀ stmt : Stmt,
    (∃ fragment, stmt.code options params block position = .ok fragment) ↔
      (∀ part ∈ stmt :: stmt.nested, ¬ part.IsReturn ∧ ¬ part.IsUnsupported) ∧
        ∀ expr ∈ stmt.exprs, expr.Supported options
  | .expr value => by
    rw [code, exists_bind_pure_eq_ok_iff, value.code_exists_iff]
    simp [nested, exprs, IsReturn, IsUnsupported]
  | .ifElse cond thenArm elseArm => by
    -- what the arms are named after does not matter for whether they have code
    rw [code, exists_bind_eq_ok_iff fun test =>
      (exists_bind_eq_ok_iff fun taken =>
        exists_bind_pure_eq_ok_iff.trans (elseCode_exists_iff _ elseArm)).trans
          (and_congr_left' (codes_exists_iff _ 0 thenArm)), cond.code_exists_iff]
    simp only [nested, exprs, List.forall_mem_cons, List.forall_mem_append]
    simp only [IsReturn, IsUnsupported, not_false_eq_true, true_and]
    tauto
  | .ret values => by simp [code, IsReturn]
  | .assign targets values => by simp [code, IsUnsupported]
  | .loop body => by simp [code, IsUnsupported]

theorem codes_exists_iff (block : String) (position : Nat) : ∀ stmts : List Stmt,
    (∃ fragment, codes options params block position stmts = .ok fragment) ↔
      (∀ part ∈ partsOfAll stmts, ¬ part.IsReturn ∧ ¬ part.IsUnsupported) ∧
        ∀ expr ∈ exprsOfAll stmts, expr.Supported options
  | [] => by simp [codes, partsOfAll, exprsOfAll]
  | stmt :: rest => by
    rw [codes, exists_bind_eq_ok_iff fun head =>
      exists_bind_pure_eq_ok_iff.trans (codes_exists_iff block _ rest),
      code_exists_iff block position stmt]
    simp only [partsOfAll, exprsOfAll, List.forall_mem_cons, List.forall_mem_append]
    tauto

theorem elseCode_exists_iff (block : String) : ∀ arm : Option (List Stmt),
    (∃ fragment, elseCode options params block arm = .ok fragment) ↔
      (∀ part ∈ partsOfArm arm, ¬ part.IsReturn ∧ ¬ part.IsUnsupported) ∧
        ∀ expr ∈ exprsOfArm arm, expr.Supported options
  | none => by simp [elseCode, partsOfArm, exprsOfArm]
  | some stmts => by
    rw [elseCode, codes_exists_iff block 0 stmts]
    rfl

end

/-! ## Functions -/

/-- The body of a function is all in the language. -/
@[mk_iff]
structure SupportedBody (options : Options) (body : List Stmt) : Prop where
  statements : ∀ part ∈ partsOfAll body, ¬ part.IsUnsupported
  returns : ∀ part ∈ partsBeforeEnd body, ¬ part.IsReturn
  values : ∀ values, body.getLast? = some (.ret values) → values.length ≤ 1
  exprs : ∀ expr ∈ exprsOfAll body, expr.Supported options

@[simp] theorem supportedBody_nil : SupportedBody options [] := by
  simp [supportedBody_iff, partsOfAll, partsBeforeEnd, exprsOfAll]

theorem supportedBody_ret {values : List Expr} :
    SupportedBody options [.ret values] ↔
      values.length ≤ 1 ∧ ∀ expr ∈ values, expr.Supported options := by
  simp [supportedBody_iff, partsOfAll, partsBeforeEnd, exprsOfAll, nested, Stmt.exprs,
    IsUnsupported]

/-- Only a return at the very end may be one. -/
theorem supportedBody_cons {stmt : Stmt} {rest : List Stmt}
    (notReturn : ∀ values, stmt = .ret values → rest = [] → False) :
    SupportedBody options (stmt :: rest) ↔
      ((∀ part ∈ stmt :: stmt.nested, ¬ part.IsReturn ∧ ¬ part.IsUnsupported) ∧
        ∀ expr ∈ stmt.exprs, expr.Supported options) ∧ SupportedBody options rest := by
  cases rest with
  | nil =>
    have isNone : ¬ stmt.IsReturn := by
      cases stmt with
      | ret values => exact (notReturn values rfl rfl).elim
      | _ => exact id
    have noValues : ∀ values, stmt ≠ .ret values := fun values same => notReturn values same rfl
    simp only [supportedBody_iff, partsOfAll, partsBeforeEnd, exprsOfAll, List.append_nil,
      List.getLast?_singleton, Option.some.injEq, noValues, List.forall_mem_cons]
    grind
  | cons next rest =>
    simp only [supportedBody_iff, partsOfAll, partsBeforeEnd, exprsOfAll, List.getLast?_cons_cons,
      List.forall_mem_cons, List.forall_mem_append]
    grind

theorem returnCode_exists_iff : ∀ values : List Expr,
    (∃ fragment, returnCode options params values = .ok fragment) ↔
      values.length ≤ 1 ∧ ∀ expr ∈ values, expr.Supported options
  | [] => by simp [returnCode]
  | [value] => by
    rw [returnCode, exists_bind_pure_eq_ok_iff, value.code_exists_iff]
    simp
  | _ :: _ :: _ => by simp [returnCode]

theorem bodyCode_exists_iff (block : String) (position : Nat) (body : List Stmt) :
    (∃ fragment, bodyCode options params block position body = .ok fragment) ↔
      SupportedBody options body := by
  fun_induction bodyCode options params block position body with
  | case1 position => simp
  | case2 position values => rw [returnCode_exists_iff, supportedBody_ret]
  | case3 position stmt rest notReturn ih =>
    rw [exists_bind_eq_ok_iff fun head => exists_bind_pure_eq_ok_iff.trans (ih head),
      code_exists_iff, supportedBody_cons notReturn]

end Stmt

theorem FunctionDecl.code_exists_iff {options : Options} (decl : FunctionDecl) :
    (∃ fragment, decl.code options = .ok fragment) ↔ Stmt.SupportedBody options decl.body := by
  rw [code, exists_bind_pure_eq_ok_iff, Stmt.bodyCode_exists_iff]

/-! ## Programs -/

namespace ConstGroup

/-- The values that are written for the constants of a group. -/
def exprs (group : ConstGroup) : List Expr :=
  match group.values with
  | .ordinals => []
  | .exprs values => values

theorem map_fst_definitions {group : ConstGroup} (balanced : group.Balanced) :
    group.definitions.map Prod.fst = group.names := by
  unfold Balanced at balanced
  unfold definitions
  cases isValue : group.values with
  | ordinals => simp [Function.comp_def]
  | exprs values =>
    rw [isValue] at balanced
    exact List.map_fst_zip (Nat.le_of_eq balanced.symm)

/-- The constants of a group have code if all that is written for them is in the language; an
ordinal always has. -/
theorem values_exist_iff {options : Options} {group : ConstGroup} (balanced : group.Balanced) :
    (∀ definition ∈ group.definitions, ∃ code, definition.2.code options [] = .ok code) ↔
      ∀ expr ∈ group.exprs, expr.Supported options := by
  unfold Balanced at balanced
  unfold definitions exprs
  cases isValue : group.values with
  | ordinals =>
    simp only [List.forall_mem_map]
    simp [Expr.int, Expr.code]
  | exprs values =>
    rw [isValue] at balanced
    have valuesOf : (group.names.zip values).map Prod.snd = values :=
      List.map_snd_zip (Nat.le_of_eq balanced)
    simp only [Expr.code_exists_iff]
    nth_rewrite 2 [← valuesOf]
    rw [List.forall_mem_map]

end ConstGroup

namespace Program

variable {options : Options}

/-- The names of all constants in declaration order. -/
def constantNames (program : Program) : List String :=
  program.decls.flatMap fun
    | .function _ => []
    | .consts group => group.names

/-- The program is all in the language: names are declared once, groups of constants have a value
for each name where values are written, and function bodies and values of constants are
supported. -/
structure Supported (options : Options) (program : Program) : Prop where
  functions : (program.functions.map FunctionDecl.name).Nodup
  constants : program.constantNames.Nodup
  balanced : ∀ group, .consts group ∈ program.decls → group.Balanced
  bodies : ∀ decl ∈ program.functions, Stmt.SupportedBody options decl.body
  values : ∀ group, .consts group ∈ program.decls →
    ∀ expr ∈ group.exprs, expr.Supported options

theorem map_fst_constants {program : Program}
    (balanced : ∀ group, .consts group ∈ program.decls → group.Balanced) :
    program.constants.map Prod.fst = program.constantNames := by
  rw [constants, constantNames, List.map_flatMap]
  refine List.flatMap_congr fun decl member => ?_
  cases decl with
  | function _ => rfl
  | consts group => exact ConstGroup.map_fst_definitions (balanced group member)

theorem forall_mem_constants {program : Program} {property : String × Expr → Prop} :
    (∀ definition ∈ program.constants, property definition) ↔
      ∀ group, .consts group ∈ program.decls → ∀ definition ∈ group.definitions,
        property definition := by
  rw [constants, List.forall_mem_flatMap]
  constructor
  · intro all group member
    exact all _ member
  · intro all decl member
    cases decl with
    | function decl => simp
    | consts group => exact all group member

/-- What can be generated is what is in the language. -/
theorem generable_iff_supported {program : Program} :
    program.Generable options ↔ program.Supported options := by
  constructor
  · intro generable
    refine ⟨generable.functions, ?_, generable.balanced, fun decl member => ?_,
      fun group member => ?_⟩
    · rw [← map_fst_constants generable.balanced]
      exact generable.constants
    · exact decl.code_exists_iff.mp (generable.code decl member)
    · exact (ConstGroup.values_exist_iff (generable.balanced group member)).mp
        (forall_mem_constants.mp generable.values group member)
  · intro supported
    refine ⟨supported.functions, fun decl member => ?_, supported.balanced, ?_, ?_⟩
    · exact decl.code_exists_iff.mpr (supported.bodies decl member)
    · rw [map_fst_constants supported.balanced]
      exact supported.constants
    · refine forall_mem_constants.mpr fun group member => ?_
      exact (ConstGroup.values_exist_iff (supported.balanced group member)).mpr
        (supported.values group member)

/-- Where no function has a dot in its name, exactly the programs of the language are accepted. -/
theorem object_exists_iff_supported {program : Program}
    (dotFree : ∀ decl ∈ program.functions, Secd.DotFree decl.name) :
    (∃ object, program.object options = .ok object) ↔ program.Supported options :=
  (object_succeeds_iff dotFree).trans generable_iff_supported

/-- A primitive that gets one argument too few, in an operand in the second arm of a conditional. -/
def strayCons : Program where
  name := "stray"
  decls := [
    .consts ⟨["RED", "BLUE"], .ordinals⟩,
    .function ⟨"main", ["n"], [
      .ifElse (.ident "n") [.expr (.ident "RED")]
        (some [.expr (.binary .add (.int 1) (.call "CONS" [.ident "BLUE"]))]),
      .ret [.ident "n"]]⟩]

theorem strayCons_supported_only_unchecked :
    strayCons.Supported { checkArity := false } ∧ ¬ strayCons.Supported {} := by
  have dotFree : ∀ decl ∈ strayCons.functions, Secd.DotFree decl.name := by decide
  constructor
  · obtain ⟨object, generated, -⟩ := exists_ok_of_any
      (strayCons.object { checkArity := false }) (fun _ => true) (by decide)
    exact (object_exists_iff_supported dotFree).mp ⟨object, generated⟩
  · intro supported
    obtain ⟨object, generated⟩ := (object_exists_iff_supported dotFree).mpr supported
    have refused : (strayCons.object {}).isOk = false := by decide
    rw [generated] at refused
    cases refused

end Program

end Secd
