import Secd.Proofs.Correctness
import Secd.Proofs.Traversal

namespace Secd

open Results

/-! # The check of arities

It is an option of a compilation whether calls of primitives are checked for the number of their
arguments. With the check and without it, code generation goes through a program in the same order
and finds the same faults, until the check refuses a call. `OnlyRefuses` says this of two
computations. It is kept when they are continued alike (`OnlyRefuses.bind`), so that it holds of the
code of expressions (`Expr.onlyRefuses_code`), of statements, of functions, of object programs
(`Program.onlyRefuses_object`) and, since linking knows nothing of arities, of listings
(`onlyRefuses_compile`).
-/

/-! ## Misused primitives -/

/-- The call is one of the primitive, with a number of arguments that it does not take. -/
structure CallSite.Misuses (site : CallSite) (primitive : Primitive) : Prop where
  found : Primitive.find? site.func = some primitive
  arity : site.argCount ≠ primitive.arity

/-- Every primitive that is called gets as many arguments as it takes. -/
def Program.RespectsArities (program : Program) : Prop :=
  ∀ site ∈ program.calls, ∀ primitive, ¬ site.Misuses primitive

/-- The report is about the number of arguments of a call. -/
def CompileError.IsArityFault : CompileError → Prop
  | .primitiveArity _ _ _ => True
  | _ => False

theorem CompileError.IsLinkFault.not_isArityFault {error : CompileError}
    (isLinkFault : error.IsLinkFault) : ¬ error.IsArityFault := by
  cases error with
  | primitiveArity _ _ _ => exact fun _ => isLinkFault.elim id id
  | _ => exact id

/-- Whatever the computation reports, it is not the number of arguments of a call. -/
abbrev Lenient {α : Type} (computed : Except CompileError α) : Prop :=
  Reports (¬ ·.IsArityFault) computed

/-! ## Two computations of which one checks -/

/-- The first computation checks arities, the second does not. Either the check makes no
difference, or it refuses a call, one of those `written`. Without it no arity is reported. -/
inductive OnlyRefuses {α : Type} (written : CallSite → Prop) :
    Except CompileError α → Except CompileError α → Prop where
  | same {computed : Except CompileError α} (lenient : Lenient computed) :
    OnlyRefuses written computed computed
  | refused {site : CallSite} {primitive : Primitive} {unchecked : Except CompileError α}
      (isWritten : written site) (misuses : site.Misuses primitive) (lenient : Lenient unchecked) :
    OnlyRefuses written (.error (.primitiveArity site.func primitive.arity site.argCount)) unchecked

namespace OnlyRefuses

variable {α β : Type} {written : CallSite → Prop} {checked unchecked : Except CompileError α}

theorem ok (value : α) : OnlyRefuses written (.ok value) (.ok value) := .same (.ok value)

theorem error {fault : CompileError} (notArity : ¬ fault.IsArityFault) :
    OnlyRefuses written (.error fault : Except CompileError α) (.error fault) :=
  .same (.error notArity)

theorem lenient (refuses : OnlyRefuses written checked unchecked) : Lenient unchecked := by
  cases refuses with
  | same lenient => exact lenient
  | refused _ _ lenient => exact lenient

theorem bind {next otherNext : α → Except CompileError β}
    (refuses : OnlyRefuses written checked unchecked)
    (each : ∀ value, OnlyRefuses written (next value) (otherNext value)) :
    OnlyRefuses written (checked >>= next) (unchecked >>= otherNext) := by
  cases refuses with
  | same lenient =>
    cases checked with
    | ok value => exact each value
    | error fault => exact .error (lenient fault rfl)
  | refused isWritten misuses lenient =>
    -- what would have followed is left out with the check, and reports no arity without it
    exact .refused isWritten misuses (lenient.bind fun value => (each value).lenient)

theorem refused_or_same (refuses : OnlyRefuses written checked unchecked) :
    (∃ site, written site ∧ ∃ primitive, site.Misuses primitive ∧
      checked = .error (.primitiveArity site.func primitive.arity site.argCount)) ∨
    checked = unchecked := by
  cases refuses with
  | same _ => exact .inr rfl
  | refused isWritten misuses _ => exact .inl ⟨_, isWritten, _, misuses, rfl⟩

/-- Going through a list in steps of which each refuses calls and does nothing else. -/
theorem foldlM {item : Type} {step otherStep : α → item → Except CompileError α}
    {items : List item}
    (each : ∀ item ∈ items, ∀ state, OnlyRefuses written (step state item) (otherStep state item))
    (state : α) : OnlyRefuses written (items.foldlM step state) (items.foldlM otherStep state) := by
  induction items generalizing state with
  | nil => exact .ok state
  | cons item rest ih =>
    rw [List.foldlM_cons, List.foldlM_cons]
    refine (each item List.mem_cons_self state).bind fun later => ?_
    exact ih (fun item member => each item (List.mem_cons_of_mem _ member)) later

end OnlyRefuses

section

variable {written : CallSite → Prop} {options : Options} {params : List String}

/-! ## Expressions -/

theorem BinaryOp.lenient_tail (op : BinaryOp) : Lenient op.tail := by
  unfold tail
  split
  · exact .ok _
  · exact .error id

theorem BinaryOp.onlyRefuses_operands (op : BinaryOp)
    {left otherLeft right otherRight : Except CompileError (List Instr)}
    (ofLeft : OnlyRefuses written left otherLeft) (ofRight : OnlyRefuses written right otherRight) :
    OnlyRefuses written (op.operands left right) (op.operands otherLeft otherRight) := by
  unfold operands
  split
  · exact ofRight.bind fun _ => ofLeft.bind fun _ => .ok _
  · exact ofLeft.bind fun _ => ofRight.bind fun _ => .ok _

/-- The check itself: it refuses a call that misuses its primitive, and passes any other. -/
theorem Primitive.onlyRefuses_checkArity {func : String} {primitive : Primitive}
    (found : find? func = some primitive) {got : Nat} (isWritten : written ⟨func, got⟩) :
    OnlyRefuses written (primitive.checkArity (options.withArityCheck true) got)
      (primitive.checkArity (options.withArityCheck false) got) := by
  have unchecked : primitive.checkArity (options.withArityCheck false) got = .ok () := by
    simp [checkArity]
  rw [unchecked]
  by_cases matching : got = primitive.arity
  · have checked : primitive.checkArity (options.withArityCheck true) got = .ok () := by
      simp [checkArity, matching]
    rw [checked]
    exact .ok ()
  · have checked : primitive.checkArity (options.withArityCheck true) got =
        .error (.primitiveArity func primitive.arity got) := by
      simp [checkArity, matching, name_of_find? found]
    rw [checked]
    exact .refused isWritten ⟨found, matching⟩ (.ok ())

namespace Expr

theorem onlyRefuses_codes {exprs : List Expr}
    (each : ∀ expr ∈ exprs, (∀ site ∈ expr.calls, written site) →
      OnlyRefuses written (expr.code (options.withArityCheck true) params)
        (expr.code (options.withArityCheck false) params))
    (areWritten : ∀ site ∈ callsOfAll exprs, written site) :
    OnlyRefuses written (codes (options.withArityCheck true) params exprs)
      (codes (options.withArityCheck false) params exprs) := by
  induction exprs with
  | nil => exact .ok []
  | cons expr rest ih =>
    obtain ⟨ofHead, ofRest⟩ := List.forall_mem_cons.mp each
    obtain ⟨inHead, inRest⟩ := List.forall_mem_append.mp areWritten
    simp only [codes]
    exact (ofHead inHead).bind fun _ => (ih ofRest inRest).bind fun _ => .ok _

theorem onlyRefuses_code (expr : Expr) : (∀ site ∈ expr.calls, written site) →
    OnlyRefuses written (expr.code (options.withArityCheck true) params)
      (expr.code (options.withArityCheck false) params) := by
  induction expr using Expr.induct with
  | literal value =>
    intro _
    cases value with
    | int value => exact .ok _
    | text source => exact .ok _
  | ident name => exact fun _ => .ok _
  | binary op lhs rhs ihLeft ihRight =>
    intro areWritten
    obtain ⟨inLeft, inRight⟩ := List.forall_mem_append.mp areWritten
    simp only [code]
    refine OnlyRefuses.bind (.same op.lenient_tail) fun tail => ?_
    exact (op.onlyRefuses_operands (ihLeft inLeft) (ihRight inRight)).bind fun _ => .ok _
  | call func args ih =>
    intro areWritten
    obtain ⟨isWritten, inArgs⟩ := List.forall_mem_cons.mp areWritten
    cases found : Primitive.find? func with
    | some primitive =>
      simp only [code, found]
      -- a primitive is checked before its arguments are looked at
      refine (Primitive.onlyRefuses_checkArity found isWritten).bind fun _ => ?_
      exact (onlyRefuses_codes ih inArgs).bind fun _ => .ok _
    | none =>
      simp only [code, found]
      exact (onlyRefuses_codes ih inArgs).bind fun _ => .ok _
  | composite kind elems ih =>
    intro areWritten
    cases kind with
    | array =>
      simp only [code]
      exact (onlyRefuses_codes ih areWritten).bind fun _ => .ok _
    | struct name => exact .error id
    | map => exact .error id
  | paren inner ih =>
    intro areWritten
    simp only [code]
    exact ih areWritten

end Expr

/-! ## Statements -/

namespace Stmt

mutual

theorem onlyRefuses_code (block : String) (position : Nat) : ∀ stmt : Stmt,
    (∀ expr ∈ stmt.exprs, ∀ site ∈ expr.calls, written site) →
    OnlyRefuses written (stmt.code (options.withArityCheck true) params block position)
      (stmt.code (options.withArityCheck false) params block position)
  | .expr value, areWritten => by
    simp only [code]
    exact (value.onlyRefuses_code (areWritten value List.mem_cons_self)).bind fun _ => .ok _
  | .ifElse cond thenArm elseArm, areWritten => by
    obtain ⟨inCond, inArms⟩ := List.forall_mem_cons.mp areWritten
    obtain ⟨inThen, inElse⟩ := List.forall_mem_append.mp inArms
    simp only [code]
    refine (cond.onlyRefuses_code inCond).bind fun test => ?_
    refine (onlyRefuses_codes _ 0 thenArm inThen).bind fun _ => ?_
    exact (onlyRefuses_elseCode _ elseArm inElse).bind fun _ => .ok _
  | .ret _, _ => .error id
  | .assign _ _, _ => .error id
  | .loop _, _ => .error id

theorem onlyRefuses_codes (block : String) (position : Nat) : ∀ stmts : List Stmt,
    (∀ expr ∈ exprsOfAll stmts, ∀ site ∈ expr.calls, written site) →
    OnlyRefuses written (codes (options.withArityCheck true) params block position stmts)
      (codes (options.withArityCheck false) params block position stmts)
  | [], _ => .ok _
  | stmt :: rest, areWritten => by
    obtain ⟨inHead, inRest⟩ := List.forall_mem_append.mp areWritten
    simp only [codes]
    refine (onlyRefuses_code block position stmt inHead).bind fun head => ?_
    exact (onlyRefuses_codes block _ rest inRest).bind fun _ => .ok _

theorem onlyRefuses_elseCode (block : String) : ∀ arm : Option (List Stmt),
    (∀ expr ∈ exprsOfArm arm, ∀ site ∈ expr.calls, written site) →
    OnlyRefuses written (elseCode (options.withArityCheck true) params block arm)
      (elseCode (options.withArityCheck false) params block arm)
  | none, _ => .ok _
  | some stmts, areWritten => onlyRefuses_codes block 0 stmts areWritten

end

theorem onlyRefuses_returnCode : ∀ values : List Expr,
    (∀ expr ∈ values, ∀ site ∈ expr.calls, written site) →
    OnlyRefuses written (returnCode (options.withArityCheck true) params values)
      (returnCode (options.withArityCheck false) params values)
  | [], _ => .ok _
  | [value], areWritten =>
    (value.onlyRefuses_code (areWritten value List.mem_cons_self)).bind fun _ => .ok _
  | _ :: _ :: _, _ => .error id

theorem onlyRefuses_bodyCode (block : String) (position : Nat) (stmts : List Stmt)
    (areWritten : ∀ expr ∈ exprsOfAll stmts, ∀ site ∈ expr.calls, written site) :
    OnlyRefuses written (bodyCode (options.withArityCheck true) params block position stmts)
      (bodyCode (options.withArityCheck false) params block position stmts) := by
  fun_induction bodyCode (options.withArityCheck true) params block position stmts with
  | case1 position => exact .ok _
  | case2 position values =>
    refine onlyRefuses_returnCode values fun expr member => areWritten expr ?_
    exact List.mem_append_left _ member
  | case3 position stmt rest notReturn ih =>
    obtain ⟨inHead, inRest⟩ := List.forall_mem_append.mp areWritten
    rw [bodyCode.eq_3 _ _ _ _ _ _ notReturn]
    refine (onlyRefuses_code block position stmt inHead).bind fun head => ?_
    exact (ih head inRest).bind fun _ => .ok _

end Stmt

theorem FunctionDecl.onlyRefuses_code (decl : FunctionDecl)
    (areWritten : ∀ expr ∈ Stmt.exprsOfAll decl.body, ∀ site ∈ expr.calls, written site) :
    OnlyRefuses written (decl.code (options.withArityCheck true))
      (decl.code (options.withArityCheck false)) :=
  (Stmt.onlyRefuses_bodyCode decl.name 0 decl.body areWritten).bind fun _ => .ok _

/-! ## Declarations -/

namespace ObjectProgram

theorem lenient_requireFresh (object : ObjectProgram) (name : String) :
    Lenient (object.requireFresh name) := by
  unfold requireFresh
  split
  · exact .error id
  · exact .ok _

theorem lenient_addConst (object : ObjectProgram) (name : String) (body : List Instr) :
    Lenient (object.addConst name body) := by
  unfold addConst
  split
  · exact .error id
  · exact .ok _

theorem onlyRefuses_declareConsts (object : ObjectProgram) (group : ConstGroup)
    (areWritten : ∀ definition ∈ group.definitions, ∀ site ∈ definition.2.calls, written site) :
    OnlyRefuses written (object.declareConsts (options.withArityCheck true) group)
      (object.declareConsts (options.withArityCheck false) group) := by
  unfold ConstGroup.definitions at areWritten
  unfold declareConsts
  cases isValue : group.values with
  | ordinals =>
    exact .foldlM (fun _ _ program => .same (program.lenient_addConst _ _)) object
  | exprs values =>
    rw [isValue] at areWritten
    by_cases balanced : values.length = group.names.length
    · simp only [if_pos balanced]
      refine .foldlM (fun definition member program => ?_) object
      exact (definition.2.onlyRefuses_code (areWritten definition member)).bind fun _ =>
        .same (program.lenient_addConst _ _)
    · simp only [if_neg balanced]
      exact .error id

end ObjectProgram

/-! ## Programs -/

theorem Program.onlyRefuses_object (program : Program) :
    OnlyRefuses (· ∈ program.calls) (program.object (options.withArityCheck true))
      (program.object (options.withArityCheck false)) := by
  have areWritten : ∀ expr ∈ program.exprs, ∀ site ∈ expr.calls, site ∈ program.calls :=
    fun expr isExpr site isCall => List.mem_flatMap.mpr ⟨expr, isExpr, isCall⟩
  refine .foldlM (fun decl isDecl object => ?_) _
  cases decl with
  | function decl =>
    have isFunction : decl ∈ program.functions := List.mem_filterMap.mpr ⟨_, isDecl, rfl⟩
    refine OnlyRefuses.bind (.same (object.lenient_requireFresh decl.name)) fun _ => ?_
    refine (decl.onlyRefuses_code fun expr inBody => areWritten expr ?_).bind fun _ => .ok _
    exact List.mem_append_left _ (List.mem_flatMap.mpr ⟨decl, isFunction, inBody⟩)
  | consts group =>
    refine object.onlyRefuses_declareConsts group fun definition isDefinition =>
      areWritten definition.2 ?_
    have isConstant : definition ∈ program.constants :=
      List.mem_flatMap.mpr ⟨_, isDecl, isDefinition⟩
    exact List.mem_append_right _ (List.mem_map_of_mem isConstant)

/-- Linking does not look at arities. -/
theorem ObjectProgram.link_withArityCheck (object : ObjectProgram) (checkArity : Bool) :
    object.link (options.withArityCheck checkArity) = object.link options := rfl

theorem onlyRefuses_compile (options : Options) (program : Program) :
    OnlyRefuses (· ∈ program.calls) (compile (options.withArityCheck true) program)
      (compile (options.withArityCheck false) program) := by
  refine program.onlyRefuses_object.bind fun object => ?_
  rw [object.link_withArityCheck, object.link_withArityCheck]
  exact .same ((object.reports_link options).mono fun _ isLinkFault => isLinkFault.not_isArityFault)

end

/-- The check misses nothing: what is generated with it misuses no primitive. -/
theorem Program.respectsArities_of_object {options : Options} (checks : options.checkArity = true)
    {program : Program} {object : ObjectProgram} (generated : program.object options = .ok object) :
    program.RespectsArities := by
  intro site isCall primitive misuses
  obtain ⟨expr, isExpr, inExpr⟩ := List.mem_flatMap.mp isCall
  obtain ⟨params, code, compiled⟩ := Program.exists_code_of_object generated expr isExpr
  exact misuses.arity (expr.arity_of_code checks compiled site inExpr primitive misuses.found)

/-- The check of arities does nothing but refuse calls. A compilation with the check and one without
it that have all other options in common either end alike, in the same listing or the same report,
or the one with the check refuses a call that the program contains, of a primitive, with a number of
arguments that the primitive does not take. Without the check nothing is ever refused for its
arity. Both always end alike where each primitive gets as many arguments as it takes, and only such
a program has a listing with the check. -/
theorem arityCheck_only_refuses (options : Options) (program : Program) :
    ((∃ site ∈ program.calls, ∃ primitive, site.Misuses primitive ∧
        compile (options.withArityCheck true) program =
          .error (.primitiveArity site.func primitive.arity site.argCount)) ∨
      compile (options.withArityCheck true) program =
        compile (options.withArityCheck false) program) ∧
    (∀ name expected got, compile (options.withArityCheck false) program ≠
      .error (.primitiveArity name expected got)) ∧
    (program.RespectsArities → compile (options.withArityCheck true) program =
      compile (options.withArityCheck false) program) ∧
    ∀ listing, compile (options.withArityCheck true) program = .ok listing →
      program.RespectsArities := by
  have refuses := onlyRefuses_compile options program
  have outcome := refuses.refused_or_same
  refine ⟨outcome, fun name expected got failed => ?_, fun respects => ?_,
    fun listing compiled => ?_⟩
  · exact refuses.lenient _ failed trivial
  · rcases outcome with ⟨site, isCall, primitive, misuses, -⟩ | same
    · exact absurd misuses (respects site isCall primitive)
    · exact same
  · obtain ⟨object, generated, -⟩ := bind_eq_ok.mp compiled
    exact Program.respectsArities_of_object rfl generated

/-- The second component of a pair before the first. -/
def swapPair : Program where
  name := "swap"
  decls := [
    .function ⟨"main", ["pair"], [
      .ret [.call "CONS" [.call "CDR" [.ident "pair"], .call "CAR" [.ident "pair"]]]]⟩]

/-- A call that lacks its argument and an operator that has no code. The right operand of `<` is
compiled first, so the call is what is reported with the check, and the operator without it. -/
def twoFaults : Program where
  name := "faults"
  decls := [
    .function ⟨"main", [], [
      .expr (.binary .lt (.binary .rem (.int 1) (.int 2)) (.call "CAR" []))]⟩]

theorem arityCheck_only_refuses_swapPair :
    (swapPair.RespectsArities ∧ ∃ listing,
      compile {} swapPair = .ok listing ∧ compile { checkArity := false } swapPair = .ok listing) ∧
    (∃ site ∈ twoFaults.calls, ∃ primitive, site.Misuses primitive ∧
      compile {} twoFaults = .error (.primitiveArity site.func primitive.arity site.argCount)) ∧
    compile { checkArity := false } twoFaults =
      .error (.unsupportedWithHint "operator %"
        "the machine has no instruction for this operator") := by
  have unchecked : compile { checkArity := false } twoFaults =
      .error (.unsupportedWithHint "operator %"
        "the machine has no instruction for this operator") := by
    decide
  refine ⟨?_, ?_, unchecked⟩
  · obtain ⟨-, -, alike, respects⟩ := arityCheck_only_refuses {} swapPair
    obtain ⟨listing, compiled, -⟩ :=
      exists_ok_of_any (compile {} swapPair) (fun _ => true) (by decide)
    have proper := respects listing compiled
    exact ⟨proper, listing, compiled, (alike proper).symm.trans compiled⟩
  · rcases (arityCheck_only_refuses {} twoFaults).1 with refused | same
    · exact refused
    · have differ : compile {} twoFaults ≠ compile { checkArity := false } twoFaults := by decide
      exact absurd same differ

end Secd
