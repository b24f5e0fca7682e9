import Secd.Proofs.Simulation

namespace Secd

open Results

/-! # Correctness of compilation

For programs whose functions and arms are single statements, the listing does what the program means
(`compilation_correct`): it returns a value, stops or runs on exactly when evaluation of the program
gives that value, faults or needs more than any budget.

The simulation gives one direction for every budget, and a budget larger than the number of steps
gives the other, since the machine is deterministic.
-/

/-! ## Programs made of expressions -/

/-- Every function body and every arm is one statement, and every expression leaves one value: there
are no calls of the primitives that have none. The number of arguments of primitives counts only
where compilation does not check it. -/
structure Program.ExpressionBodied (options : Options) (program : Program) : Prop where
  bodies : ∀ decl ∈ program.functions, Stmt.Single decl.body
  valued : ∀ site ∈ program.calls, site.func ≠ "BRK" ∧ site.func ≠ "DBUG"
  arity : options.checkArity = false → ∀ site ∈ program.calls, ∀ primitive,
    Primitive.find? site.func = some primitive → site.argCount = primitive.arity

/-- Where the number of arguments is checked, it is right in what has code. -/
theorem Expr.arity_of_code {options : Options} (checks : options.checkArity = true)
    {params : List String} (expr : Expr) : ∀ {code : List Instr}, expr.code options params = .ok code →
      ∀ site ∈ expr.calls, ∀ primitive, Primitive.find? site.func = some primitive →
        site.argCount = primitive.arity := by
  induction expr using Expr.induct with
  | literal value => simp [Expr.calls]
  | ident name => simp [Expr.calls]
  | binary op lhs rhs ihLeft ihRight =>
    intro code compiled site isCall
    obtain ⟨-, left, right, -, leftOk, rightOk, -⟩ := code_binary_eq_ok.mp compiled
    rcases List.mem_append.mp isCall with inLeft | inRight
    · exact ihLeft leftOk site inLeft
    · exact ihRight rightOk site inRight
  | call func args ih =>
    intro code compiled site isCall primitive found
    obtain ⟨argCode, argsOk, shape⟩ := code_call_eq_ok compiled
    rcases List.mem_cons.mp isCall with rfl | inArgs
    · rcases shape with ⟨other, otherFound, arity, -⟩ | ⟨noPrimitive, -⟩
      · rw [found] at otherFound
        cases otherFound
        exact arity checks
      · rw [found] at noPrimitive
        cases noPrimitive
    · obtain ⟨arg, isArg, inArg⟩ := mem_callsOfAll.mp inArgs
      obtain ⟨parts, partCodes, -⟩ := codes_eq_ok.mp argsOk
      obtain ⟨part, -, partOk⟩ := exists_of_mem_left partCodes isArg
      exact ih arg isArg partOk site inArg primitive found
  | composite kind elems ih =>
    intro code compiled site isCall primitive found
    obtain ⟨-, elemCode, elemsOk, -⟩ := code_composite_eq_ok compiled
    obtain ⟨elem, isElem, inElem⟩ := mem_callsOfAll.mp isCall
    obtain ⟨parts, partCodes, -⟩ := codes_eq_ok.mp elemsOk
    obtain ⟨part, -, partOk⟩ := exists_of_mem_left partCodes isElem
    exact ih elem isElem partOk site inElem primitive found
  | paren inner ih => exact fun compiled => ih compiled

/-- Every expression of accepted statements has code. -/
theorem Yields.exists_code {options : Options} {params : List String} {block : String} {position : Nat}
    {stmts : List Stmt} {fragment : Fragment}
    (yields : Yields options params block position stmts fragment) :
    ∀ expr ∈ Stmt.exprsOfAll stmts, ∃ code, expr.code options params = .ok code := by
  induction yields with
  | nil => simp [Stmt.exprsOfAll]
  | expr compiled _ ih => exact List.forall_mem_cons.mpr ⟨⟨_, compiled⟩, ih⟩
  | ret compiled _ ih => exact List.forall_mem_cons.mpr ⟨⟨_, compiled⟩, ih⟩
  | retNothing _ ih => exact ih
  | ifElse compiled _ _ _ ihThen ihElse ihNext =>
    simp only [Stmt.exprsOfAll, Stmt.exprs, Stmt.exprsOfArm_eq, List.cons_append, List.append_assoc,
      List.forall_mem_cons, List.forall_mem_append]
    exact ⟨⟨_, compiled⟩, ihThen, ihElse, ihNext⟩

/-- Every expression of a generated program has code. -/
theorem Program.exists_code_of_object {options : Options} {program : Program}
    {object : ObjectProgram} (generated : program.object options = .ok object) :
    ∀ expr ∈ program.exprs, ∃ params code, expr.code options params = .ok code := by
  obtain ⟨functions, assembled⟩ := Program.assembled_of_object generated
  intro expr isExpr
  rcases List.mem_append.mp isExpr with inFunction | inConstant
  · obtain ⟨decl, isDecl, inBody⟩ := List.mem_flatMap.mp inFunction
    obtain ⟨function, isFunction, rfl⟩ : ∃ function ∈ functions, function.decl = decl := by
      rw [← assembled.decls] at isDecl
      exact List.mem_map.mp isDecl
    obtain ⟨body, yields, -⟩ := FunctionDecl.yields_of_code (assembled.code function isFunction)
    obtain ⟨code, exprOk⟩ := yields.exists_code expr inBody
    exact ⟨function.decl.params, code, exprOk⟩
  · obtain ⟨⟨name, value⟩, isDefinition, rfl⟩ := List.mem_map.mp inConstant
    obtain ⟨code, exprOk, -⟩ :=
      assembled.constants.present name value (assembled.lookup_of_mem isDefinition)
    exact ⟨[], code, exprOk⟩

/-- The calls in a compiled program of this kind are proper. -/
theorem Program.ExpressionBodied.proper {options : Options} {program : Program} {listing : Listing}
    (bodied : program.ExpressionBodied options) (countable : program.Countable)
    (compiled : compile options program = .ok listing) :
    (∀ decl ∈ program.functions, ∀ site ∈ Expr.callsOfAll (Stmt.exprsOfAll decl.body), site.Proper) ∧
      ∀ {name : String} {value : Expr}, program.constants.lookup name = some value →
        ∀ site ∈ value.calls, site.Proper := by
  obtain ⟨object, generated, -⟩ := bind_eq_ok.mp compiled
  have ofExpr : ∀ expr ∈ program.exprs, ∀ site ∈ expr.calls, site.Proper := by
    intro expr isExpr site isCall
    obtain ⟨params, code, exprOk⟩ := Program.exists_code_of_object generated expr isExpr
    have member : site ∈ program.calls := List.mem_flatMap.mpr ⟨expr, isExpr, isCall⟩
    obtain ⟨noBreak, noDebug⟩ := bodied.valued site member
    refine ⟨countable.args site member, fun {primitive} found => ?_, fun {primitive} found => ?_⟩
    · exact ⟨Primitive.opcode_ne_of_find? found noBreak, Primitive.opcode_ne_of_find? found noDebug⟩
    · cases checks : options.checkArity with
      | false => exact bodied.arity checks site member primitive found
      | true => exact Expr.arity_of_code checks expr exprOk site isCall primitive found
  constructor
  · intro decl isDecl site isCall
    obtain ⟨expr, inBody, inExpr⟩ := Expr.mem_callsOfAll.mp isCall
    exact ofExpr expr (List.mem_append_left _ (List.mem_flatMap.mpr ⟨decl, isDecl, inBody⟩)) site
      inExpr
  · intro name value defined
    obtain ⟨before, after, split, -⟩ := List.lookup_eq_some_iff.mp defined
    have isConstant : (name, value) ∈ program.constants := by simp [split]
    exact ofExpr value (List.mem_append_right _ (List.mem_map_of_mem (f := Prod.snd) isConstant))

/-! ## Functions -/

/-- The closure of a function, over the frame of the declarations. -/
def Listing.closureOf {program : Program} {entry : String} (listing : Listing)
    (callee : Callable program entry) : Closure where
  entry := (listing.offset? callee.val.name).getD 0
  env := 1

section

variable {options : Options} {program : Program} {listing : Listing} {main : Routine}
  {others : List Routine} {depth : Nat}

/-- A run of a listing, compared with the evaluation of its program. -/
def comparison (options : Options) (program : Program) (listing : Listing) (main : FunctionDecl)
    (depth : Nat) (alu : Alu) (host : List HostValue) (limit calls : Nat) :
    Comparison (Callable program options.entry) where
  closure := listing.closureOf
  alu
  code := listing.instructions
  starved := limit < depth
  calls
  home := globals program options.entry main host

/-- The body of a function delivers its value and returns. -/
theorem Image.delivers_body (image : Image options program listing main others depth)
    (countable : program.Countable) (bodied : program.ExpressionBodied options)
    (compiled : compile options program = .ok listing) {routine : Routine}
    (isRoutine : routine ∈ main :: others) {alu : Alu} {host : List HostValue} {limit calls : Nat}
    {apply : Calls (Callable program options.entry)}
    (applies : (comparison options program listing main.decl depth alu host limit calls).Applies apply)
    {env : Env (Callable program options.entry)}
    (isScope : env.scope = framesOf program.functions main.decl routine.decl) :
    ∃ code, routine.body.bare = code ++ [.plain .rtn] ∧
      (comparison options program listing main.decl depth alu host limit calls).Delivers env code
        (bodyValue alu program.constants limit apply env routine.decl.body) := by
  obtain ⟨code, bare, realises⟩ := (image.realised routine isRoutine).code
  obtain ⟨ofFunctions, ofConstants⟩ := bodied.proper countable compiled
  have isDecl := image.decl_mem isRoutine
  have addressable := countable.addressable image.isFunction isDecl
  rw [← isScope] at realises addressable
  refine ⟨code, bare, ?_⟩
  exact realises.delivers applies addressable ofConstants id
    (fun block isBlock => image.codeAt_block (image.mem_blocks isRoutine isBlock))
    (bodied.bodies _ isDecl) (ofFunctions _ isDecl)

/-- Only a function can be called. -/
theorem performs_call_of_no_function {φ : Type} {f : φ → Closure} {alu : Alu} {code : List Instr}
    {starved : Prop} {calls count : Nat} {state : State} {callee : Value φ} {rest : List (Value Closure)}
    {after : Value φ → State → Prop} (fetched : fetch code state.pc = some (.ap count))
    (isStack : state.stack = callee.map f :: rest) (noFunction : ∀ function, callee ≠ .function function) :
    Performs alu code starved calls state after (.error .fault) := by
  refine performs_fault fetched (by simp [Instr.ap, Instr.plain]) ?_
  have noCall : ∀ number, takeCall number state.stack = none := by
    intro number
    rw [isStack]
    cases callee with
    | function function => exact absurd rfl (noFunction function)
    | _ => rfl
  simp [execute, Instr.ap, noCall]

theorem Image.exists_routine_of_mem (image : Image options program listing main others depth)
    {decl : FunctionDecl} (member : decl ∈ functionsExcept program.functions options.entry) :
    ∃ routine ∈ others, routine.decl = decl := by
  rw [← image.decls] at member
  exact List.mem_map.mp member

/-- A call of a function does what its body gives. -/
theorem Image.performs_call (image : Image options program listing main others depth)
    (countable : program.Countable) (bodied : program.ExpressionBodied options)
    (compiled : compile options program = .ok listing) {alu : Alu} {host : List HostValue}
    {limit calls : Nat}
    {apply : Calls (Callable program options.entry)}
    (applies : (comparison options program listing main.decl depth alu host limit calls).Applies apply)
    (function : Callable program options.entry)
    {args : List (Value (Callable program options.entry))} {state : State}
    {rest : List (Value Closure)}
    (fetched : fetch listing.instructions state.pc = some (.ap args.length))
    (counted : args.length < 2 ^ 63)
    (isStack : state.stack = .function (listing.closureOf function) ::
      ((args.map (Value.map listing.closureOf)).reverse ++ rest))
    (represents : Represents listing.closureOf state.heap (some 1)
      (globals program options.entry main.decl host)) :
    Performs alu listing.instructions (limit < depth) (calls + 1) state
      (fun value last => ∃ extra, last = { state with
        pc := state.pc + 1
        stack := value.map listing.closureOf :: rest
        heap := state.heap ++ extra })
      (bodyValue alu program.constants limit apply
        (⟨function.val.params, args⟩ :: globals program options.entry main.decl host)
        function.val.body) := by
  obtain ⟨routine, isOther, isDecl⟩ := image.exists_routine_of_mem function.property
  have isRoutine : routine ∈ main :: others := List.mem_cons_of_mem _ isOther
  have isClosure : listing.closureOf function = ⟨routine.body.offset, 1⟩ := by
    rw [Listing.closureOf, ← isDecl, image.offset?_eq isRoutine]
    rfl
  -- the call enters the body in a frame of the arguments
  have taken : takeCall args.length state.stack =
      some (⟨routine.body.offset, 1⟩, args.map (Value.map listing.closureOf), rest) := by
    rw [takeCall_eq_some, isStack, isClosure]
    exact ⟨List.length_map _, rfl⟩
  let entered := state.call ⟨routine.body.offset, 1⟩ (args.map (Value.map listing.closureOf)) rest
  have enters : step alu listing.instructions state = some entered :=
    (step_of_fetch fetched).trans (execute_ap counted taken)
  let env : Env (Callable program options.entry) :=
    ⟨function.val.params, args⟩ :: globals program options.entry main.decl host
  have isScope : env.scope = framesOf program.functions main.decl routine.decl := by
    rw [framesOf, if_neg (image.name_ne_of_mem isOther), isDecl, declarations, image.isEntry]
    rfl
  have stands : Stands listing.closureOf (globals program options.entry main.decl host) env entered := by
    refine ⟨⟨_, _, rfl, ?_, represents.extend _⟩, represents.extend _⟩
    simp [entered, State.call]
  obtain ⟨code, bare, delivers⟩ := image.delivers_body countable bodied compiled isRoutine applies isScope
  have placed := image.codeAt_block (image.mem_blocks isRoutine List.mem_cons_self)
  rw [bare] at placed
  rw [isDecl] at delivers
  refine ((delivers.body entered rfl rfl placed stands).of_runs (.single enters)
    (Nat.le_of_eq (Nat.add_comm _ _))).imp fun value last isLast => ?_
  obtain ⟨extra, rfl⟩ := isLast
  exact ⟨_ :: extra, by simp only [entered, State.call, List.append_assoc]; rfl⟩

/-- Calls do what the evaluation of calls gives, however deep they may be nested. -/
theorem Image.applies (image : Image options program listing main others depth)
    (countable : program.Countable) (bodied : program.ExpressionBodied options)
    (compiled : compile options program = .ok listing) (alu : Alu) (host : List HostValue)
    (limit : Nat) : ∀ calls,
      (comparison options program listing main.decl depth alu host limit calls).Applies
        (applyValue alu program options.entry main.decl host limit calls)
  | 0 => by
    intro callee args state rest fetched counted isStack represents
    cases callee with
    | function function =>
      -- no call is left in the budget, and no step has to be shown for it
      exact .inr ⟨0, state, .refl state, Nat.le_refl 0⟩
    | _ => exact performs_call_of_no_function fetched isStack (by simp)
  | calls + 1 => by
    intro callee args state rest fetched counted isStack represents
    cases callee with
    | function function =>
      exact image.performs_call countable bodied compiled
        (image.applies countable bodied compiled alu host limit calls) function fetched counted isStack
        represents
    | _ => exact performs_call_of_no_function fetched isStack (by simp)

end

/-! ## Programs -/

section

variable {options : Options} {program : Program} {listing : Listing} {main : Routine}
  {others : List Routine} {depth : Nat}

theorem Image.find?_entry (image : Image options program listing main others depth) :
    program.functions.find? (·.name = options.entry) = some main.decl := by
  cases found : program.functions.find? (·.name = options.entry) with
  | none =>
    have absent := List.find?_eq_none.mp found main.decl image.isFunction
    simp [image.isEntry] at absent
  | some decl =>
    have named : decl.name = options.entry := by simpa using List.find?_some found
    rw [List.inj_on_of_nodup_map image.nodupFunctions (List.mem_of_find?_eq_some found) image.isFunction
      (named.trans image.isEntry.symm)]

/-- The closures of the functions that can be values, in the order of their declarations. -/
theorem Image.map_closureOf (image : Image options program listing main others depth) :
    (functionsExcept program.functions options.entry).attach.map
        (fun callee : Callable program options.entry => some (Value.function (listing.closureOf callee))) =
      (Frame.ofDeclarations (others.map (·.body.offset))).slots := by
  calc (functionsExcept program.functions options.entry).attach.map
        (fun callee : Callable program options.entry => some (Value.function (listing.closureOf callee)))
    _ = (functionsExcept program.functions options.entry).map fun decl =>
          some (Value.function ⟨(listing.offset? decl.name).getD 0, 1⟩) :=
      List.attach_map_val (f := fun decl : FunctionDecl =>
        some (Value.function (Closure.mk ((listing.offset? decl.name).getD 0) 1)))
    _ = others.map fun routine => some (Value.function ⟨routine.body.offset, 1⟩) := by
      rw [← image.decls, List.map_map]
      refine List.map_congr_left fun routine isOther => ?_
      simp [image.offset?_eq (List.mem_cons_of_mem _ isOther)]
    _ = (Frame.ofDeclarations (others.map (·.body.offset))).slots := by
      rw [Frame.ofDeclarations, List.map_map]
      rfl

/-- The frames that the preamble makes hold the variables outside of functions. -/
theorem Image.represents_globals (image : Image options program listing main others depth)
    (host : List HostValue) :
    Represents listing.closureOf
      [.ofHost host, .ofDeclarations (others.map (·.body.offset))] (some 1)
      (globals program options.entry main.decl host) := by
  refine ⟨1, some 0, rfl, ?_, 0, none, rfl, ?_, rfl⟩
  · rw [List.map_map]
    exact congrArg (fun slots => some (Frame.mk slots (some 0))) image.map_closureOf.symm
  · simp [Frame.ofHost, Value.map_embed]

/-- The machine does what the evaluation of the program says for a budget. -/
theorem Image.performs (image : Image options program listing main others depth)
    (countable : program.Countable) (bodied : program.ExpressionBodied options)
    (compiled : compile options program = .ok listing) (alu : Alu) (host : List HostValue)
    (budget : Nat) :
    Performs alu listing.instructions (budget < depth) budget (.initial host)
      (fun value last => last.Finished listing.instructions ∧
        last.stack = [value.map listing.closureOf])
      (program.evaluate alu options.entry host budget) := by
  rw [Program.evaluate, image.find?_entry]
  obtain ⟨start, -, enters, -⟩ := image.enters countable alu host
  have isScope : (globals program options.entry main.decl host).scope =
      framesOf program.functions main.decl main.decl := by
    rw [framesOf, if_pos rfl, image.isEntry]
    rfl
  obtain ⟨code, bare, delivers⟩ := image.delivers_body countable bodied compiled List.mem_cons_self
    (image.applies countable bodied compiled alu host budget budget) isScope
  have placed := image.codeAt_block (image.mem_blocks List.mem_cons_self List.mem_cons_self)
  rw [bare] at placed
  have represents := image.represents_globals host
  have stands : Stands listing.closureOf (globals program options.entry main.decl host)
      (globals program options.entry main.decl host)
      (.entered host main.body.offset (others.map (·.body.offset))) := ⟨represents, represents⟩
  -- the body of the entry function returns to the end of the preamble, where the run is finished
  have returned := delivers.body (.entered host main.body.offset
    (others.map fun routine : Routine => routine.body.offset)) rfl rfl placed stands
  refine (returned.of_runs enters (Nat.le_add_left _ _)).imp fun value last isLast => ?_
  obtain ⟨extra, rfl⟩ := isLast
  refine ⟨⟨?_, rfl⟩, rfl⟩
  have fetched := image.fetch_last
  rw [image.length_preamble] at fetched
  exact fetched

end

end Secd
