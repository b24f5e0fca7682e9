import Secd.Proofs.Evaluation

namespace Secd

open Results

/-! # Code of expressions on a stack

The code of an expression refers to variables, constants and functions by name. A machine that is
told the values of names and the results of calls can run it before it is linked. All that such a
machine has is a stack (`StackMachine`), and every instruction takes its operands from the top of
it, so the code of a part of an expression does the same on whatever lies below.

Code therefore pushes the value of its expression on any stack, and stops exactly if there is no
value (`StackMachine.Pushes`). This is shown for what follows the operands of each kind of
expression (`run_tail`, `run_primitive`, `run_applyNamed`, `run_chainElements`), and then for whole
expressions.
-/

/-! ## The machine -/

/-- A machine with the values of names and the results of calls, of which there may be none. -/
structure StackMachine (φ : Type) where
  alu : Alu
  env : String → Option (Value φ)
  apply : φ → List (Value φ) → Option (Value φ)

namespace StackMachine

variable {φ : Type}

/-- What a call gives; only functions can be called. -/
def callValue (machine : StackMachine φ) : Value φ → List (Value φ) → Option (Value φ)
  | .function code, args => machine.apply code args
  | _, _ => none

/-- Calls what lies on top of the stack. The arguments are below it, the last one on top of the
others. -/
def callTop (machine : StackMachine φ) (count : Nat) : List (Value φ) → Option (List (Value φ))
  | [] => none
  | callee :: rest =>
    if count ≤ rest.length then
      (machine.callValue callee (rest.take count).reverse).map (· :: rest.drop count)
    else none

/-- Carries out one instruction. -/
def step (machine : StackMachine φ) (stack : List (Value φ)) (instr : Instr) :
    Option (List (Value φ)) :=
  match instr.opcode, instr.args with
  | .ldc, [.int value] => some (.int value :: stack)
  | .ldc, [.text source] => some (.text source :: stack)
  | .ld, [.name name] => (machine.env name).map (· :: stack)
  | .ldf, [.name name] => (machine.env name).map (· :: stack)
  | .ap, [count] => do
    let count ← count.index?
    machine.callTop count stack
  | opcode, [] => opcode.compute machine.alu stack
  | _, _ => none

/-- Carries out instructions one after the other. -/
def run (machine : StackMachine φ) (code : List Instr) (stack : List (Value φ)) :
    Option (List (Value φ)) :=
  code.foldlM machine.step stack

/-- Code that pushes a value on any stack, or stops where there is none. -/
def Pushes (machine : StackMachine φ) (code : List Instr) (value : Option (Value φ)) : Prop :=
  ∀ stack, machine.run code stack = value.map (· :: stack)

/-! ## Values of expressions -/

/-- Names and calls mean what the machine is told. -/
def meaning (machine : StackMachine φ) : Meaning φ where
  alu := machine.alu
  name name := .ofOption (machine.env name)
  callee name := .ofOption (machine.env name)
  apply callee args := .ofOption (machine.callValue callee args)

/-- The value of an expression; there is none where evaluation goes wrong. -/
def value (machine : StackMachine φ) (expr : Expr) : Option (Value φ) :=
  (expr.eval machine.meaning).toOption

end StackMachine

@[simp] theorem Outcome.toOption_ofOption {α : Type} (content : Option α) :
    (Outcome.ofOption content).toOption = content := by
  cases content <;> rfl

namespace StackMachine

variable {φ : Type} {machine : StackMachine φ}

@[simp] theorem meaning_alu : machine.meaning.alu = machine.alu := rfl

@[simp] theorem meaning_name (name : String) :
    machine.meaning.name name = .ofOption (machine.env name) := rfl

@[simp] theorem meaning_callee (name : String) :
    machine.meaning.callee name = .ofOption (machine.env name) := rfl

@[simp] theorem meaning_apply (callee : Value φ) (args : List (Value φ)) :
    machine.meaning.apply callee args = .ofOption (machine.callValue callee args) := rfl

theorem toOption_evalAll (exprs : List Expr) :
    (Expr.evalAll machine.meaning exprs).toOption = exprs.mapM machine.value := by
  induction exprs with
  | nil => rfl
  | cons expr rest ih =>
    simp only [Expr.evalAll, toOption_bind, ih, List.mapM_cons]
    rfl

theorem length_of_values {exprs : List Expr} {values : List (Value φ)}
    (valued : exprs.mapM machine.value = some values) : values.length = exprs.length := by
  rw [← toOption_evalAll] at valued
  cases evaluated : Expr.evalAll machine.meaning exprs with
  | error halt =>
    rw [evaluated] at valued
    cases valued
  | ok results =>
    rw [evaluated] at valued
    cases valued
    exact Expr.length_of_evalAll evaluated

theorem value_ident (name : String) : machine.value (.ident name) = machine.env name := by
  simp [value, Expr.eval]

/-- In which order operands are evaluated makes no difference. -/
theorem value_binary (op : BinaryOp) (lhs rhs : Expr) :
    machine.value (.binary op lhs rhs) = (machine.value lhs).bind fun left =>
      (machine.value rhs).bind fun right => Value.combine (op.onInts machine.alu) left right := by
  cases swaps : op.swapsOperands with
  | false => simp [value, Expr.eval, swaps]
  | true => simp [value, Expr.eval, swaps, Option.bind_comm (rhs.eval machine.meaning).toOption]

theorem value_primitive {func : String} {primitive : Primitive}
    (found : Primitive.find? func = some primitive) (args : List Expr) :
    machine.value (.call func args) = (args.mapM machine.value).bind primitive.result := by
  simp [value, Expr.eval, found, toOption_evalAll]

theorem value_call {func : String} (absent : Primitive.find? func = none) (args : List Expr) :
    machine.value (.call func args) = (args.mapM machine.value).bind fun values =>
      (machine.env func).bind fun callee => machine.callValue callee values := by
  simp [value, Expr.eval, absent, toOption_evalAll]

theorem value_list (elems : List Expr) :
    machine.value (.composite .array elems) = (elems.mapM machine.value).bind fun values =>
      some (Value.ofList values) := by
  simp only [value, Expr.eval, toOption_bind, toOption_evalAll]
  rfl

/-! ## Single instructions -/

theorem run_cons (instr : Instr) (code : List Instr) (stack : List (Value φ)) :
    machine.run (instr :: code) stack = (machine.step stack instr).bind (machine.run code) := rfl

theorem run_append (first second : List Instr) (stack : List (Value φ)) :
    machine.run (first ++ second) stack = (machine.run first stack).bind (machine.run second) := by
  rw [run, List.foldlM_append]
  rfl

@[simp] theorem run_singleton (instr : Instr) (stack : List (Value φ)) :
    machine.run [instr] stack = machine.step stack instr := by
  rw [run_cons]
  cases machine.step stack instr <;> rfl

theorem step_plain (opcode : Opcode) (stack : List (Value φ)) :
    machine.step stack (.plain opcode) = opcode.compute machine.alu stack := by
  cases opcode <;> rfl

/-! ## What follows the operands -/

theorem onWords_operands (operation : Int64 → Int64 → Option Int64) (left right : Value φ)
    (rest : List (Value φ)) :
    onWords operation (right :: left :: rest) =
      (Value.combine operation left right).map (· :: rest) := by
  simpa using onWords_eq_combine (f := id) operation left right rest

/-- The machine has no inequality: the operands are compared, and the result with zero. -/
theorem run_notEq (left right : Value φ) (rest : List (Value φ)) :
    machine.run [.plain .ceq, .ldc 0, .plain .ceq] (right :: left :: rest) =
      (Value.combine (BinaryOp.onInts machine.alu .notEq) left right).map (· :: rest) := by
  have compared : machine.step (right :: left :: rest) (.plain .ceq) =
      (Value.combine (BinaryOp.onInts machine.alu .eq) left right).map (· :: rest) :=
    onWords_operands _ left right rest
  have negated (answer : Bool) :
      machine.run [.ldc 0, .plain .ceq] (.int (truthWord answer) :: rest) =
        some (.int (truthWord !answer) :: rest) := by
    rw [← truthWord_beq_zero]
    rfl
  rw [run_cons, compared]
  -- anything but two words stops the first comparison already
  cases left with
  | int left =>
    cases right with
    | int right => exact negated (left == right)
    | _ => rfl
  | _ => cases right <;> rfl

/-- An operator finds its operands on top of the stack in the order in which they were pushed. -/
theorem run_tail {op : BinaryOp} {tail : List Instr} (known : op.tail? = some tail)
    (left right : Value φ) (rest : List (Value φ)) :
    machine.run tail (if op.swapsOperands then left :: right :: rest else right :: left :: rest) =
      (Value.combine (op.onInts machine.alu) left right).map (· :: rest) := by
  cases op <;> cases known
  case notEq => exact run_notEq left right rest
  -- the operands of these two lie the other way round
  case lt | ltEq =>
    rw [Value.combine_swap, run_singleton]
    exact onWords_operands _ right left rest
  all_goals
    rw [run_singleton]
    exact onWords_operands _ left right rest

theorem run_primitive {func : String} {primitive : Primitive}
    (found : Primitive.find? func = some primitive)
    (valued : primitive.opcode ≠ .brk ∧ primitive.opcode ≠ .dbug) {args : List (Value φ)}
    (arity : args.length = primitive.arity) (rest : List (Value φ)) :
    machine.run [.plain primitive.opcode] (args.reverse ++ rest) =
      (primitive.result args).map (· :: rest) := by
  rw [run_singleton, step_plain]
  simpa using Primitive.compute_eq (f := id) found valued arity rest

/-- Whether the callee is a parameter or not, it is loaded and called. -/
theorem run_applyNamed (params : List String) (func : String) {args : List (Value φ)}
    (small : args.length < 2 ^ 63) (rest : List (Value φ)) :
    machine.run (applyNamed params func args.length) (args.reverse ++ rest) =
      ((machine.env func).bind fun callee => machine.callValue callee args).map (· :: rest) := by
  have loaded : ∀ stack : List (Value φ),
      machine.step stack
          ((if func ∈ params then Instr.ld func else Instr.ldf func).commented func) =
        (machine.env func).map (· :: stack) := by
    intro stack
    split <;> rfl
  have called : ∀ callee : Value φ,
      machine.run [.ap args.length] (callee :: (args.reverse ++ rest)) =
        (machine.callValue callee args).map (· :: rest) := by
    intro callee
    simp [step, Instr.ap, Operand.index?_count small, callTop]
  rw [applyNamed, run_cons, loaded]
  cases machine.env func with
  | none => rfl
  | some callee => exact called callee

/-- Pairs are built from the top of the stack down. -/
theorem run_pairs (heads : List (Value φ)) (tail : Value φ) (rest : List (Value φ)) :
    machine.run (List.replicate heads.length (.plain .cons)) (tail :: (heads ++ rest)) =
      some (heads.foldl (fun built head => .pair head built) tail :: rest) := by
  induction heads generalizing tail with
  | nil => rfl
  | cons head heads ih => exact ih (.pair head tail)

theorem run_chainElements (values rest : List (Value φ)) :
    machine.run (chainElements values.length) (values.reverse ++ rest) =
      some (Value.ofList values :: rest) := by
  -- the last element lies on top and ends the chain as it is
  rcases List.eq_nil_or_concat values with rfl | ⟨heads, last, rfl⟩
  · rfl
  · have pairs := machine.run_pairs heads.reverse last rest
    rw [List.length_reverse, List.foldl_reverse] at pairs
    simpa [chainElements, Value.ofList_concat] using pairs

/-! ## Expressions -/

/-- Expressions one after the other push their values, the last one on top. -/
theorem run_codes {options : Options} {params : List String} {exprs : List Expr}
    (each : ∀ expr ∈ exprs, ∀ {code : List Instr}, expr.code options params = .ok code →
      machine.Pushes code (machine.value expr))
    {code : List Instr} (compiled : Expr.codes options params exprs = .ok code)
    (stack : List (Value φ)) :
    machine.run code stack = (exprs.mapM machine.value).map (·.reverse ++ stack) := by
  induction exprs generalizing code stack with
  | nil =>
    cases compiled
    rfl
  | cons expr rest ih =>
    obtain ⟨head, headOk, tail, tailOk, rfl⟩ := by
      simpa only [Expr.codes, bind_eq_ok, pure_eq_ok] using compiled
    have ofRest := ih (fun other member => each other (List.mem_cons_of_mem _ member)) tailOk
    rw [run_append, each expr List.mem_cons_self headOk, List.mapM_cons]
    cases machine.value expr with
    | none => rfl
    | some value =>
      show machine.run tail (value :: stack) = _
      rw [ofRest]
      cases rest.mapM machine.value with
      | none => rfl
      | some values => simp

/-- What is done with the values of some expressions follows their code. -/
theorem run_codes_append {options : Options} {params : List String} {exprs : List Expr}
    (each : ∀ expr ∈ exprs, ∀ {code : List Instr}, expr.code options params = .ok code →
      machine.Pushes code (machine.value expr))
    {code more : List Instr} (compiled : Expr.codes options params exprs = .ok code)
    {result : List (Value φ) → Option (Value φ)} (stack : List (Value φ))
    (later : ∀ values : List (Value φ), values.length = exprs.length →
      machine.run more (values.reverse ++ stack) = (result values).map (· :: stack)) :
    machine.run (code ++ more) stack =
      ((exprs.mapM machine.value).bind result).map (· :: stack) := by
  rw [run_append, run_codes each compiled]
  cases valued : exprs.mapM machine.value with
  | none => rfl
  | some values => exact later values (length_of_values valued)

theorem run_two {first second : List Instr} {below above : Option (Value φ)}
    (ofFirst : machine.Pushes first below) (ofSecond : machine.Pushes second above)
    (stack : List (Value φ)) :
    machine.run (first ++ second) stack =
      below.bind fun lower => above.map fun upper => upper :: lower :: stack := by
  rw [run_append, ofFirst]
  cases below with
  | none => rfl
  | some lower => exact ofSecond (lower :: stack)

/-- Both operands of an operator, in the order in which it takes them. -/
theorem run_operands (op : BinaryOp) {lhs rhs : Expr} {left right : List Instr}
    (ofLeft : machine.Pushes left (machine.value lhs))
    (ofRight : machine.Pushes right (machine.value rhs)) (stack : List (Value φ)) :
    machine.run (if op.swapsOperands then right ++ left else left ++ right) stack =
      (machine.value lhs).bind fun first => (machine.value rhs).map fun second =>
        if op.swapsOperands then first :: second :: stack else second :: first :: stack := by
  cases op.swapsOperands with
  | false => exact run_two ofLeft ofRight stack
  | true =>
    refine (run_two ofRight ofLeft stack).trans ?_
    cases machine.value lhs <;> cases machine.value rhs <;> rfl

end StackMachine

/-- A call that leaves one value: not of a primitive that has none, and with so many arguments that
a signed machine word can count them. -/
structure CallSite.Valued (site : CallSite) : Prop where
  counted : site.argCount < 2 ^ 63
  noBreak : site.func ≠ "BRK"
  noDebug : site.func ≠ "DBUG"

/-- The code of an expression pushes its value on any stack, and stops exactly if there is none. -/
theorem StackMachine.run_code {φ : Type} {options : Options} (checks : options.checkArity = true)
    {params : List String} {expr : Expr} {code : List Instr}
    (compiled : expr.code options params = .ok code)
    (valued : ∀ site ∈ expr.calls, site.Valued) (machine : StackMachine φ)
    (stack : List (Value φ)) :
    machine.run code stack = (machine.value expr).map (· :: stack) := by
  -- the stack changes from part to part, so the induction is for all stacks
  induction expr using Expr.induct generalizing code stack with
  | literal value => cases value <;> cases compiled <;> rfl
  | ident name =>
    cases compiled
    rw [run_singleton, value_ident]
    rfl
  | binary op lhs rhs ihLeft ihRight =>
    obtain ⟨tail, left, right, known, leftOk, rightOk, rfl⟩ := Expr.code_binary_eq_ok.mp compiled
    have ofLeft := ihLeft leftOk fun site isCall => valued site (List.mem_append_left _ isCall)
    have ofRight := ihRight rightOk fun site isCall => valued site (List.mem_append_right _ isCall)
    rw [value_binary, run_append, run_operands op ofLeft ofRight]
    cases machine.value lhs with
    | none => rfl
    | some left =>
      cases machine.value rhs with
      | none => rfl
      | some right => exact run_tail known left right stack
  | call func args ih =>
    have isCall : (⟨func, args.length⟩ : CallSite) ∈ (Expr.call func args).calls :=
      List.mem_cons_self
    have each : ∀ arg ∈ args, ∀ {code : List Instr}, arg.code options params = .ok code →
        machine.Pushes code (machine.value arg) :=
      fun arg isArg _ argOk => ih arg isArg argOk fun site inArg =>
        valued site (List.mem_cons_of_mem _ (Expr.mem_callsOfAll.mpr ⟨arg, isArg, inArg⟩))
    obtain ⟨argCode, argsOk, ⟨primitive, found, arity, rfl⟩ | ⟨absent, rfl⟩⟩ :=
      Expr.code_call_eq_ok compiled
    · have hasValue : primitive.opcode ≠ .brk ∧ primitive.opcode ≠ .dbug :=
        ⟨Primitive.opcode_ne_of_find? found (valued _ isCall).noBreak,
          Primitive.opcode_ne_of_find? found (valued _ isCall).noDebug⟩
      rw [value_primitive found]
      refine run_codes_append each argsOk stack fun values sameLength => ?_
      exact run_primitive found hasValue (sameLength.trans (arity checks)) stack
    · rw [value_call absent]
      refine run_codes_append each argsOk stack fun values sameLength => ?_
      rw [← sameLength]
      exact run_applyNamed params func (sameLength ▸ (valued _ isCall).counted) stack
  | composite kind elems ih =>
    obtain ⟨rfl, elemCode, elemsOk, rfl⟩ := Expr.code_composite_eq_ok compiled
    have each : ∀ elem ∈ elems, ∀ {code : List Instr}, elem.code options params = .ok code →
        machine.Pushes code (machine.value elem) :=
      fun elem isElem _ elemOk => ih elem isElem elemOk fun site inElem =>
        valued site (Expr.mem_callsOfAll.mpr ⟨elem, isElem, inElem⟩)
    rw [value_list]
    refine run_codes_append each elemsOk stack fun values sameLength => ?_
    rw [← sameLength]
    exact run_chainElements values stack
  | paren inner ih => exact ih compiled valued stack

/-- A machine with a number and a function that subtracts. -/
def subtractor : StackMachine String where
  alu := .wrapping
  env
    | "x" => some (.int 3)
    | "minus" => some (.function "minus")
    | _ => none
  apply
    | "minus", [.int left, .int right] => some (.int (left - right))
    | _, _ => none

/-- The list `[x <= 2, x != 4, minus(10, x)]`. -/
def figures : Expr := .list [
  .binary .ltEq (.ident "x") (.int 2),
  .binary .notEq (.ident "x") (.int 4),
  .call "minus" [.int 10, .ident "x"]]

theorem StackMachine.run_figures : ∃ code, figures.code {} ["minus"] = .ok code ∧
    subtractor.run code [.text "below"] =
      some [.pair (.int 0) (.pair (.int 1) (.int 7)), .text "below"] := by
  obtain ⟨code, compiled, -⟩ :=
    exists_ok_of_any (figures.code {} ["minus"]) (fun _ => true) (by decide)
  have valued : ∀ site ∈ figures.calls, site.Valued := by
    intro site isCall
    rw [show figures.calls = [⟨"minus", 2⟩] from rfl, List.mem_singleton] at isCall
    rw [isCall]
    exact ⟨by decide, by decide, by decide⟩
  have valueOf : subtractor.value figures = some (.pair (.int 0) (.pair (.int 1) (.int 7))) := by
    decide
  refine ⟨code, compiled, ?_⟩
  rw [run_code rfl compiled valued, valueOf]
  rfl

end Secd
