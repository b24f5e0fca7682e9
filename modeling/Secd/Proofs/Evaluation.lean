import Secd.Proofs.Machine
import Secd.Proofs.Results
import Secd.Proofs.Source

namespace Secd

open Results

/-! # What programs mean

The value of a program whose functions are made of expressions and conditionals, read off the tree
without any code. Evaluation is strict: the arguments of a call come first, in the order in which
they are written, and then what is called. Operands come in reading order as well, except for `<`
and `<=`, whose right operand comes first.

A name means the nearest variable of that name, or else a constant. The expression of a constant is
evaluated where the constant stands: its identifiers are constants, and what it calls is a constant
or else a variable in reach there.

Evaluation gets a budget, which bounds how deep calls and constants are nested. What a program means
is what it gives for some budget.
-/

/-! ## Outcomes -/

/-- Why there is no value. -/
inductive Halt where
  /-- The program goes wrong. -/
  | fault
  /-- The budget does not suffice. -/
  | timeout
  deriving DecidableEq, Repr

abbrev Outcome := Except Halt

/-- Something that is there, or a fault. -/
def Outcome.ofOption {α : Type} : Option α → Outcome α
  | some value => .ok value
  | none => .error .fault

/-! ## Operators and primitives -/

section

variable {φ : Type}

/-- The result of an operator on words. -/
def BinaryOp.onInts (alu : Alu) (op : BinaryOp) (left right : Int64) : Option Int64 :=
  match op with
  | .add => alu.add left right
  | .sub => alu.sub left right
  | .mul => alu.mul left right
  | .div => alu.div left right
  | .eq => some (truthWord (left == right))
  | .notEq => some (truthWord (left != right))
  | .lt => some (truthWord (left < right))
  | .gt => some (truthWord (left > right))
  | .ltEq => some (truthWord (left ≤ right))
  | .gtEq => some (truthWord (left ≥ right))
  | .rem | .and | .or => none

/-- The result of an operation on words, of which other values are none. -/
def Value.combine (operation : Int64 → Int64 → Option Int64) : Value φ → Value φ → Option (Value φ)
  | .int left, .int right => (operation left right).map .int
  | _, _ => none

/-- The result of a primitive that has one. -/
def Primitive.result (primitive : Primitive) (args : List (Value φ)) : Option (Value φ) :=
  match primitive.opcode, args with
  | .atom, [value] => some (.int (truthWord !value.isPair))
  | .cons, [head, tail] => some (.pair head tail)
  | .car, [.pair head _] => some head
  | .cdr, [.pair _ tail] => some tail
  | _, _ => none

/-- A list as nested pairs; the last element stands for itself and the empty list is zero. -/
def Value.ofList : List (Value φ) → Value φ
  | [] => .int 0
  | [value] => value
  | head :: next :: rest => .pair head (ofList (next :: rest))

/-! ## Results of instructions

What instructions leave on the stack, where the operands may be images of values: `f` gives what
stands for functions on the machine.
-/

theorem onWords_eq_combine {ψ : Type} {f : φ → ψ} (operation : Int64 → Int64 → Option Int64)
    (left right : Value φ) (rest : List (Value ψ)) :
    onWords operation (right.map f :: left.map f :: rest) =
      (Value.combine operation left right).map fun value => value.map f :: rest := by
  cases left with
  | int left =>
    cases right with
    | int right =>
      simp only [onWords, Value.map, Value.combine]
      cases operation left right <;> rfl
    | _ => rfl
  | _ => cases right <;> rfl

theorem Value.combine_swap (operation : Int64 → Int64 → Option Int64) (left right : Value φ) :
    Value.combine operation left right =
      Value.combine (fun first second => operation second first) right left := by
  cases left <;> cases right <;> rfl

/-- Comparing a truth value with zero negates it. -/
theorem truthWord_beq_zero (holds : Bool) : truthWord (truthWord holds == 0) = truthWord !holds := by
  cases holds <;> rfl

theorem Value.ofList_concat (values : List (Value φ)) (last : Value φ) :
    Value.ofList (values ++ [last]) = values.foldr .pair last := by
  induction values with
  | nil => rfl
  | cons head rest ih =>
    rw [List.foldr_cons, ← ih]
    cases rest <;> rfl

/-- A primitive with as many arguments as it takes. -/
theorem Primitive.compute_eq {ψ : Type} {f : φ → ψ} {alu : Alu} {func : String}
    {primitive : Primitive} (found : Primitive.find? func = some primitive)
    (valued : primitive.opcode ≠ .brk ∧ primitive.opcode ≠ .dbug) {args : List (Value φ)}
    (arity : args.length = primitive.arity) (rest : List (Value ψ)) :
    primitive.opcode.compute alu ((args.map (Value.map f)).reverse ++ rest) =
      (primitive.result args).map fun value => value.map f :: rest := by
  have member := List.mem_of_find?_eq_some found
  simp only [Primitive.all, List.mem_cons, List.not_mem_nil, or_false] at member
  rcases member with rfl | rfl | rfl | rfl | rfl | rfl
  case inr.inr.inr.inl =>
    obtain ⟨head, tail, rfl⟩ := List.length_eq_two.mp arity
    rfl
  case inr.inr.inr.inr.inl => exact absurd rfl valued.1
  case inr.inr.inr.inr.inr => exact absurd rfl valued.2
  all_goals
    obtain ⟨value, rfl⟩ := List.length_eq_one_iff.mp arity
    cases value <;> rfl

/-! ## Variables -/

/-- The variables of a frame and the values they were given, of which there may be too few. -/
structure Bindings (φ : Type) where
  names : List String
  values : List (Value φ)

/-- The variables in reach, the nearest frame first. -/
abbrev Env (φ : Type) := List (Bindings φ)

namespace Env

/-- The variable of a name, which may lack a value. -/
def find? : Env φ → String → Option (Option (Value φ))
  | [], _ => none
  | frame :: outer, name =>
    match frame.names.idxOf? name with
    | some index => some frame.values[index]?
    | none => find? outer name

/-- The value of a variable, or what the name means if there is no such variable. -/
def read (env : Env φ) (otherwise : Outcome (Value φ)) (name : String) : Outcome (Value φ) :=
  match env.find? name with
  | some content => .ofOption content
  | none => otherwise

/-- The names in reach. -/
def scope (env : Env φ) : Scope := env.map Bindings.names

end Env

/-! ## Expressions -/

/-- What calls give. -/
abbrev Calls (φ : Type) := Value φ → List (Value φ) → Outcome (Value φ)

/-- What evaluation of an expression depends on: what names mean, as values and as what is called,
and what a call gives. -/
structure Meaning (φ : Type) where
  alu : Alu
  name : String → Outcome (Value φ)
  callee : String → Outcome (Value φ)
  apply : Calls φ

namespace Expr

mutual

def eval (meaning : Meaning φ) : Expr → Outcome (Value φ)
  | .literal (.int value) => .ok (.int value)
  | .literal (.text source) => .ok (.text source)
  | .ident name => meaning.name name
  | .binary op lhs rhs =>
    if op.swapsOperands then do
      let right ← rhs.eval meaning
      let left ← lhs.eval meaning
      .ofOption (Value.combine (op.onInts meaning.alu) left right)
    else do
      let left ← lhs.eval meaning
      let right ← rhs.eval meaning
      .ofOption (Value.combine (op.onInts meaning.alu) left right)
  | .call func args => do
    let values ← evalAll meaning args
    match Primitive.find? func with
    | some primitive => .ofOption (primitive.result values)
    | none => do
      let callee ← meaning.callee func
      meaning.apply callee values
  | .composite .array elems => do
    let values ← evalAll meaning elems
    return .ofList values
  | .composite _ _ => .error .fault
  | .paren inner => inner.eval meaning

def evalAll (meaning : Meaning φ) : List Expr → Outcome (List (Value φ))
  | [] => .ok []
  | expr :: rest => do
    let value ← expr.eval meaning
    let values ← evalAll meaning rest
    return value :: values

end

theorem length_of_evalAll {meaning : Meaning φ} : ∀ {exprs : List Expr} {values : List (Value φ)},
    evalAll meaning exprs = .ok values → values.length = exprs.length
  | [], _, evaluated => by
    cases evaluated
    rfl
  | expr :: rest, _, evaluated => by
    rw [evalAll] at evaluated
    obtain ⟨value, -, values, ofRest, rfl⟩ := by
      simpa only [bind_eq_ok, pure_eq_ok] using evaluated
    rw [List.length_cons, List.length_cons, length_of_evalAll ofRest]

end Expr

/-! ## Names -/

/-- Code of a function reads its variables; other names are constants. -/
def Meaning.inFunction (alu : Alu) (env : Env φ) (constant : String → Outcome (Value φ))
    (apply : Calls φ) : Meaning φ where
  alu
  name name := env.read (constant name) name
  callee name := env.read (constant name) name
  apply

/-- The expression of a constant reads constants. It can call variables that no constant hides. -/
def Meaning.inConstant (alu : Alu) (definitions : List (String × Expr)) (env : Env φ)
    (constant : String → Outcome (Value φ)) (apply : Calls φ) : Meaning φ where
  alu
  name := constant
  callee name :=
    if (definitions.lookup name).isSome then constant name else env.read (.error .fault) name
  apply

/-- The value of a constant where `env` is in reach; constants may be nested up to a limit. -/
def constantValue (alu : Alu) (definitions : List (String × Expr)) (env : Env φ) (apply : Calls φ) :
    Nat → String → Outcome (Value φ)
  | 0, _ => .error .timeout
  | limit + 1, name =>
    match definitions.lookup name with
    | some value => value.eval
        (.inConstant alu definitions env (constantValue alu definitions env apply limit) apply)
    | none => .error .fault

/-! ## Statements -/

namespace Stmt

mutual

def eval (meaning : Meaning φ) : Stmt → Outcome (Value φ)
  | .expr value => value.eval meaning
  | .ret [value] => value.eval meaning
  | .ifElse cond thenArm elseArm => do
    let condition ← cond.eval meaning
    match condition with
    | .int word => if word = 0 then evalArm meaning elseArm else evalBody meaning thenArm
    | _ => .error .fault
  | _ => .error .fault

/-- The value of a body or of an arm, which is a single statement. -/
def evalBody (meaning : Meaning φ) : List Stmt → Outcome (Value φ)
  | [] => .error .fault
  | stmt :: rest => if rest.isEmpty then stmt.eval meaning else .error .fault

def evalArm (meaning : Meaning φ) : Option (List Stmt) → Outcome (Value φ)
  | none => .error .fault
  | some stmts => evalBody meaning stmts

end

/-- A body or an arm that is an expression, a return of one value or a conditional with two such
arms. -/
inductive Single : List Stmt → Prop where
  | expr (value : Expr) : Single [.expr value]
  | ret (value : Expr) : Single [.ret [value]]
  | ifElse (cond : Expr) {thenArm elseArm : List Stmt} (thenSingle : Single thenArm)
      (elseSingle : Single elseArm) : Single [.ifElse cond thenArm (some elseArm)]

end Stmt

end

/-! ## Functions and programs -/

/-- A function that can be a value: any but the entry function. -/
abbrev Callable (program : Program) (entry : String) :=
  { decl : FunctionDecl // decl ∈ functionsExcept program.functions entry }

/-- The variables outside of functions: the declared functions and the parameters of the entry
function, whose values come from the host. -/
def globals (program : Program) (entry : String) (main : FunctionDecl) (host : List HostValue) :
    Env (Callable program entry) :=
  [⟨declarations program.functions entry, (functionsExcept program.functions entry).attach.map .function⟩,
    ⟨main.params, host.map HostValue.embed⟩]

/-- The value of a body where `env` is in reach. -/
def bodyValue {φ : Type} (alu : Alu) (definitions : List (String × Expr)) (limit : Nat)
    (apply : Calls φ) (env : Env φ) (body : List Stmt) : Outcome (Value φ) :=
  Stmt.evalBody (.inFunction alu env (constantValue alu definitions env apply limit) apply) body

/-- What a call gives; calls may be nested up to a bound, and in each of them constants up to a
limit. -/
def applyValue (alu : Alu) (program : Program) (entry : String) (main : FunctionDecl)
    (host : List HostValue) (limit : Nat) : (calls : Nat) → Calls (Callable program entry)
  | 0, .function _, _ => .error .timeout
  | calls + 1, .function callee, args =>
    bodyValue alu program.constants limit (applyValue alu program entry main host limit calls)
      (⟨callee.val.params, args⟩ :: globals program entry main host) callee.val.body
  | _, _, _ => .error .fault

/-- The value of a program that the host calls with arguments for the entry function. -/
def Program.evaluate (alu : Alu) (program : Program) (entry : String) (host : List HostValue)
    (budget : Nat) : Outcome (Value (Callable program entry)) :=
  match program.functions.find? (·.name = entry) with
  | some main => bodyValue alu program.constants budget
      (applyValue alu program entry main host budget budget) (globals program entry main host) main.body
  | none => .error .fault

end Secd
