import Mathlib.Algebra.Group.Nat.Defs
import Secd.Scope
import Secd.Syntax

namespace Secd

/-! # What a program mentions

The names that a program reads and calls, the expressions in which they stand, and the constants
that it defines, all read off the tree alone. Conditions on programs are stated over these: that no
name of a function holds a dot, or that lists are no longer than a machine word can count.
-/

/-! ## Expressions -/

/-- Induction over expressions, with a hypothesis for every argument and every element. -/
theorem Expr.induct {motive : Expr → Prop} (literal : ∀ value, motive (.literal value))
    (ident : ∀ name, motive (.ident name))
    (binary : ∀ op lhs rhs, motive lhs → motive rhs → motive (.binary op lhs rhs))
    (call : ∀ func args, (∀ arg ∈ args, motive arg) → motive (.call func args))
    (composite : ∀ kind elems, (∀ elem ∈ elems, motive elem) → motive (.composite kind elems))
    (paren : ∀ inner, motive inner → motive (.paren inner)) : ∀ expr, motive expr
  | .literal value => literal value
  | .ident name => ident name
  | .binary op lhs rhs =>
    binary op lhs rhs (Expr.induct literal ident binary call composite paren lhs)
      (Expr.induct literal ident binary call composite paren rhs)
  | .call func args =>
    call func args fun arg _ => Expr.induct literal ident binary call composite paren arg
  | .composite kind elems =>
    composite kind elems fun elem _ => Expr.induct literal ident binary call composite paren elem
  | .paren inner => paren inner (Expr.induct literal ident binary call composite paren inner)

/-- A call as it is written: what is called, and with how many arguments. -/
structure CallSite where
  func : String
  argCount : Nat
  deriving DecidableEq, Repr

namespace Expr

mutual

/-- The identifiers that an expression reads. -/
def idents : Expr → List String
  | .literal _ => []
  | .ident name => [name]
  | .binary _ lhs rhs => lhs.idents ++ rhs.idents
  | .call _ args => identsOfAll args
  | .composite _ elems => identsOfAll elems
  | .paren inner => inner.idents

def identsOfAll : List Expr → List String
  | [] => []
  | expr :: rest => expr.idents ++ identsOfAll rest

end

mutual

/-- The calls in an expression, those in arguments included. -/
def calls : Expr → List CallSite
  | .literal _ => []
  | .ident _ => []
  | .binary _ lhs rhs => lhs.calls ++ rhs.calls
  | .call func args => ⟨func, args.length⟩ :: callsOfAll args
  | .composite _ elems => callsOfAll elems
  | .paren inner => inner.calls

def callsOfAll : List Expr → List CallSite
  | [] => []
  | expr :: rest => expr.calls ++ callsOfAll rest

end

theorem callsOfAll_append (first second : List Expr) :
    callsOfAll (first ++ second) = callsOfAll first ++ callsOfAll second := by
  induction first with
  | nil => rfl
  | cons expr rest ih => simp [callsOfAll, ih]

theorem mem_identsOfAll {exprs : List Expr} {name : String} :
    name ∈ identsOfAll exprs ↔ ∃ expr ∈ exprs, name ∈ expr.idents := by
  induction exprs with
  | nil => simp [identsOfAll]
  | cons expr rest ih => simp [identsOfAll, ih]

theorem mem_callsOfAll {exprs : List Expr} {site : CallSite} :
    site ∈ callsOfAll exprs ↔ ∃ expr ∈ exprs, site ∈ expr.calls := by
  induction exprs with
  | nil => simp [callsOfAll]
  | cons expr rest ih => simp [callsOfAll, ih]

end Expr

/-! ## Statements -/

namespace Stmt

mutual

/-- The expressions of a statement and of the arms in it. -/
def exprs : Stmt → List Expr
  | .expr value => [value]
  | .ifElse cond thenArm elseArm => cond :: (exprsOfAll thenArm ++ exprsOfArm elseArm)
  | .ret values => values
  | .assign _ values => values
  | .loop body => exprsOfAll body

def exprsOfAll : List Stmt → List Expr
  | [] => []
  | stmt :: rest => stmt.exprs ++ exprsOfAll rest

def exprsOfArm : Option (List Stmt) → List Expr
  | none => []
  | some stmts => exprsOfAll stmts

end

mutual

/-- The number of arms that a statement needs, nested ones included. -/
def armCount : Stmt → Nat
  | .ifElse _ thenArm elseArm => 2 + armCountOfAll thenArm + armCountOfArm elseArm
  | _ => 0

def armCountOfAll : List Stmt → Nat
  | [] => 0
  | stmt :: rest => stmt.armCount + armCountOfAll rest

def armCountOfArm : Option (List Stmt) → Nat
  | none => 0
  | some stmts => armCountOfAll stmts

end

/-- A conditional with the number of its first arm, counted over the arms of the function in the
order in which they are created. -/
structure Conditional where
  number : Nat
  cond : Expr
  thenArm : List Stmt
  elseArm : List Stmt

mutual

/-- The conditionals of a statement, nested ones included, when its first arm has number `next`. -/
def conditionals (next : Nat) : Stmt → List Conditional
  | .ifElse cond thenArm elseArm =>
    ⟨next, cond, thenArm, elseArm.getD []⟩ :: (conditionalsOfAll (next + 1) thenArm ++
      conditionalsOfArm (next + 1 + armCountOfAll thenArm + 1) elseArm)
  | _ => []

def conditionalsOfAll (next : Nat) : List Stmt → List Conditional
  | [] => []
  | stmt :: rest => stmt.conditionals next ++ conditionalsOfAll (next + stmt.armCount) rest

def conditionalsOfArm (next : Nat) : Option (List Stmt) → List Conditional
  | none => []
  | some stmts => conditionalsOfAll next stmts

end

end Stmt

/-! ## Declarations and programs -/

namespace ConstGroup

/-- The constants of a group with the expressions they stand for. -/
def definitions (group : ConstGroup) : List (String × Expr) :=
  match group.values with
  | .ordinals => group.names.zipIdx.map fun (name, ordinal) => (name, .int (Int64.ofNat ordinal))
  | .exprs values => group.names.zip values

end ConstGroup

namespace Program

/-- All constants in declaration order. -/
def constants (program : Program) : List (String × Expr) :=
  program.decls.flatMap fun
    | .function _ => []
    | .consts group => group.definitions

/-- Every expression of the program: in function bodies, in their arms and as the value of a
constant. -/
def exprs (program : Program) : List Expr :=
  program.functions.flatMap (Stmt.exprsOfAll ·.body) ++ program.constants.map Prod.snd

/-- Every call that is written in the program. -/
def calls (program : Program) : List CallSite := program.exprs.flatMap Expr.calls

end Program

/-! ## Names in reach -/

/-- The functions other than the one of a name, in declaration order. -/
def functionsExcept (functions : List FunctionDecl) (entry : String) : List FunctionDecl :=
  functions.filter (·.name ≠ entry)

/-- The slots of the frame of declarations. -/
def declarations (functions : List FunctionDecl) (entry : String) : List String :=
  (functionsExcept functions entry).map FunctionDecl.name

/-- The names in the frames that code of `decl` finds when `main` has been entered: the parameters
of `decl`, unless it is `main` itself, the declarations, and the parameters of `main`. -/
def framesOf (functions : List FunctionDecl) (main decl : FunctionDecl) : Scope :=
  let outer : Scope := [declarations functions main.name, main.params]
  if decl.name = main.name then outer else decl.params :: outer

/-! ## Conditions on programs -/

/-- A name without the character that separates the parts of an arm's name. -/
def DotFree (name : String) : Prop := '.' ∉ name.toList

instance (name : String) : Decidable (DotFree name) := inferInstanceAs (Decidable (_ ∉ _))

namespace Program

/-- No function has a dot in its name, and neither has anything that is called. -/
structure DotFree (program : Program) : Prop where
  functions : ∀ decl ∈ program.functions, Secd.DotFree decl.name
  calls : ∀ site ∈ program.calls, Secd.DotFree site.func

/-- The number of functions, of parameters of each and of arguments of each call can be counted in
a signed machine word. -/
structure Countable (program : Program) : Prop where
  functions : program.functions.length < 2 ^ 63
  params : ∀ decl ∈ program.functions, decl.params.length < 2 ^ 63
  args : ∀ site ∈ program.calls, site.argCount < 2 ^ 63

end Program

end Secd
