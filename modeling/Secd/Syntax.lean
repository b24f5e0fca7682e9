namespace Secd

/-! # Source programs

A program is a list of declarations: functions, whose bodies are statements over expressions, and
groups of constants. The tree is richer than the machine can run. Assignments, loops, composite
literals other than arrays and three of the operators are there so that a front end can hand them
over and be told exactly what is wrong.
-/

/-! ## Literals and operators -/

/-- A literal is an integer, or any other literal carried as its source text. -/
inductive Literal where
  | int (value : Int64)
  | text (source : String)
  deriving DecidableEq, Repr

/-- The way a literal is written. -/
def Literal.render : Literal → String
  | .int value => toString value.toInt
  | .text source => source

/-- Binary operators of the source language. -/
inductive BinaryOp where
  | add | sub | mul | div | rem
  | eq | notEq | lt | gt | ltEq | gtEq
  | and | or
  deriving DecidableEq, Repr

/-- Source spelling of an operator. -/
def BinaryOp.symbol : BinaryOp → String
  | .add => "+"
  | .sub => "-"
  | .mul => "*"
  | .div => "/"
  | .rem => "%"
  | .eq => "=="
  | .notEq => "!="
  | .lt => "<"
  | .gt => ">"
  | .ltEq => "<="
  | .gtEq => ">="
  | .and => "&&"
  | .or => "||"

/-- What a composite literal builds. -/
inductive CompositeKind where
  | array
  | struct (name : String)
  | map
  deriving DecidableEq, Repr

/-- The words a report uses for a kind of composite literal. -/
def CompositeKind.render : CompositeKind → String
  | .array => "array"
  | .struct name => "struct " ++ name
  | .map => "map"

/-! ## Expressions and statements -/

inductive Expr where
  | literal (value : Literal)
  /-- A parameter, a top-level function or a constant. -/
  | ident (name : String)
  | binary (op : BinaryOp) (lhs rhs : Expr)
  /-- A call of a named function or of a primitive of the machine. -/
  | call (func : String) (args : List Expr)
  | composite (kind : CompositeKind) (elems : List Expr)
  | paren (inner : Expr)
  deriving Repr

namespace Expr

def int (value : Int64) : Expr := .literal (.int value)

/-- An array literal. -/
def list (elems : List Expr) : Expr := .composite .array elems

/-- The words a report uses for a kind of expression. -/
def kindName : Expr → String
  | .literal _ => "literal"
  | .ident _ => "identifier"
  | .binary .. => "binary expression"
  | .call .. => "call"
  | .composite .. => "composite literal"
  | .paren _ => "parenthesized expression"

end Expr

inductive Stmt where
  /-- An expression evaluated for its value, which stays on the stack. -/
  | expr (value : Expr)
  /-- A conditional; a missing second arm is an empty one. -/
  | ifElse (cond : Expr) (thenArm : List Stmt) (elseArm : Option (List Stmt))
  /-- A return, accepted only as the last statement of a function body. -/
  | ret (values : List Expr)
  | assign (targets : List String) (values : List Expr)
  | loop (body : List Stmt)
  deriving Repr

namespace Stmt

/-- The return of one value. -/
def retOne (value : Expr) : Stmt := .ret [value]

/-- The words a report uses for a kind of statement. -/
def kindName : Stmt → String
  | .expr _ => "expression statement"
  | .ifElse .. => "if statement"
  | .ret _ => "return statement"
  | .assign .. => "assignment"
  | .loop _ => "loop"

end Stmt

/-! ## Declarations -/

/-- A function; its parameters stand in the order in which arguments are passed. -/
structure FunctionDecl where
  name : String
  params : List String
  body : List Stmt
  deriving Repr

/-- Initial values of a group of constants. -/
inductive ConstValues where
  /-- Every name stands for its position in the group, counted from zero. -/
  | ordinals
  /-- One expression for each name. -/
  | exprs (values : List Expr)
  deriving Repr

structure ConstGroup where
  names : List String
  values : ConstValues
  deriving Repr

inductive Decl where
  | function (decl : FunctionDecl)
  | consts (group : ConstGroup)
  deriving Repr

/-- A program has a name, printed at the head of its listing, and declarations in source order. -/
structure Program where
  name : String
  decls : List Decl := []
  deriving Repr

namespace Program

/-- Appends a function. -/
def addFunction (program : Program) (name : String) (params : List String) (body : List Stmt) :
    Program :=
  { program with decls := program.decls ++ [.function ⟨name, params, body⟩] }

/-- Appends a group of constants. -/
def addConstants (program : Program) (names : List String) (values : ConstValues) : Program :=
  { program with decls := program.decls ++ [.consts ⟨names, values⟩] }

/-- The functions in declaration order. -/
def functions (program : Program) : List FunctionDecl :=
  program.decls.filterMap fun
    | .function decl => some decl
    | .consts _ => none

@[simp] theorem functions_addFunction (program : Program) (name : String) (params : List String)
    (body : List Stmt) :
    (program.addFunction name params body).functions =
      program.functions ++ [⟨name, params, body⟩] := by
  simp [functions, addFunction]

@[simp] theorem functions_addConstants (program : Program) (names : List String)
    (values : ConstValues) :
    (program.addConstants names values).functions = program.functions := by
  simp [functions, addConstants]

end Program

end Secd
