import Secd.Scope

namespace Secd

/-! # Instructions

An instruction is an opcode with operands and an optional comment. Before linking, an operand may
be a name: of a variable, of a constant or of a block of code. Linking replaces names by frame
addresses and by absolute offsets.
-/

/-! ## Opcodes -/

inductive Opcode where
  | ldc | ld | ldf
  | add | sub | mul | div
  | ceq | cgt | cgte
  | atom | cons | car | cdr
  /-- Takes a condition and enters one of two blocks, each of which ends in `join`. -/
  | sel
  | join
  /-- Applies a closure to a number of arguments. -/
  | ap
  | rtn
  /-- Opens a frame whose slots are filled later. -/
  | dum
  /-- Applies like `ap`, filling the frame that `dum` opened with the arguments. -/
  | rap
  | brk | dbug
  deriving DecidableEq, Repr

namespace Opcode

/-- Every opcode; the position in this list is the number of the opcode in a binary listing. -/
def all : List Opcode :=
  [.ldc, .ld, .ldf, .add, .sub, .mul, .div, .ceq, .cgt, .cgte, .atom, .cons, .car, .cdr,
    .sel, .join, .ap, .rtn, .dum, .rap, .brk, .dbug]

/-- Assembly name of an opcode. -/
def mnemonic : Opcode → String
  | .ldc => "LDC"
  | .ld => "LD"
  | .ldf => "LDF"
  | .add => "ADD"
  | .sub => "SUB"
  | .mul => "MUL"
  | .div => "DIV"
  | .ceq => "CEQ"
  | .cgt => "CGT"
  | .cgte => "CGTE"
  | .atom => "ATOM"
  | .cons => "CONS"
  | .car => "CAR"
  | .cdr => "CDR"
  | .sel => "SEL"
  | .join => "JOIN"
  | .ap => "AP"
  | .rtn => "RTN"
  | .dum => "DUM"
  | .rap => "RAP"
  | .brk => "BRK"
  | .dbug => "DBUG"

theorem mem_all (op : Opcode) : op ∈ all := by
  cases op <;> decide

end Opcode

/-! ## Operands -/

inductive Operand where
  /-- A constant, a count or a part of a frame address. -/
  | int (value : Int64)
  /-- Literal text, passed on verbatim. -/
  | text (source : String)
  /-- The name of a variable, a constant or a block, not yet resolved. -/
  | name (symbol : String)
  /-- The absolute offset of a block. -/
  | offset (position : Nat)
  deriving DecidableEq, Repr

namespace Operand

/-- A count as an operand; it wraps to the machine's 64-bit signed word. -/
def count (n : Nat) : Operand := .int (Int64.ofNat n)

def render : Operand → String
  | .int value => toString value.toInt
  | .text source => source
  | .name symbol => symbol
  | .offset position => toString position

end Operand

/-! ## Instructions -/

structure Instr where
  opcode : Opcode
  args : List Operand := []
  comment : Option String := none
  deriving DecidableEq, Repr

namespace Instr

/-! ### Building instructions -/

/-- An instruction without operands. -/
def plain (opcode : Opcode) : Instr := { opcode }

/-- Loads an integer constant. -/
def ldc (value : Int64) : Instr := { opcode := .ldc, args := [.int value] }

/-- Loads a literal given as its source text. -/
def ldcText (source : String) : Instr := { opcode := .ldc, args := [.text source] }

/-- Loads a variable by name. -/
def ld (name : String) : Instr := { opcode := .ld, args := [.name name] }

/-- Loads the variable at a frame address. -/
def ldAddress (address : Address) : Instr :=
  { opcode := .ld, args := [.count address.depth, .count address.index] }

/-- Makes a closure of a named block. -/
def ldf (name : String) : Instr := { opcode := .ldf, args := [.name name] }

def ap (argCount : Nat) : Instr := { opcode := .ap, args := [.count argCount] }

/-- Chooses between two named blocks. -/
def sel (thenBlock elseBlock : String) : Instr :=
  { opcode := .sel, args := [.name thenBlock, .name elseBlock] }

def dum (slotCount : Nat) : Instr := { opcode := .dum, args := [.count slotCount] }

def rap (argCount : Nat) : Instr := { opcode := .rap, args := [.count argCount] }

/-! ### Comments -/

/-- Sets the comment; the empty comment removes it. -/
def commented (instr : Instr) (comment : String) : Instr :=
  { instr with comment := if comment.isEmpty then none else some comment }

/-- Takes a comment only where there is none yet. -/
def orCommented (instr : Instr) (comment : Option String) : Instr :=
  { instr with comment := instr.comment <|> comment }

/-- Drops the comment. -/
def uncommented (instr : Instr) : Instr :=
  { instr with comment := none }

theorem commented_of_ne_empty (instr : Instr) {comment : String} (nonempty : comment ≠ "") :
    instr.commented comment = { instr with comment := some comment } := by
  simp [commented, nonempty]

/-! ### Names in instructions -/

/-- The name of an instruction whose only operand is a name. -/
def symbol? (instr : Instr) : Option String :=
  match instr.args with
  | [.name symbol] => some symbol
  | _ => none

/-- The name that a load of a variable or of a closure refers to. -/
def reference? (instr : Instr) : Option String :=
  match instr.opcode with
  | .ld | .ldf => instr.symbol?
  | _ => none

/-- Assembly text without the comment: the mnemonic and each operand after a space. -/
def render (instr : Instr) : String :=
  instr.opcode.mnemonic ++ String.join (instr.args.map fun arg => " " ++ arg.render)

/-! ### What comments leave alone -/

@[simp] theorem symbol?_orCommented (instr : Instr) (comment : Option String) :
    (instr.orCommented comment).symbol? = instr.symbol? := rfl

@[simp] theorem reference?_orCommented (instr : Instr) (comment : Option String) :
    (instr.orCommented comment).reference? = instr.reference? := rfl

@[simp] theorem render_orCommented (instr : Instr) (comment : Option String) :
    (instr.orCommented comment).render = instr.render := rfl

@[simp] theorem render_commented (instr : Instr) (comment : String) :
    (instr.commented comment).render = instr.render := rfl

@[simp] theorem uncommented_orCommented (instr : Instr) (comment : Option String) :
    (instr.orCommented comment).uncommented = instr.uncommented := rfl

@[simp] theorem uncommented_commented (instr : Instr) (comment : String) :
    (instr.commented comment).uncommented = instr.uncommented := rfl

end Instr

end Secd
