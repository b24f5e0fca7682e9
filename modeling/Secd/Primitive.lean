import Secd.Instr

namespace Secd

/-! # Primitives

A call of a primitive compiles to an instruction of its own instead of a closure application. Its
source name is the mnemonic of that instruction.
-/

structure Primitive where
  opcode : Opcode
  arity : Nat
  deriving DecidableEq, Repr

namespace Primitive

def name (primitive : Primitive) : String := primitive.opcode.mnemonic

def all : List Primitive :=
  [⟨.atom, 1⟩, ⟨.car, 1⟩, ⟨.cdr, 1⟩, ⟨.cons, 2⟩, ⟨.brk, 0⟩, ⟨.dbug, 1⟩]

/-- The primitive of a name; case counts. -/
def find? (name : String) : Option Primitive :=
  all.find? fun primitive => primitive.name == name

theorem name_of_find? {name : String} {primitive : Primitive}
    (found : find? name = some primitive) : primitive.name = name := by
  simpa using List.find?_some found

end Primitive

end Secd
