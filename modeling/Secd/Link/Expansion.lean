import Secd.Error
import Secd.Object.Constants

namespace Secd

/-! # Expansion of constants

The instructions of a constant may refer to other constants. Expansion replaces every such
reference by the instructions of the constant it names, until no reference to a constant is left. A
constant that would have to contain itself is refused.

A constant sees no variables: a load of any other name is refused too. A closure of any other name
is left as it is, because what it means depends on the block that uses the constant. A closure of a
name that is a constant does not wait for that block, so a variable of the same name in scope there
is missed.

Constants share what they refer to, and a constant may be referred to many times over while its
expansion is short or even empty. So each one is expanded once and its expansion is kept: the work
is bounded by the size of the constants and of their expansions, not by the number of ways to get
from one to another.
-/

namespace Instr

/-- Puts instructions in the place of a reference; they take its comment where they have none. -/
def splice (reference : Instr) (body : List Instr) : List Instr :=
  body.map (·.orCommented reference.comment)

end Instr

/-- Expansion goes along with a table of the expansions found so far. -/
abbrev Expander := StateT Constants (Except CompileError)

namespace Expander

/-- The expansion of a constant from the table, where it is there; otherwise it is computed and
entered. -/
def once (name : String) (compute : Expander (List Instr)) : Expander (List Instr) := fun known =>
  match known.body? name with
  | some expansion => .ok (expansion, known)
  | none => do
    let (expansion, found) ← compute known
    return (expansion, (name, expansion) :: found)

/-- A constant whose expansion is known is not expanded again. -/
theorem once_of_known {name : String} {expansion : List Instr} {known : Constants}
    (found : known.body? name = some expansion) (compute : Expander (List Instr)) :
    once name compute known = .ok (expansion, known) := by
  simp [once, found]

end Expander

namespace Constants

/-- The place that a report names for a fault in a constant. -/
def context (name : String) : String := "const " ++ name

/-- What an instruction of the constant `owner` stands for, given the expansions of the constants
that it can refer to. -/
def expandInstr (constants : Constants) (owner : String)
    (expansion : String → Expander (List Instr)) (instr : Instr) : Expander (List Instr) :=
  match instr.reference? with
  | none => return [instr]
  | some name =>
    if (constants.body? name).isSome then do
      return instr.splice (← expansion name)
    else if instr.opcode = .ld then
      throw (.unresolvedSymbol { symbol := name, block := context owner })
    else
      return [instr]

/-- The expansion of a constant that is met while those of `path` are being expanded. At most
`depth` further constants are opened inside each other. -/
def expandFrom (constants : Constants) :
    (depth : Nat) → (path : List String) → (name : String) → Expander (List Instr)
  | 0, _, name => throw (.cyclicConstant name)
  | depth + 1, path, name => Expander.once name <|
    if name ∈ path then throw (.cyclicConstant name)
    else
      match constants.body? name with
      | none => throw (.unresolvedSymbol { symbol := name, block := context name })
      | some body => do
        let parts ← body.mapM <|
          constants.expandInstr name (constants.expandFrom depth (name :: path))
        return parts.flatten

/-- The expansion of a constant. The constants of a path differ from each other, so one more step
than there are constants is never needed. -/
def expand (constants : Constants) (name : String) : Expander (List Instr) :=
  constants.expandFrom (constants.length + 1) [] name

/-- Every constant with its expansion, one after the other. -/
def expandEach (constants : Constants) : Expander Constants :=
  constants.mapM fun (name, _) => do return (name, ← constants.expand name)

/-- All constants with their expansions. The first fault is reported, in the order of the names. -/
def expandAll (constants : Constants) : Except CompileError Constants :=
  constants.expandEach.run' []

end Constants

end Secd
