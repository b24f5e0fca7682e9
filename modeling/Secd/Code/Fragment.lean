import Secd.Instr

namespace Secd

/-! # Fragments of code

A conditional does not fit into one straight run of instructions: each of its arms is a block of
its own, and an arm may hold conditionals again. A `Fragment` is a run of instructions together
with the `Forest` of arms that its branches enter.
-/

/-! ## Forests of arms -/

/-- The name of a branch arm: the block it leaves, the number of instructions there when the
condition has been computed, and a tag that tells the two arms apart. -/
def armName (block : String) (position : Nat) (tag : String) : String :=
  block ++ "." ++ toString position ++ tag

/-- Branch arms in the order in which they were created, each with the arms nested in it. -/
inductive Forest where
  | nil
  | node (name : String) (instrs : List Instr) (nested next : Forest)
  deriving Repr

namespace Forest

def append : Forest → Forest → Forest
  | .nil, other => other
  | .node name instrs nested next, other => .node name instrs nested (next.append other)

instance : Append Forest := ⟨append⟩

/-- The number of arms, nested ones included. -/
def size : Forest → Nat
  | .nil => 0
  | .node _ _ nested next => 1 + nested.size + next.size

/-- The names of all arms, each before those nested in it. -/
def names : Forest → List String
  | .nil => []
  | .node name _ nested next => name :: (nested.names ++ next.names)

@[simp] theorem nil_append (other : Forest) : (.nil : Forest) ++ other = other := rfl

@[simp] theorem node_append (name : String) (instrs : List Instr) (nested next other : Forest) :
    .node name instrs nested next ++ other = .node name instrs nested (next ++ other) := rfl

@[simp] theorem append_nil (forest : Forest) : forest ++ (.nil : Forest) = forest := by
  induction forest with
  | nil => rfl
  | node _ _ _ _ _ ih => rw [node_append, ih]

theorem append_assoc (first second third : Forest) :
    first ++ second ++ third = first ++ (second ++ third) := by
  induction first with
  | nil => rfl
  | node _ _ _ _ _ ih => rw [node_append, node_append, node_append, ih]

@[simp] theorem size_append (first second : Forest) :
    (first ++ second).size = first.size + second.size := by
  induction first with
  | nil => simp [size]
  | node _ _ _ _ _ ih => rw [node_append, size, size, ih]; omega

@[simp] theorem names_append (first second : Forest) :
    (first ++ second).names = first.names ++ second.names := by
  induction first with
  | nil => rfl
  | node _ _ _ _ _ ih => rw [node_append, names, names, ih]; simp

@[simp] theorem length_names (forest : Forest) : forest.names.length = forest.size := by
  induction forest with
  | nil => rfl
  | node _ _ _ _ ihNested ihNext => simp [names, size, ihNested, ihNext]; omega

end Forest

/-! ## Fragments -/

structure Fragment where
  instrs : List Instr := []
  arms : Forest := .nil
  deriving Repr

namespace Fragment

/-- No code at all. -/
def empty : Fragment := {}

/-- Straight code. -/
def ofInstrs (instrs : List Instr) : Fragment := { instrs }

/-- One fragment after the other. -/
def append (first second : Fragment) : Fragment :=
  ⟨first.instrs ++ second.instrs, first.arms ++ second.arms⟩

instance : Append Fragment := ⟨append⟩

@[simp] theorem instrs_append (first second : Fragment) :
    (first ++ second).instrs = first.instrs ++ second.instrs := rfl

@[simp] theorem arms_append (first second : Fragment) :
    (first ++ second).arms = first.arms ++ second.arms := rfl

end Fragment

end Secd
