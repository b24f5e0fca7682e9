namespace Secd

/-! # Scopes and addresses

At run time a variable is found by walking a number of frames outward and taking a slot there. At
link time the same walk is made over the names of the slots, so the address that `Scope.address?`
gives is the one the machine will follow.
-/

/-- The place of a variable: how many frames outward, and which slot of that frame. -/
structure Address where
  depth : Nat
  index : Nat
  deriving DecidableEq, Repr

/-- The same slot seen from one frame further in. -/
def Address.outward (address : Address) : Address :=
  { address with depth := address.depth + 1 }

/-- The slot names of every frame in reach, the innermost frame first. -/
abbrev Scope := List (List String)

namespace Scope

/-- The slots of the innermost frame. -/
def slots (scope : Scope) : List String := scope.headD []

/-- The address of a name: the nearest frame that has it, and its first slot there. -/
def address? : Scope → String → Option Address
  | [], _ => none
  | frame :: outer, name =>
    match frame.idxOf? name with
    | some index => some ⟨0, index⟩
    | none => (address? outer name).map Address.outward

@[simp] theorem address?_nil (name : String) : address? [] name = none := rfl

/-- A name of the innermost frame is found there, whatever the outer frames hold. -/
theorem address?_cons_of_some {frame : List String} {name : String} {index : Nat} (outer : Scope)
    (found : frame.idxOf? name = some index) :
    address? (frame :: outer) name = some ⟨0, index⟩ := by
  simp [address?, found]

/-- A name that the innermost frame lacks is looked up one frame further out. -/
theorem address?_cons_of_none {frame : List String} {name : String} (outer : Scope)
    (absent : frame.idxOf? name = none) :
    address? (frame :: outer) name = (address? outer name).map Address.outward := by
  simp [address?, absent]

end Scope

end Secd
