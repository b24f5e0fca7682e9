import Secd.Instr

namespace Secd

/-! # Constants

A constant stands for a run of instructions. The table of constants is kept in the order of their
names, compared code point by code point, so that everything computed from it goes through the
constants in one order, however they were declared.
-/

abbrev Constants := List (String × List Instr)

namespace Constants

/-- The instructions that a constant stands for. -/
def body? (constants : Constants) (name : String) : Option (List Instr) :=
  constants.lookup name

/-- The names in order. -/
def names (constants : Constants) : List String := constants.map Prod.fst

/-- Puts a constant in its place; a constant of the same name gives way. -/
def insert (name : String) (body : List Instr) : Constants → Constants
  | [] => [(name, body)]
  | (other, otherBody) :: rest =>
    if name < other then (name, body) :: (other, otherBody) :: rest
    else if name = other then (name, body) :: rest
    else (other, otherBody) :: insert name body rest

/-- The table of some constants; of two with one name the later stays. -/
def ofList (entries : List (String × List Instr)) : Constants :=
  entries.foldl (fun constants (name, body) => insert name body constants) []

@[simp] theorem body?_nil (name : String) : body? [] name = none := rfl

theorem body?_cons (entry : String × List Instr) (rest : Constants) (name : String) :
    body? (entry :: rest) name = if name = entry.1 then some entry.2 else body? rest name := by
  obtain ⟨other, otherBody⟩ := entry
  by_cases same : name = other
  · simp [body?, same]
  · simp [body?, List.lookup_cons, beq_eq_false_iff_ne.mpr same, same]

/-- After an insertion the new name has the new body, and every other name has what it had. -/
theorem body?_insert (constants : Constants) (name : String) (body : List Instr) (query : String) :
    (constants.insert name body).body? query =
      if query = name then some body else constants.body? query := by
  induction constants with
  | nil => simp [insert, body?_cons]
  | cons entry rest ih =>
    obtain ⟨other, otherBody⟩ := entry
    simp only [insert]
    split
    · simp [body?_cons]
    · split
      · rename_i same
        simp only [body?_cons, same]
        split <;> rfl
      · rename_i distinct
        simp only [body?_cons, ih]
        split
        · rename_i isOther
          rw [if_neg (fun isName => distinct (isName.symm.trans isOther))]
        · rfl

end Constants

end Secd
