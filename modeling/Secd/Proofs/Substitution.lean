import Secd.Proofs.Expansion

namespace Secd

open Results

/-! # Expansion of constants is substitution

Constants are expanded by a walk that goes from a constant to those it refers to, with a path of
open constants and a table of finished ones. What it computes can be said without the walk: the
table gives each constant its own code with every reference to a constant replaced by what the table
has for it (`Constants.Substitutes`). So the order in which constants are visited leaves no trace.

The walk is bounded by the number of constants, and the bound is never felt: with any larger bound
it does the same (`Constants.expandFrom_eq_of_enough`), because a path of different constants cannot
be longer.
-/

namespace Constants

/-! ## The bound of the walk -/

theorem expandInstr_congr {constants : Constants} {owner : String} {body : List Instr}
    {instr : Instr} (hasBody : constants.body? owner = some body) (member : instr ∈ body)
    {expansion other : String → Expander (List Instr)}
    (agree : ∀ referred, constants.Refers owner referred → expansion referred = other referred) :
    constants.expandInstr owner expansion instr = constants.expandInstr owner other instr := by
  unfold expandInstr
  cases refers : instr.reference? with
  | none => rfl
  | some referred =>
    by_cases isConstant : (constants.body? referred).isSome
    · have step : constants.Refers owner referred :=
        ⟨body, hasBody, ⟨instr, member, refers⟩, isConstant⟩
      simp only [agree referred step]
    · simp only [if_neg isConstant]

/-- Once there is a level for every constant that is not open yet, more levels change nothing. -/
theorem expandFrom_eq_of_enough {constants : Constants} {depth : Nat} :
    ∀ {more : Nat} {path : List String} {name : String}, constants.Opens path name →
    constants.length < path.length + depth → constants.length < path.length + more →
    constants.expandFrom depth path name = constants.expandFrom more path name := by
  induction depth with
  | zero =>
    intro more path name opens enough _
    have bound := opens.length_le
    omega
  | succ depth ih =>
    intro more path name opens enough alsoEnough
    cases more with
    | zero =>
      have bound := opens.length_le
      omega
    | succ more =>
      simp only [expandFrom]
      by_cases isOpen : name ∈ path
      · simp only [if_pos isOpen]
      · simp only [if_neg isOpen]
        cases hasBody : constants.body? name with
        | none => rfl
        | some body =>
          have same : ∀ referred, constants.Refers name referred →
              constants.expandFrom depth (name :: path) referred =
                constants.expandFrom more (name :: path) referred := by
            intro referred step
            apply ih (opens.extend isOpen step)
            · simp only [List.length_cons]
              omega
            · simp only [List.length_cons]
              omega
          have parts := mapM_congr fun instr member => expandInstr_congr hasBody member same
          simp only [parts]

/-! ## Substituting -/

/-- What takes the place of an instruction when the names in `table` are replaced by their code. -/
def substitute (table : Constants) (instr : Instr) : List Instr :=
  match instr.reference?.bind table.body? with
  | some code => instr.splice code
  | none => [instr]

/-- The table gives each constant, and nothing else, its code with the constants in it replaced; no
name of a constant is left and nothing that would have to be one. -/
structure Substitutes (constants table : Constants) : Prop where
  body?_eq : ∀ name, table.body? name = (constants.body? name).map (·.flatMap table.substitute)
  closed : ∀ name code, table.body? name = some code → ∀ instr ∈ code, ∀ symbol,
    instr.reference? = some symbol → instr.opcode = .ldf ∧ constants.body? symbol = none

/-- A table of all expansions, looked up by name. -/
def Tabulates (constants table : Constants) : Prop :=
  ∀ name, (constants.body? name = none ∧ table.body? name = none) ∨
    ∃ result, table.body? name = some result ∧ constants.ExpandsTo name result

theorem Tabulates.of_expandIn {constants table : Constants} {order : List String}
    (visits : ∀ name, name ∈ order ↔ name ∈ constants.names)
    (expanded : constants.expandIn order = .ok table) : constants.Tabulates table := by
  intro name
  rcases lookup_of_expandIn expanded name with ⟨absent, unknown⟩ | found
  · rw [visits] at absent
    exact .inl ⟨body?_eq_none_of_not_mem absent, unknown⟩
  · exact .inr found

namespace Tabulates

variable {constants table other : Constants}

theorem unique (first : constants.Tabulates table) (second : constants.Tabulates other)
    (name : String) : table.body? name = other.body? name := by
  rcases first name with ⟨undefined, unknown⟩ | ⟨result, known, body, hasBody, expansion⟩
  · rcases second name with ⟨-, alsoUnknown⟩ | ⟨_, -, body, hasBody, -⟩
    · rw [unknown, alsoUnknown]
    · simp [undefined] at hasBody
  · rcases second name with ⟨undefined, -⟩ | ⟨code, alsoKnown, otherBody, hasOther, otherExpansion⟩
    · simp [undefined] at hasBody
    · rw [hasBody] at hasOther
      cases hasOther
      rw [known, alsoKnown, expansion.unique otherExpansion]

/-- The expansion of code, read off the table. -/
theorem eq_flatMap (tabulates : constants.Tabulates table) {code result : List Instr}
    (expansion : Expansion constants code result) : result = code.flatMap table.substitute := by
  induction expansion with
  | nil => rfl
  | @keep instr rest result kept _ ih =>
    have stays : table.substitute instr = [instr] := by
      cases refers : instr.reference? with
      | none => simp [substitute, refers]
      | some name =>
        rcases tabulates name with ⟨-, unknown⟩ | ⟨_, -, body, hasBody, -⟩
        · simp [substitute, refers, unknown]
        · simp [(kept name refers).1] at hasBody
    rw [List.flatMap_cons, stays, ih]
    rfl
  | @inline instr name body inner rest result refers hasBody inside _ _ ihNext =>
    have replaced : table.substitute instr = instr.splice inner := by
      rcases tabulates name with ⟨undefined, -⟩ | ⟨code, known, other, hasOther, expansion⟩
      · simp [undefined] at hasBody
      · rw [hasBody] at hasOther
        cases hasOther
        simp [substitute, refers, known, expansion.unique inside]
    rw [List.flatMap_cons, replaced, ihNext]

theorem substitutes (tabulates : constants.Tabulates table) : constants.Substitutes table where
  body?_eq := by
    intro name
    rcases tabulates name with ⟨undefined, unknown⟩ | ⟨result, known, body, hasBody, expansion⟩
    · simp [undefined, unknown]
    · rw [known, hasBody, Option.map_some, tabulates.eq_flatMap expansion]
  closed := by
    intro name code isCode instr member symbol refers
    rcases tabulates name with ⟨-, unknown⟩ | ⟨result, known, body, hasBody, expansion⟩
    · simp [unknown] at isCode
    · rw [known] at isCode
      cases isCode
      exact (expansion.reference_of_mem instr member symbol refers).symm

end Tabulates

/-- The walk ends before its bound is felt. In whatever order it visits the constants, it succeeds
exactly where none of them refers to itself through constants and none reads a name that is no
constant; then it has substituted constants by their code, with one and the same result; and where
it fails, what it reports is true. -/
theorem expansion_as_substitution (constants : Constants) :
    (∀ depth, constants.length < depth → ∀ name,
      constants.expandFrom depth [] name = constants.expand name) ∧
    constants.expandAll = constants.expandIn constants.names ∧
    ∀ order : List String, (∀ name, name ∈ order ↔ name ∈ constants.names) →
      ((∃ table, constants.expandIn order = .ok table) ↔
        constants.Acyclic ∧ constants.ReadsConstants) ∧
      (∀ table, constants.expandIn order = .ok table → table.names = order ∧
        constants.Substitutes table ∧ ∀ other, constants.expandAll = .ok other →
          ∀ name, table.body? name = other.body? name) ∧
      ∀ error, constants.expandIn order = .error error → constants.Fault error := by
  refine ⟨fun depth enough name => ?_, expandAll_eq_expandIn constants, fun order visits => ?_⟩
  · apply expandFrom_eq_of_enough (.root name)
    · simpa using enough
    · simp
  · refine ⟨expandIn_iff visits, fun table expanded => ?_, fun error failed => ?_⟩
    · have tabulates := Tabulates.of_expandIn visits expanded
      refine ⟨?_, tabulates.substitutes, fun other linked => ?_⟩
      · have named := map_eq_map_of_forall₂ (f := id) (expandIn_spec expanded)
          fun name entry head => head.1
        simpa [names] using named
      · rw [expandAll_eq_expandIn] at linked
        exact tabulates.unique (.of_expandIn (fun _ => Iff.rfl) linked)
    · exact fault_of_expandIn (fun name member => isSome_of_mem_names ((visits name).mp member))
        failed

/-- Constants that share one that is read twice, and of which one calls a function. -/
def sharedConstants : Constants :=
  [("double", [.ld "two", (Instr.ldf "two").commented "again", .plain .add]),
    ("scaled", [.ld "double", .ldf "helper", .ap 1]),
    ("two", [(Instr.ldc 2).commented "two", .plain .atom])]

theorem expansion_as_substitution_shared :
    (∀ name, name ∈ ["two", "scaled", "double"] ↔ name ∈ sharedConstants.names) ∧
    ∃ table, sharedConstants.expandIn ["two", "scaled", "double"] = .ok table ∧
      sharedConstants.Substitutes table ∧
      table.body? "scaled" = some [(Instr.ldc 2).commented "two", .plain .atom,
        (Instr.ldc 2).commented "two", (Instr.plain .atom).commented "again", .plain .add,
        .ldf "helper", .ap 1] := by
  have visits : ∀ name, name ∈ ["two", "scaled", "double"] ↔ name ∈ sharedConstants.names := by
    intro name
    simp only [sharedConstants, names, List.map_cons, List.map_nil, List.mem_cons, List.not_mem_nil,
      or_false]
    tauto
  obtain ⟨-, substituted, -⟩ := (expansion_as_substitution sharedConstants).2.2 _ visits
  obtain ⟨table, expanded, isCode⟩ := exists_ok_of_any
    (sharedConstants.expandIn ["two", "scaled", "double"])
    (fun table => table.body? "scaled" == some [(Instr.ldc 2).commented "two", .plain .atom,
      (Instr.ldc 2).commented "two", (Instr.plain .atom).commented "again", .plain .add,
      .ldf "helper", .ap 1]) (by decide)
  exact ⟨visits, table, expanded, (substituted table expanded).2.1, by simpa using isCode⟩

end Constants

end Secd
