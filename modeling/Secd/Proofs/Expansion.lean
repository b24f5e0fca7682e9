import Mathlib.Data.List.Perm.Subperm
import Mathlib.Logic.Relation
import Secd.Link.Expansion
import Secd.Proofs.Results

namespace Secd

open Results

/-! # Expansions of constants

`Expansion constants code result` says by rules that `result` is `code` with every reference to a
constant replaced by the expansion of that constant. The table that the linker computes holds
exactly these expansions (`Constants.expandIn_spec`), in whatever order the constants are visited
and whatever has been kept from earlier ones. It exists exactly where no constant refers to itself
through constants and no constant reads a variable (`Constants.expandIn_iff`), because nothing else
is ever reported (`Constants.fault_of_expandIn`).
-/

/-- Replacing references to constants by what the constants stand for. -/
inductive Expansion (constants : Constants) : List Instr → List Instr → Prop where
  | nil : Expansion constants [] []
  | keep {instr : Instr} {rest result : List Instr}
      (kept : ∀ name, instr.reference? = some name →
        constants.body? name = none ∧ instr.opcode = .ldf)
      (next : Expansion constants rest result) :
    Expansion constants (instr :: rest) (instr :: result)
  | inline {instr : Instr} {name : String} {body inner rest result : List Instr}
      (refers : instr.reference? = some name) (defined : constants.body? name = some body)
      (inside : Expansion constants body inner) (next : Expansion constants rest result) :
    Expansion constants (instr :: rest) (instr.splice inner ++ result)

namespace Expansion

variable {constants : Constants}

/-- Code has one expansion. -/
theorem unique {code first second : List Instr} (isFirst : Expansion constants code first)
    (isSecond : Expansion constants code second) : first = second := by
  induction isFirst generalizing second with
  | nil =>
    cases isSecond
    rfl
  | keep kept _ ih =>
    cases isSecond with
    | keep _ next => rw [ih next]
    | inline refers defined _ _ =>
      rw [(kept _ refers).1] at defined
      cases defined
  | inline refers defined _ _ ihInside ihNext =>
    cases isSecond with
    | keep kept _ =>
      rw [(kept _ refers).1] at defined
      cases defined
    | inline otherRefers otherDefined inside next =>
      rw [refers] at otherRefers
      cases otherRefers
      rw [defined] at otherDefined
      cases otherDefined
      rw [ihInside inside, ihNext next]

/-- In an expansion only closures of names that are no constants refer to anything. -/
theorem reference_of_mem {code result : List Instr} (expansion : Expansion constants code result) :
    ∀ instr ∈ result, ∀ name, instr.reference? = some name →
      constants.body? name = none ∧ instr.opcode = .ldf := by
  induction expansion with
  | nil => simp
  | keep kept _ ih =>
    intro instr member name refers
    rcases List.mem_cons.mp member with rfl | inRest
    · exact kept name refers
    · exact ih instr inRest name refers
  | inline _ _ _ _ ihInside ihNext =>
    intro instr member name refers
    rcases List.mem_append.mp member with inInner | inRest
    · obtain ⟨inner, isInner, rfl⟩ := List.mem_map.mp inInner
      exact ihInside inner isInner name refers
    · exact ihNext instr inRest name refers

/-- What is said of all code of constants and does not depend on comments holds of expansions. -/
theorem forall_mem (property : Instr → Prop)
    (comments : ∀ instr comment, property instr → property (instr.orCommented comment))
    (ofConstants : ∀ name body, constants.body? name = some body → ∀ instr ∈ body, property instr)
    {code result : List Instr} (expansion : Expansion constants code result) :
    (∀ instr ∈ code, property instr) → ∀ instr ∈ result, property instr := by
  induction expansion with
  | nil => simp
  | keep _ _ ih =>
    intro ofCode instr member
    rcases List.mem_cons.mp member with rfl | inRest
    · exact ofCode _ List.mem_cons_self
    · exact ih (fun other isOther => ofCode other (List.mem_cons_of_mem _ isOther)) instr inRest
  | inline _ defined _ _ ihInside ihNext =>
    intro ofCode instr member
    rcases List.mem_append.mp member with inInner | inRest
    · obtain ⟨inner, isInner, rfl⟩ := List.mem_map.mp inInner
      exact comments _ _ (ihInside (ofConstants _ _ defined) inner isInner)
    · exact ihNext (fun other isOther => ofCode other (List.mem_cons_of_mem _ isOther)) instr inRest

end Expansion

/-! ## Expanders -/

namespace Expander

variable {α β : Type}

theorem bind_eq_ok {first : Expander α} {next : α → Expander β} {known after : Constants}
    {result : β} :
    (first >>= next) known = .ok (result, after) ↔
      ∃ value middle, first known = .ok (value, middle) ∧
        next value middle = .ok (result, after) := by
  show (first known >>= fun (value, middle) => next value middle) = _ ↔ _
  rw [Results.bind_eq_ok]
  exact Prod.exists

theorem pure_eq_ok {value result : α} {known after : Constants} :
    (pure value : Expander α) known = .ok (result, after) ↔ value = result ∧ known = after := by
  show Except.ok (value, known) = _ ↔ _
  simp

/-- An expander that keeps a property of the table keeps it when it goes through a list, and each
result has what is known of it at its element. -/
theorem mapM_spec (valid : Constants → Prop) (holds : α → β → Prop) {step : α → Expander β} :
    ∀ {inputs : List α} {outputs : List β} {known after : Constants},
      (∀ input ∈ inputs, ∀ {output : β} {known after : Constants}, valid known →
        step input known = .ok (output, after) → holds input output ∧ valid after) →
      valid known → inputs.mapM step known = .ok (outputs, after) →
      List.Forall₂ holds inputs outputs ∧ valid after
  | [], outputs, known, after, _, isValid, done => by
    rw [List.mapM_nil, pure_eq_ok] at done
    obtain ⟨rfl, rfl⟩ := done
    exact ⟨.nil, isValid⟩
  | input :: rest, outputs, known, after, keeps, isValid, done => by
    rw [List.mapM_cons, bind_eq_ok] at done
    obtain ⟨output, middle, first, later⟩ := done
    rw [bind_eq_ok] at later
    obtain ⟨others, last, restDone, finished⟩ := later
    rw [pure_eq_ok] at finished
    obtain ⟨rfl, rfl⟩ := finished
    obtain ⟨head, middleValid⟩ := keeps input List.mem_cons_self isValid first
    obtain ⟨tail, lastValid⟩ := mapM_spec valid holds
      (fun other member => keeps other (List.mem_cons_of_mem _ member)) middleValid restDone
    exact ⟨.cons head tail, lastValid⟩

theorem bind_eq_error {first : Expander α} {next : α → Expander β} {known : Constants}
    {error : CompileError} (failed : (first >>= next) known = .error error) :
    first known = .error error ∨
      ∃ value middle, first known = .ok (value, middle) ∧ next value middle = .error error := by
  change (first known >>= fun (value, middle) => next value middle) = _ at failed
  rcases Results.bind_eq_error.mp failed with first | ⟨⟨value, middle⟩, computed, later⟩
  · exact .inl first
  · exact .inr ⟨value, middle, computed, later⟩

/-- An expander that fails on a list fails at some element, with some table. -/
theorem exists_of_mapM_eq_error {step : α → Expander β} {error : CompileError} :
    ∀ {inputs : List α} {known : Constants}, inputs.mapM step known = .error error →
      ∃ input ∈ inputs, ∃ table, step input table = .error error
  | [], known, failed => by cases failed
  | input :: rest, known, failed => by
    rw [List.mapM_cons] at failed
    rcases bind_eq_error failed with first | ⟨output, middle, -, later⟩
    · exact ⟨input, List.mem_cons_self, known, first⟩
    · rcases bind_eq_error later with inRest | ⟨outputs, last, -, impossible⟩
      · obtain ⟨other, member, table, otherFailed⟩ := exists_of_mapM_eq_error inRest
        exact ⟨other, List.mem_cons_of_mem _ member, table, otherFailed⟩
      · cases impossible

theorem once_eq_ok {name : String} {compute : Expander (List Instr)} {known after : Constants}
    {expansion : List Instr} (expanded : once name compute known = .ok (expansion, after)) :
    (known.body? name = some expansion ∧ after = known) ∨
      ∃ found, compute known = .ok (expansion, found) ∧ after = (name, expansion) :: found := by
  cases isKnown : known.body? name with
  | some old =>
    rw [once_of_known isKnown] at expanded
    cases expanded
    exact .inl ⟨rfl, rfl⟩
  | none =>
    simp only [once, isKnown, Results.bind_eq_ok, Results.pure_eq_ok] at expanded
    obtain ⟨⟨result, found⟩, computed, same⟩ := expanded
    cases same
    exact .inr ⟨found, computed, rfl⟩

theorem once_eq_error {name : String} {compute : Expander (List Instr)} {known : Constants}
    {error : CompileError} (failed : once name compute known = .error error) :
    compute known = .error error := by
  cases isKnown : known.body? name with
  | some old =>
    rw [once_of_known isKnown] at failed
    cases failed
  | none =>
    simp only [once, isKnown] at failed
    rcases Results.bind_eq_error.mp failed with computing | ⟨result, -, impossible⟩
    · exact computing
    · cases impossible

/-- What is computed from an empty table. -/
theorem run'_eq_ok {compute : Expander α} {result : α} :
    compute.run' [] = .ok result ↔ ∃ after, compute [] = .ok (result, after) := by
  show Prod.fst <$> compute [] = _ ↔ _
  cases compute [] with
  | error error => simp [Functor.map, Except.map]
  | ok computed =>
    obtain ⟨value, after⟩ := computed
    simp [Functor.map, Except.map]

theorem run'_eq_error {compute : Expander α} {error : CompileError} :
    compute.run' [] = .error error ↔ compute [] = .error error := by
  show Prod.fst <$> compute [] = _ ↔ _
  cases compute [] <;> simp [Functor.map, Except.map]

end Expander

/-! ## What is computed is the expansion -/

/-- The name that the instruction refers to, if there is one, is among these. -/
def Instr.RefersWithin (names : String → Prop) (instr : Instr) : Prop :=
  ∀ name, instr.reference? = some name → names name

theorem Instr.opcode_of_reference? {instr : Instr} {name : String}
    (refers : instr.reference? = some name) : instr.opcode = .ld ∨ instr.opcode = .ldf := by
  unfold Instr.reference? at refers
  split at refers <;> simp_all

namespace Constants

/-- The constant of a name expands to the given code. -/
def ExpandsTo (constants : Constants) (name : String) (result : List Instr) : Prop :=
  ∃ body, constants.body? name = some body ∧ Expansion constants body result

/-- A table that holds nothing but expansions. -/
def Sound (constants known : Constants) : Prop :=
  ∀ name expansion, known.body? name = some expansion → constants.ExpandsTo name expansion

theorem Sound.cons {constants known : Constants} (sound : constants.Sound known) {name : String}
    {expansion : List Instr} (expands : constants.ExpandsTo name expansion) :
    constants.Sound ((name, expansion) :: known) := by
  intro query result found
  rw [body?_cons] at found
  split at found
  · rename_i isName
    cases found
    exact isName ▸ expands
  · exact sound query result found

/-- What an instruction of a constant stands for, by the rules. -/
def ExpandsInstr (constants : Constants) (instr : Instr) (part : List Instr) : Prop :=
  ∀ rest result, Expansion constants rest result →
    Expansion constants (instr :: rest) (part ++ result)

theorem expandInstr_spec {constants : Constants} {owner : String} {instr : Instr}
    {part : List Instr} {known after : Constants}
    {expansion : String → Expander (List Instr)}
    (ofConstant : ∀ {name : String} {result : List Instr} {known after : Constants},
      constants.Sound known → expansion name known = .ok (result, after) →
      constants.ExpandsTo name result ∧ constants.Sound after)
    (sound : constants.Sound known)
    (expanded : constants.expandInstr owner expansion instr known = .ok (part, after)) :
    constants.ExpandsInstr instr part ∧ constants.Sound after := by
  cases refers : instr.reference? with
  | none =>
    simp only [expandInstr, refers, Expander.pure_eq_ok] at expanded
    obtain ⟨rfl, rfl⟩ := expanded
    refine ⟨fun rest result next => .keep (fun name named => ?_) next, sound⟩
    rw [refers] at named
    cases named
  | some name =>
    simp only [expandInstr, refers] at expanded
    by_cases isConstant : (constants.body? name).isSome
    · rw [if_pos isConstant, Expander.bind_eq_ok] at expanded
      obtain ⟨inner, middle, computed, finished⟩ := expanded
      rw [Expander.pure_eq_ok] at finished
      obtain ⟨rfl, rfl⟩ := finished
      obtain ⟨⟨body, defined, inside⟩, middleSound⟩ := ofConstant sound computed
      exact ⟨fun rest result next => .inline refers defined inside next, middleSound⟩
    · -- a name that is no constant stays only where it is called
      rw [if_neg isConstant] at expanded
      by_cases isLoad : instr.opcode = .ld
      · rw [if_pos isLoad] at expanded
        cases expanded
      · rw [if_neg isLoad, Expander.pure_eq_ok] at expanded
        obtain ⟨rfl, rfl⟩ := expanded
        refine ⟨fun rest result next => .keep (fun other named => ?_) next, sound⟩
        rw [refers] at named
        cases named
        exact ⟨by simpa using isConstant, (Instr.opcode_of_reference? refers).resolve_left isLoad⟩

theorem expansion_flatten {constants : Constants} {body : List Instr} {parts : List (List Instr)}
    (expands : List.Forall₂ (ExpandsInstr constants) body parts) :
    Expansion constants body parts.flatten := by
  induction expands with
  | nil => exact .nil
  | cons head _ ih => exact head _ _ ih

theorem expandFrom_spec {constants : Constants} {depth : Nat} : ∀ {path : List String}
    {name : String} {result : List Instr} {known after : Constants}, constants.Sound known →
    constants.expandFrom depth path name known = .ok (result, after) →
    constants.ExpandsTo name result ∧ constants.Sound after := by
  induction depth with
  | zero =>
    intro path name result known after sound expanded
    cases expanded
  | succ depth ih =>
    intro path name result known after sound expanded
    -- the table holds the expansion already, or it is computed and entered
    rcases Expander.once_eq_ok expanded with ⟨found, rfl⟩ | ⟨found, computed, rfl⟩
    · exact ⟨sound name result found, sound⟩
    · by_cases isOpen : name ∈ path
      · rw [if_pos isOpen] at computed
        cases computed
      · rw [if_neg isOpen] at computed
        cases defined : constants.body? name with
        | none =>
          simp only [defined] at computed
          cases computed
        | some body =>
          simp only [defined, Expander.bind_eq_ok, Expander.pure_eq_ok] at computed
          obtain ⟨parts, middle, expandedParts, rfl, rfl⟩ := computed
          obtain ⟨partwise, middleSound⟩ := Expander.mapM_spec constants.Sound
            (ExpandsInstr constants)
            (fun instr _ {_ _ _} sound => expandInstr_spec ih sound) sound expandedParts
          have expands : constants.ExpandsTo name parts.flatten :=
            ⟨body, defined, expansion_flatten partwise⟩
          exact ⟨expands, middleSound.cons expands⟩

/-- The expansions of constants that are visited in some order. -/
def expandIn (constants : Constants) (order : List String) : Except CompileError Constants :=
  (order.mapM fun name => do return (name, ← constants.expand name) : Expander Constants).run' []

/-- The linker visits the constants in the order of their table. -/
theorem expandAll_eq_expandIn (constants : Constants) :
    constants.expandAll = constants.expandIn constants.names := by
  rw [expandAll, expandEach, expandIn, names, List.mapM_map]
  rfl

/-- The table has the names that are visited, each with its expansion. -/
theorem expandIn_spec {constants table : Constants} {order : List String}
    (expanded : constants.expandIn order = .ok table) :
    List.Forall₂ (fun name entry => entry.1 = name ∧ constants.ExpandsTo name entry.2) order
      table := by
  obtain ⟨after, done⟩ := Expander.run'_eq_ok.mp expanded
  refine (Expander.mapM_spec constants.Sound _ ?_ ?_ done).1
  · intro name _ entry known after sound step
    rw [Expander.bind_eq_ok] at step
    obtain ⟨expansion, middle, computed, finished⟩ := step
    rw [Expander.pure_eq_ok] at finished
    obtain ⟨rfl, rfl⟩ := finished
    obtain ⟨expands, middleSound⟩ := expandFrom_spec sound computed
    exact ⟨⟨rfl, expands⟩, middleSound⟩
  · intro name expansion found
    cases found

theorem body?_eq_none_of_not_mem {constants : Constants} {name : String}
    (absent : name ∉ constants.names) : constants.body? name = none := by
  induction constants with
  | nil => rfl
  | cons entry rest ih =>
    simp only [names, List.map_cons, List.mem_cons, not_or] at absent
    rw [body?_cons, if_neg absent.1]
    exact ih absent.2

/-- A name that has been visited has its expansion in the table, and no other name has any. -/
theorem lookup_of_expandIn {constants table : Constants} {order : List String}
    (expanded : constants.expandIn order = .ok table) (name : String) :
    (name ∉ order ∧ table.body? name = none) ∨
      ∃ result, table.body? name = some result ∧ constants.ExpandsTo name result := by
  have entries := expandIn_spec expanded
  clear expanded
  induction entries with
  | nil => exact .inl ⟨List.not_mem_nil, rfl⟩
  | @cons visited entry order table head _ ih =>
    obtain ⟨sameName, expands⟩ := head
    rw [body?_cons, sameName, List.mem_cons]
    by_cases isName : name = visited
    · rw [if_pos isName]
      exact .inr ⟨entry.2, rfl, isName ▸ expands⟩
    · simpa [isName] using ih

theorem lookup_of_expandAll {constants table : Constants}
    (expanded : constants.expandAll = .ok table) (name : String) :
    (constants.body? name = none ∧ table.body? name = none) ∨
      ∃ result, table.body? name = some result ∧ constants.ExpandsTo name result := by
  rw [expandAll_eq_expandIn] at expanded
  rcases lookup_of_expandIn expanded name with ⟨absent, unknown⟩ | found
  · exact .inl ⟨body?_eq_none_of_not_mem absent, unknown⟩
  · exact .inr found

theorem body?_of_expandAll {constants table : Constants}
    (expanded : constants.expandAll = .ok table) {name : String} {body : List Instr}
    (defined : constants.body? name = some body) :
    ∃ result, table.body? name = some result ∧ Expansion constants body result := by
  rcases lookup_of_expandAll expanded name with
    ⟨undefined, -⟩ | ⟨result, known, other, hasBody, expansion⟩
  · rw [defined] at undefined
    cases undefined
  · rw [defined] at hasBody
    cases hasBody
    exact ⟨result, known, expansion⟩

theorem body?_eq_none_of_expandAll {constants table : Constants}
    (expanded : constants.expandAll = .ok table) {name : String}
    (undefined : constants.body? name = none) : table.body? name = none := by
  rcases lookup_of_expandAll expanded name with ⟨-, unknown⟩ | ⟨_, -, body, hasBody, -⟩
  · exact unknown
  · rw [undefined] at hasBody
    cases hasBody

/-- Every expansion in the table is that of a constant. -/
theorem exists_of_expandAll {constants table : Constants}
    (expanded : constants.expandAll = .ok table) {name : String} {result : List Instr}
    (known : table.body? name = some result) :
    ∃ body, constants.body? name = some body ∧ Expansion constants body result := by
  rcases lookup_of_expandAll expanded name with
    ⟨-, unknown⟩ | ⟨other, alsoKnown, body, hasBody, expansion⟩
  · rw [known] at unknown
    cases unknown
  · rw [known] at alsoKnown
    cases alsoKnown
    exact ⟨body, hasBody, expansion⟩

/-- What expanded constants still refer to, they make closures of, and constants refer to it. -/
theorem refersWithin_of_expandAll {constants table : Constants}
    (expanded : constants.expandAll = .ok table) {names : String → Prop}
    (ofConstants : ∀ name body, constants.body? name = some body →
      ∀ instr ∈ body, instr.RefersWithin names) :
    ∀ name result, table.body? name = some result →
      ∀ instr ∈ result, instr.RefersWithin fun read => names read ∧ instr.opcode = .ldf := by
  intro name result known instr member read refers
  obtain ⟨body, hasBody, expansion⟩ := exists_of_expandAll expanded known
  have ofExpansion := expansion.forall_mem (Instr.RefersWithin names) (fun _ _ ofInstr => ofInstr)
    ofConstants (ofConstants name body hasBody)
  exact ⟨ofExpansion instr member read refers,
    (expansion.reference_of_mem instr member read refers).2⟩

/-! ## When there is an expansion -/

/-- The constant `first` refers to the constant `second`. -/
def Refers (constants : Constants) (first second : String) : Prop :=
  ∃ body, constants.body? first = some body ∧
    (∃ instr ∈ body, instr.reference? = some second) ∧ (constants.body? second).isSome

theorem Refers.defined {constants : Constants} {first second : String}
    (refers : constants.Refers first second) :
    (constants.body? first).isSome ∧ (constants.body? second).isSome := by
  obtain ⟨body, hasBody, -, isConstant⟩ := refers
  exact ⟨by rw [hasBody]; rfl, isConstant⟩

/-- No constant refers to itself through constants. -/
def Acyclic (constants : Constants) : Prop :=
  ∀ name, ¬ Relation.TransGen constants.Refers name name

/-- Whatever a constant reads is a constant. -/
def ReadsConstants (constants : Constants) : Prop :=
  ∀ name body, constants.body? name = some body → ∀ instr ∈ body, ∀ read,
    instr.opcode = .ld → instr.reference? = some read → (constants.body? read).isSome

theorem mem_names_of_body? {constants : Constants} {name : String}
    (defined : (constants.body? name).isSome) : name ∈ constants.names := by
  induction constants with
  | nil => simp at defined
  | cons entry rest ih =>
    rw [body?_cons] at defined
    split at defined
    · rename_i isName
      simp [names, isName]
    · exact List.mem_cons_of_mem _ (ih defined)

/-- The constants of a path are being expanded: they differ from each other, and each of them refers
to `name` through the later ones. -/
structure Opens (constants : Constants) (path : List String) (name : String) : Prop where
  nodup : path.Nodup
  defined : ∀ opened ∈ path, (constants.body? opened).isSome
  leads : ∀ opened ∈ path, Relation.TransGen constants.Refers opened name

namespace Opens

variable {constants : Constants} {path : List String} {name : String}

theorem root (name : String) : constants.Opens [] name := ⟨.nil, by simp, by simp⟩

/-- One more constant is open when what it refers to is expanded. -/
theorem extend (opens : constants.Opens path name) (notOpen : name ∉ path) {referred : String}
    (step : constants.Refers name referred) : constants.Opens (name :: path) referred := by
  refine ⟨List.nodup_cons.mpr ⟨notOpen, opens.nodup⟩, ?_, ?_⟩
  · simpa [step.defined.1] using opens.defined
  · intro opened member
    rcases List.mem_cons.mp member with rfl | inPath
    · exact .single step
    · exact (opens.leads opened inPath).tail step

/-- A path of distinct constants is no longer than there are constants. -/
theorem length_le (opens : constants.Opens path name) : path.length ≤ constants.length := by
  have subset : path ⊆ constants.names :=
    fun other member => mem_names_of_body? (opens.defined other member)
  have bound := (List.subperm_of_subset opens.nodup subset).length_le
  simpa [names] using bound

end Opens

/-- What can be wrong with constants: one refers to itself through constants, or one reads a name
that is no constant. -/
inductive Fault (constants : Constants) : CompileError → Prop where
  | cycle {name : String} (closed : Relation.TransGen constants.Refers name name) :
    Fault constants (.cyclicConstant name)
  | unbound {owner read : String} {body : List Instr} {instr : Instr}
      (hasBody : constants.body? owner = some body) (member : instr ∈ body)
      (isLoad : instr.opcode = .ld) (refers : instr.reference? = some read)
      (undefined : constants.body? read = none) :
    Fault constants (.unresolvedSymbol { symbol := read, block := context owner })

/-- A report about an instruction of a constant is one about a constant that it refers to, or about
itself. -/
theorem fault_of_expandInstr {constants : Constants} {owner : String} {body : List Instr}
    {instr : Instr} {expansion : String → Expander (List Instr)} {known : Constants}
    {error : CompileError} (hasBody : constants.body? owner = some body) (member : instr ∈ body)
    (ofReferred : ∀ referred, constants.Refers owner referred → ∀ known,
      expansion referred known = .error error → constants.Fault error)
    (failed : constants.expandInstr owner expansion instr known = .error error) :
    constants.Fault error := by
  cases refers : instr.reference? with
  | none =>
    simp only [expandInstr, refers] at failed
    cases failed
  | some referred =>
    simp only [expandInstr, refers] at failed
    by_cases isConstant : (constants.body? referred).isSome
    · rw [if_pos isConstant] at failed
      rcases Expander.bind_eq_error failed with inside | ⟨inner, middle, -, impossible⟩
      · exact ofReferred referred ⟨body, hasBody, ⟨instr, member, refers⟩, isConstant⟩ known inside
      · cases impossible
    · rw [if_neg isConstant] at failed
      by_cases isLoad : instr.opcode = .ld
      · rw [if_pos isLoad] at failed
        cases failed
        exact .unbound hasBody member isLoad refers (by simpa using isConstant)
      · rw [if_neg isLoad] at failed
        cases failed

/-- Nothing but faults is reported while a path is open, provided that there is a level for every
constant that can still be opened. -/
theorem fault_of_expandFrom {constants : Constants} {error : CompileError} {depth : Nat} :
    ∀ {path : List String} {name : String} {known : Constants}, constants.Opens path name →
    (constants.body? name).isSome → constants.length < path.length + depth →
    constants.expandFrom depth path name known = .error error → constants.Fault error := by
  induction depth with
  | zero =>
    intro path name known opens _ enough _
    have bound := opens.length_le
    omega
  | succ depth ih =>
    intro path name known opens defined enough failed
    have computing := Expander.once_eq_error failed
    by_cases isOpen : name ∈ path
    · rw [if_pos isOpen] at computing
      cases computing
      exact .cycle (opens.leads name isOpen)
    · obtain ⟨body, hasBody⟩ := Option.isSome_iff_exists.mp defined
      rw [if_neg isOpen] at computing
      simp only [hasBody] at computing
      rcases Expander.bind_eq_error computing with inBody | ⟨parts, middle, -, impossible⟩
      · obtain ⟨instr, member, table, instrFailed⟩ := Expander.exists_of_mapM_eq_error inBody
        refine fault_of_expandInstr hasBody member (fun referred step known inside => ?_) instrFailed
        -- one more constant is open, and there is one level less to go
        exact ih (opens.extend isOpen step) step.defined.2 (by simp only [List.length_cons]; omega)
          inside
      · cases impossible

/-- Whatever the order in which constants are visited, nothing but faults is reported. -/
theorem fault_of_expandIn {constants : Constants} {order : List String} {error : CompileError}
    (visits : ∀ name ∈ order, (constants.body? name).isSome)
    (failed : constants.expandIn order = .error error) : constants.Fault error := by
  obtain ⟨name, member, known, nameFailed⟩ :=
    Expander.exists_of_mapM_eq_error (Expander.run'_eq_error.mp failed)
  rcases Expander.bind_eq_error nameFailed with expanding | ⟨expansion, middle, -, impossible⟩
  · exact fault_of_expandFrom (.root name) (visits name member) (by simp) expanding
  · cases impossible

theorem not_fault {constants : Constants} (acyclic : constants.Acyclic)
    (reads : constants.ReadsConstants) (error : CompileError) : ¬ constants.Fault error := by
  intro fault
  cases fault with
  | cycle closed => exact acyclic _ closed
  | unbound hasBody member isLoad refers undefined =>
    have defined := reads _ _ hasBody _ member _ isLoad refers
    simp [undefined] at defined

/-- A constant that expands opens no endless chain of constants. -/
theorem acc_of_expansion {constants : Constants} {code result : List Instr}
    (expansion : Expansion constants code result) :
    ∀ instr ∈ code, ∀ name, instr.reference? = some name → (constants.body? name).isSome →
      Acc (fun second first => constants.Refers first second) name := by
  induction expansion with
  | nil => simp
  | keep kept _ ih =>
    intro instr member name refers defined
    rcases List.mem_cons.mp member with rfl | inRest
    · rw [(kept name refers).1] at defined
      cases defined
    · exact ih instr inRest name refers defined
  | inline refers hasBody _ _ ihInside ihNext =>
    intro instr member name otherRefers defined
    rcases List.mem_cons.mp member with rfl | inRest
    · rw [refers] at otherRefers
      cases otherRefers
      -- what this constant refers to has been expanded inside
      constructor
      rintro second ⟨body, otherBody, ⟨inner, isInner, innerRefers⟩, secondDefined⟩
      rw [hasBody] at otherBody
      cases otherBody
      exact ihInside inner isInner second innerRefers secondDefined
    · exact ihNext instr inRest name otherRefers defined

theorem reads_of_expansion {constants : Constants} {code result : List Instr}
    (expansion : Expansion constants code result) :
    ∀ instr ∈ code, ∀ read, instr.opcode = .ld → instr.reference? = some read →
      (constants.body? read).isSome := by
  induction expansion with
  | nil => simp
  | keep kept _ ih =>
    intro instr member read isLoad refers
    rcases List.mem_cons.mp member with rfl | inRest
    · rw [(kept read refers).2] at isLoad
      cases isLoad
    · exact ih instr inRest read isLoad refers
  | inline refers hasBody _ _ _ ihNext =>
    intro instr member read isLoad otherRefers
    rcases List.mem_cons.mp member with rfl | inRest
    · rw [refers] at otherRefers
      cases otherRefers
      rw [hasBody]
      rfl
    · exact ihNext instr inRest read isLoad otherRefers

theorem isSome_of_mem_names {constants : Constants} {name : String}
    (member : name ∈ constants.names) : (constants.body? name).isSome := by
  induction constants with
  | nil => cases member
  | cons entry rest ih =>
    rw [body?_cons]
    split
    · rfl
    · rename_i other
      rcases List.mem_cons.mp member with isEntry | inRest
      · exact absurd isEntry other
      · exact ih inRest

theorem not_transGen_of_acc {constants : Constants} {name : String}
    (accessible : Acc (fun second first => constants.Refers first second) name) :
    ¬ Relation.TransGen constants.Refers name name := by
  induction accessible with
  | intro name _ ih =>
    intro cycle
    obtain ⟨second, first, back⟩ := Relation.TransGen.head'_iff.mp cycle
    exact ih second first (Relation.TransGen.tail' back first)

/-- Constants that all have expansions contain no fault. -/
theorem closed_of_expandsTo {constants : Constants}
    (expands : ∀ name, (constants.body? name).isSome → ∃ result, constants.ExpandsTo name result) :
    constants.Acyclic ∧ constants.ReadsConstants := by
  constructor
  · intro name cycle
    obtain ⟨second, ⟨body, hasBody, -⟩, -⟩ := Relation.TransGen.head'_iff.mp cycle
    obtain ⟨result, otherBody, sameBody, expansion⟩ := expands name (by simp [hasBody])
    -- from a constant on a cycle one could go on forever
    refine not_transGen_of_acc ⟨name, ?_⟩ cycle
    rintro third ⟨thirdBody, hasThird, ⟨instr, member, refers⟩, defined⟩
    rw [hasThird] at sameBody
    cases sameBody
    exact acc_of_expansion expansion instr member third refers defined
  · intro name body hasBody instr member read isLoad refers
    obtain ⟨result, otherBody, sameBody, expansion⟩ := expands name (by simp [hasBody])
    rw [hasBody] at sameBody
    cases sameBody
    exact reads_of_expansion expansion instr member read isLoad refers

/-- Constants can be expanded, in whatever order they are visited, exactly where none refers to
itself and none reads a variable. -/
theorem expandIn_iff {constants : Constants} {order : List String}
    (visits : ∀ name, name ∈ order ↔ name ∈ constants.names) :
    (∃ table, constants.expandIn order = .ok table) ↔
      constants.Acyclic ∧ constants.ReadsConstants := by
  constructor
  · rintro ⟨table, expanded⟩
    refine closed_of_expandsTo fun name defined => ?_
    rcases lookup_of_expandIn expanded name with ⟨absent, -⟩ | ⟨result, -, expands⟩
    · exact absurd ((visits name).mpr (mem_names_of_body? defined)) absent
    · exact ⟨result, expands⟩
  · rintro ⟨acyclic, reads⟩
    cases expanded : constants.expandIn order with
    | ok table => exact ⟨table, rfl⟩
    | error error =>
      have defined : ∀ name ∈ order, (constants.body? name).isSome :=
        fun name member => isSome_of_mem_names ((visits name).mp member)
      exact absurd (fault_of_expandIn defined expanded) (not_fault acyclic reads error)

/-- The same for the order of the linker. -/
theorem expandAll_iff {constants : Constants} :
    (∃ table, constants.expandAll = .ok table) ↔
      constants.Acyclic ∧ constants.ReadsConstants := by
  rw [expandAll_eq_expandIn]
  exact expandIn_iff fun _ => Iff.rfl

end Constants

end Secd
