import Secd.Proofs.CallingConvention
import Secd.Proofs.Evaluation

namespace Secd

open Results

/-! # Listings do what programs mean

The machine performs an evaluation (`Performs`): where there is a value it gets to a state that
holds it, where the evaluation faults it stops, and where calls are nested too deep it has run for
as many steps. Performing goes through `bind`, so the code of an expression is followed rule by rule
of `Emits`, the code of a body rule by rule of `Realises`, and calls by induction on how deep they
are nested.

The variables in reach are the frames from the environment outward (`Represents`). Frames are only
ever added to the heap, so what they represent lasts.
-/

/-! ## Performing an evaluation -/

/-- The machine does from a state on what an evaluation says; `after` tells the state for a value.
When the evaluation has been starved, a timeout says nothing. -/
def Performs {α : Type} (alu : Alu) (code : List Instr) (starved : Prop) (calls : Nat) (state : State)
    (after : α → State → Prop) : Outcome α → Prop
  | .ok result => ∃ count last, Runs alu code count state last ∧ after result last
  | .error .fault => ∃ count last, Runs alu code count state last ∧ last.Stuck alu code
  | .error .timeout => starved ∨ ∃ count last, Runs alu code count state last ∧ calls ≤ count

section

variable {α β : Type} {alu : Alu} {code : List Instr} {starved : Prop} {calls : Nat}
  {state middle : State} {after : α → State → Prop} {outcome : Outcome α}

theorem performs_ok {result : α} {count : Nat} (runs : Runs alu code count state middle)
    (holds : after result middle) : Performs alu code starved calls state after (.ok result) :=
  ⟨count, middle, runs, holds⟩

/-- An instruction that cannot be carried out stops the machine. -/
theorem performs_fault {instr : Instr} (fetched : fetch code state.pc = some instr)
    (noReturn : instr ≠ .plain .rtn) (fails : execute alu instr state = none) :
    Performs alu code starved calls state after (.error .fault) := by
  refine ⟨0, state, .refl state, ?_, fun finished => ?_⟩
  · rw [step_of_fetch fetched, fails]
  · rw [State.Finished, fetched] at finished
    exact noReturn (Option.some.inj finished.1)

namespace Performs

theorem imp {weaker : α → State → Prop} (performs : Performs alu code starved calls state after outcome)
    (implies : ∀ result last, after result last → weaker result last) :
    Performs alu code starved calls state weaker outcome := by
  cases outcome with
  | ok result =>
    obtain ⟨count, last, runs, holds⟩ := performs
    exact ⟨count, last, runs, implies result last holds⟩
  | error halt => cases halt <;> exact performs

/-- What is performed after a run, which may count towards the steps of a timeout. -/
theorem of_runs {count total : Nat} (runs : Runs alu code count state middle)
    (performs : Performs alu code starved calls middle after outcome) (enough : total ≤ count + calls) :
    Performs alu code starved total state after outcome := by
  cases outcome with
  | ok result =>
    obtain ⟨more, last, later, holds⟩ := performs
    exact ⟨_, last, runs.trans later, holds⟩
  | error halt =>
    cases halt with
    | fault =>
      obtain ⟨more, last, later, stuck⟩ := performs
      exact ⟨_, last, runs.trans later, stuck⟩
    | timeout =>
      rcases performs with starves | ⟨more, last, later, long⟩
      · exact .inl starves
      · exact .inr ⟨_, last, runs.trans later, by omega⟩

/-- A value that has been reached may be followed by more steps. -/
theorem andThen {final : α → State → Prop}
    (performs : Performs alu code starved calls state after outcome)
    (later : ∀ result middle, after result middle →
      ∃ last, step alu code middle = some last ∧ final result last) :
    Performs alu code starved calls state final outcome := by
  cases outcome with
  | ok result =>
    obtain ⟨count, middle, runs, holds⟩ := performs
    obtain ⟨last, next, holdsLast⟩ := later result middle holds
    exact ⟨_, last, runs.trans (.single next), holdsLast⟩
  | error halt => cases halt <;> exact performs

theorem bind {next : α → Outcome β} {final : β → State → Prop}
    (first : Performs alu code starved calls state after outcome)
    (second : ∀ result middle, outcome = .ok result → after result middle →
      Performs alu code starved calls middle final (next result)) :
    Performs alu code starved calls state final (outcome >>= next) := by
  cases outcome with
  | ok result =>
    obtain ⟨count, middle, runs, holds⟩ := first
    exact (second result middle rfl holds).of_runs runs (Nat.le_add_left _ _)
  | error halt => cases halt <;> exact first

end Performs

/-- An operation on the stack; the machine stops where it has no result. -/
theorem performs_operation {φ : Type} {f : φ → Closure} {opcode : Opcode}
    (computes : opcode.isOperation) (fetched : fetch code state.pc = some (.plain opcode))
    {result : Option (Value φ)} {rest : List (Value Closure)}
    (computed : opcode.compute alu state.stack = result.map fun value => value.map f :: rest) :
    Performs alu code starved calls state (fun value last =>
      last = { state with pc := state.pc + 1, stack := value.map f :: rest }) (.ofOption result) := by
  have executed : execute alu (.plain opcode) state = (result.map fun value => value.map f :: rest).map
      fun stack => { state with pc := state.pc + 1, stack } := by
    rw [execute_operation computes, computed]
  cases result with
  | none =>
    refine performs_fault fetched (fun same => ?_) executed
    cases same
    cases computes
  | some value => exact performs_ok (.single ((step_of_fetch fetched).trans executed)) rfl

end

/-! ## Variables and frames -/

section

variable {φ : Type} {f : φ → Closure}

/-- The frames from an environment outward hold the values of the variables; `f` gives the closures
of functions. -/
def Represents (f : φ → Closure) (heap : List Frame) : Option Nat → Env φ → Prop
  | address, [] => address = none
  | address, frame :: outer => ∃ number parent, address = some number ∧
    heap[number]? = some ⟨frame.values.map fun value => some (value.map f), parent⟩ ∧
    Represents f heap parent outer

/-- Later frames change nothing. -/
theorem Represents.extend {heap : List Frame} (extra : List Frame) : ∀ {env : Env φ}
    {address : Option Nat}, Represents f heap address env → Represents f (heap ++ extra) address env
  | [], _, represents => represents
  | _ :: _, _, ⟨number, parent, same, found, outer⟩ => by
    have bound := (List.getElem?_eq_some_iff.mp found).1
    exact ⟨number, parent, same, by rwa [List.getElem?_append_left bound], outer.extend extra⟩

theorem Represents.eq_nil {heap : List Frame} {env : Env φ} (represents : Represents f heap none env) :
    env = [] := by
  cases env with
  | nil => rfl
  | cons frame outer =>
    obtain ⟨_, _, same, _⟩ := represents
    cases same

theorem Env.find?_eq_none {name : String} : ∀ {env : Env φ}, env.scope.address? name = none →
    env.find? name = none
  | [], _ => rfl
  | frame :: outer, absent => by
    change Scope.address? (frame.names :: Env.scope outer) name = none at absent
    cases inFrame : frame.names.idxOf? name with
    | some index =>
      rw [Scope.address?_cons_of_some _ inFrame] at absent
      cases absent
    | none =>
      rw [Scope.address?_cons_of_none _ inFrame, Option.map_eq_none_iff] at absent
      simp only [Env.find?, inFrame]
      exact find?_eq_none absent

/-- The address of a variable leads to the slot that holds its value. -/
theorem Represents.frameAt {heap : List Frame} {name : String} : ∀ {env : Env φ} {start : Nat}
    {address : Address}, Represents f heap (some start) env → env.scope.address? name = some address →
      ∃ (values : List (Value φ)) (parent : Option Nat),
        Secd.frameAt heap start address.depth = some ⟨values.map fun value => some (value.map f), parent⟩ ∧
        env.find? name = some values[address.index]?
  | frame :: outer, start, address, ⟨number, parent, same, isFrame, further⟩, found => by
    cases same
    change Scope.address? (frame.names :: Env.scope outer) name = some address at found
    cases inFrame : frame.names.idxOf? name with
    | some index =>
      rw [Scope.address?_cons_of_some _ inFrame] at found
      cases found
      exact ⟨frame.values, parent, isFrame, by simp only [Env.find?, inFrame]⟩
    | none =>
      rw [Scope.address?_cons_of_none _ inFrame, Option.map_eq_some_iff] at found
      obtain ⟨inner, isInner, rfl⟩ := found
      cases parent with
      | none =>
        cases further.eq_nil
        cases isInner
      | some parent =>
        obtain ⟨values, outermost, isFound, read⟩ := further.frameAt isInner
        refine ⟨values, outermost, ?_, ?_⟩
        · simp [Address.outward, Secd.frameAt, isFrame, isFound]
        · simp only [Env.find?, inFrame]
          exact read

/-- The state after some values have been pushed; frames may have been added. -/
def Pushed (f : φ → Closure) (state : State) (pc : Nat) (values : List (Value φ)) (last : State) :
    Prop :=
  ∃ extra, last = { state with
    pc
    stack := (values.map (Value.map f)).reverse ++ state.stack
    heap := state.heap ++ extra }

/-- The variables in reach are `env`, and those in reach of the declarations are `home`. -/
structure Stands (f : φ → Closure) (home env : Env φ) (state : State) : Prop where
  inner : Represents f state.heap (some state.env) env
  outer : Represents f state.heap (some 1) home

namespace Pushed

variable {state middle last : State} {pc next : Nat} {values more : List (Value φ)}

theorem pc_eq (pushed : Pushed f state pc values last) : last.pc = pc := by
  obtain ⟨extra, rfl⟩ := pushed
  rfl

theorem stack_eq (pushed : Pushed f state pc values last) :
    last.stack = (values.map (Value.map f)).reverse ++ state.stack := by
  obtain ⟨extra, rfl⟩ := pushed
  rfl

theorem trans (first : Pushed f state pc values middle) (second : Pushed f middle next more last) :
    Pushed f state next (values ++ more) last := by
  obtain ⟨extra, rfl⟩ := first
  obtain ⟨further, rfl⟩ := second
  exact ⟨extra ++ further, by simp⟩

theorem stands (pushed : Pushed f state pc values last) {home env : Env φ}
    (stands : Stands f home env state) : Stands f home env last := by
  obtain ⟨extra, rfl⟩ := pushed
  exact ⟨stands.inner.extend extra, stands.outer.extend extra⟩

/-- Values on top of the stack are replaced by one. -/
theorem replace (pushed : Pushed f state pc values middle) {value : Value φ}
    (replaced : ∃ extra, last = { middle with
      pc := next
      stack := value.map f :: state.stack
      heap := middle.heap ++ extra }) :
    Pushed f state next [value] last := by
  obtain ⟨extra, rfl⟩ := pushed
  obtain ⟨further, rfl⟩ := replaced
  exact ⟨extra ++ further, by simp⟩

end Pushed

/-! ## Single steps of expressions -/

section

variable {alu : Alu} {code : List Instr} {starved : Prop} {calls : Nat} {state : State}

theorem performs_push {value : Value φ} {instr : Instr} (fetched : fetch code state.pc = some instr)
    (executed : execute alu instr state = some (state.push (value.map f))) :
    Performs alu code starved calls state (fun result => Pushed f state (state.pc + 1) [result])
      (.ok value) :=
  performs_ok (.single ((step_of_fetch fetched).trans executed)) ⟨[], by simp [State.push]⟩

/-- A variable is loaded from its address. -/
theorem performs_load {env : Env φ} {name : String} {address : Address}
    (represents : Represents f state.heap (some state.env) env)
    (found : env.scope.address? name = some address) (depthSmall : address.depth < 2 ^ 63)
    (indexSmall : address.index < 2 ^ 63) (fetched : fetch code state.pc = some (.ldAddress address))
    (otherwise : Outcome (Value φ)) :
    Performs alu code starved calls state (fun result => Pushed f state (state.pc + 1) [result])
      (env.read otherwise name) := by
  obtain ⟨values, parent, isFrame, isVariable⟩ := represents.frameAt found
  have executed : execute alu (.ldAddress address) state =
      (values[address.index]?.map fun value => value.map f).map state.push := by
    rw [execute_ldAddress depthSmall indexSmall]
    simp only [State.slot, isFrame, Option.bind_eq_bind, Option.bind_some, List.getElem?_map]
    cases values[address.index]? <;> rfl
  rw [Env.read, isVariable]
  cases content : values[address.index]? with
  | none =>
    rw [content] at executed
    exact performs_fault fetched (by simp [Instr.ldAddress, Instr.plain]) executed
  | some value =>
    rw [content] at executed
    exact performs_push fetched executed

/-- The machine has no inequality: the operands are compared, and the result with zero. -/
theorem performs_notEq (here : CodeAt code state.pc [.plain .ceq, .ldc 0, .plain .ceq])
    {left right : Value φ} {rest : List (Value Closure)}
    (isStack : state.stack = right.map f :: left.map f :: rest) :
    Performs alu code starved calls state
      (fun value last => last = { state with pc := state.pc + 3, stack := value.map f :: rest })
      (.ofOption (Value.combine (BinaryOp.onInts alu .notEq) left right)) := by
  have compared : execute alu (.plain .ceq) state =
      (Value.combine (BinaryOp.onInts alu .eq) left right).map fun value =>
        { state with pc := state.pc + 1, stack := value.map f :: rest } := by
    rw [execute_operation rfl, isStack, Opcode.compute, onWords_eq_combine, Option.map_map]
    rfl
  cases left with
  | int left =>
    cases right with
    | int right =>
      let answered : State :=
        { state with pc := state.pc + 1, stack := .int (truthWord (left == right)) :: rest }
      have first : step alu code state = some answered := (step_of_fetch here.head).trans compared
      have second : step alu code answered = some (answered.push (.int 0)) :=
        (step_of_fetch here.tail.head).trans rfl
      have third : step alu code (answered.push (.int 0)) = some
          { state with pc := state.pc + 3, stack := .int (truthWord (left != right)) :: rest } := by
        rw [bne, ← truthWord_beq_zero]
        exact (step_of_fetch here.tail.tail.head).trans rfl
      exact performs_ok (.step first (.step second (.single third))) rfl
    | _ => exact performs_fault here.head (by simp [Instr.plain]) compared
  | _ => cases right <;> exact performs_fault here.head (by simp [Instr.plain]) compared

/-- The instructions after the operands of an operator. -/
theorem performs_tail {op : BinaryOp} {tail : List Instr} (known : op.tail? = some tail)
    (here : CodeAt code state.pc tail) {left right : Value φ} {rest : List (Value Closure)}
    (isStack : state.stack = ((op.pushed left right).map (Value.map f)).reverse ++ rest) :
    Performs alu code starved calls state
      (fun value last => last = { state with pc := state.pc + tail.length, stack := value.map f :: rest })
      (.ofOption (Value.combine (op.onInts alu) left right)) := by
  cases op <;> cases known
  case notEq => exact performs_notEq here isStack
  -- the operands of these two lie the other way round
  case lt | ltEq =>
    rw [Value.combine_swap]
    refine performs_operation rfl here.head ?_
    rw [isStack]
    exact onWords_eq_combine _ right left rest
  all_goals
    refine performs_operation rfl here.head ?_
    rw [isStack]
    exact onWords_eq_combine _ left right rest

/-- Pairs are built from the top of the stack down. -/
theorem runs_cons {rest : List (Value Closure)} : ∀ (heads : List (Value Closure))
    (tail : Value Closure) (state : State),
    CodeAt code state.pc (List.replicate heads.length (.plain .cons)) →
      state.stack = tail :: (heads ++ rest) →
      Runs alu code heads.length state { state with
        pc := state.pc + heads.length
        stack := heads.foldl (fun built head => .pair head built) tail :: rest }
  | [], _, ⟨_, _, _, _, _⟩, _, isStack => by
    cases isStack
    exact .refl _
  | head :: heads, tail, ⟨pc, stack, env, control, heap⟩, here, isStack => by
    cases isStack
    let built : State := ⟨pc + 1, .pair head tail :: (heads ++ rest), env, control, heap⟩
    have first : step alu code ⟨pc, tail :: (head :: heads ++ rest), env, control, heap⟩ = some built :=
      (step_of_fetch here.head).trans rfl
    have later := runs_cons heads (.pair head tail) built here.tail rfl
    rw [Nat.add_assoc, Nat.add_comm 1] at later
    exact .step first later

theorem Value.map_foldr_pair (values : List (Value φ)) (last : Value φ) :
    (values.foldr .pair last).map f = (values.map (Value.map f)).foldr .pair (last.map f) := by
  induction values with
  | nil => rfl
  | cons head rest ih => rw [List.foldr_cons, Value.map, ih, List.map_cons, List.foldr_cons]

/-- The instructions after the elements of a list. -/
theorem runs_list (alu : Alu) (values : List (Value φ))
    (here : CodeAt code state.pc ((chainElements values.length).map Instr.uncommented))
    {rest : List (Value Closure)} (isStack : state.stack = (values.map (Value.map f)).reverse ++ rest) :
    ∃ count, Runs alu code count state { state with
      pc := state.pc + (chainElements values.length).length
      stack := (Value.ofList values).map f :: rest } := by
  rcases List.eq_nil_or_concat values with rfl | ⟨heads, last, rfl⟩
  case inl =>
    have pushed : step alu code state = some (state.push (.int 0)) := (step_of_fetch here.head).trans rfl
    rw [State.push, isStack] at pushed
    exact ⟨1, .single pushed⟩
  case inr =>
    rw [List.concat_eq_append] at here isStack ⊢
    have chain : chainElements (heads ++ [last]).length = List.replicate heads.length (.plain .cons) := by
      simp [chainElements]
    have bare : (chainElements (heads ++ [last]).length).map Instr.uncommented =
        List.replicate ((heads.map (Value.map f)).reverse).length (.plain .cons) := by
      rw [chain, List.map_replicate, List.length_reverse, List.length_map]
      rfl
    rw [bare] at here
    rw [Value.ofList_concat, Value.map_foldr_pair, chain, List.length_replicate]
    rw [← List.length_map (Value.map f), ← List.length_reverse, ← List.foldl_reverse]
    exact ⟨_, runs_cons _ (last.map f) state here (by simpa using isStack)⟩

end

end

/-- A call of a function or of a primitive that has a value and gets as many arguments as it takes.
-/
structure CallSite.Proper (site : CallSite) : Prop where
  counted : site.argCount < 2 ^ 63
  valued : ∀ {primitive : Primitive}, Primitive.find? site.func = some primitive →
    primitive.opcode ≠ .brk ∧ primitive.opcode ≠ .dbug
  arity : ∀ {primitive : Primitive}, Primitive.find? site.func = some primitive →
    site.argCount = primitive.arity

/-! ## Code that delivers values -/

/-- A run that is compared with an evaluation: the closures of functions, the machine, when the
evaluation has been starved and how deep its calls may be nested, and the variables that every
function has in reach. -/
structure Comparison (φ : Type) where
  closure : φ → Closure
  alu : Alu
  code : List Instr
  starved : Prop
  calls : Nat
  home : Env φ

namespace Comparison

variable {φ : Type}

/-- The machine does from a state on what an evaluation says. -/
abbrev Performs {α : Type} (comparison : Comparison φ) (state : State) (after : α → State → Prop)
    (outcome : Outcome α) : Prop :=
  Secd.Performs comparison.alu comparison.code comparison.starved comparison.calls state after outcome

/-- Code that leaves a value on the stack. -/
def Delivers (comparison : Comparison φ) (env : Env φ) (part : List Instr)
    (outcome : Outcome (Value φ)) : Prop :=
  ∀ state : State, CodeAt comparison.code state.pc part →
    Stands comparison.closure comparison.home env state →
    comparison.Performs state
      (fun value => Pushed comparison.closure state (state.pc + part.length) [value]) outcome

/-- Code that leaves some values on the stack. -/
def DeliversAll (comparison : Comparison φ) (env : Env φ) (part : List Instr)
    (outcome : Outcome (List (Value φ))) : Prop :=
  ∀ state : State, CodeAt comparison.code state.pc part →
    Stands comparison.closure comparison.home env state →
    comparison.Performs state (Pushed comparison.closure state (state.pc + part.length)) outcome

/-- The instruction `AP` on top of a function and its arguments does what a call gives. -/
def Applies (comparison : Comparison φ) (apply : Calls φ) : Prop :=
  ∀ (callee : Value φ) (args : List (Value φ)) (state : State) (rest : List (Value Closure)),
    fetch comparison.code state.pc = some (.ap args.length) → args.length < 2 ^ 63 →
    state.stack = callee.map comparison.closure ::
      ((args.map (Value.map comparison.closure)).reverse ++ rest) →
    Represents comparison.closure state.heap (some 1) comparison.home →
    comparison.Performs state (fun value last => ∃ extra, last = { state with
      pc := state.pc + 1
      stack := value.map comparison.closure :: rest
      heap := state.heap ++ extra }) (apply callee args)

variable {comparison : Comparison φ} {env : Env φ} {meaning : Meaning φ} {part out : List Instr}

theorem deliversAll_nil : comparison.DeliversAll env [] (.ok []) :=
  fun state _ _ => performs_ok (.refl state) ⟨[], by simp⟩

theorem Delivers.cons {expr : Expr} (first : comparison.Delivers env part (expr.eval meaning))
    {rest : List Expr} (second : comparison.DeliversAll env out (Expr.evalAll meaning rest)) :
    comparison.DeliversAll env (part ++ out) (Expr.evalAll meaning (expr :: rest)) := by
  intro state here stands
  rw [Expr.evalAll]
  refine (first state here.left stands).bind fun value middle _ pushed => ?_
  have there := pushed.pc_eq
  have later := second middle (there ▸ here.right) (pushed.stands stands)
  refine later.bind fun values last _ more => ?_
  rw [there, Nat.add_assoc, ← List.length_append] at more
  exact performs_ok (.refl last) (pushed.trans more)

theorem DeliversAll.single {expr : Expr}
    (delivers : comparison.DeliversAll env part (Expr.evalAll meaning [expr])) :
    comparison.Delivers env part (expr.eval meaning) := by
  intro state here stands
  have performs := delivers state here stands
  rw [Expr.evalAll, Expr.evalAll] at performs
  cases value : expr.eval meaning with
  | ok result =>
    rw [value] at performs
    exact performs
  | error halt =>
    rw [value] at performs
    cases halt <;> exact performs

theorem delivers_number (value : Int64) :
    comparison.Delivers env [.ldc value] (Expr.eval meaning (.literal (.int value))) := by
  rw [Expr.eval]
  exact fun _ here _ => performs_push here.head rfl

theorem delivers_text (source : String) :
    comparison.Delivers env [.ldcText source] (Expr.eval meaning (.literal (.text source))) := by
  rw [Expr.eval]
  exact fun _ here _ => performs_push here.head rfl

theorem delivers_load (addressable : env.scope.Addressable) {name : String} {address : Address}
    (found : env.scope.address? name = some address) (otherwise : Outcome (Value φ)) :
    comparison.Delivers env [.ldAddress address] (env.read otherwise name) := by
  intro state here stands
  obtain ⟨depthSmall, indexSmall⟩ := addressable name address found
  exact performs_load stands.inner found depthSmall indexSmall here.head otherwise

/-- What follows two values that have been pushed. -/
theorem performs_two {state : State} {pc : Nat} {first second : Expr}
    {next : Value φ → Value φ → Outcome (Value φ)} {after : Value φ → State → Prop}
    (operands : comparison.Performs state (Pushed comparison.closure state pc)
      (Expr.evalAll meaning [first, second]))
    (later : ∀ below above middle, Pushed comparison.closure state pc [below, above] middle →
      comparison.Performs middle after (next below above)) :
    comparison.Performs state after (do
      let below ← first.eval meaning
      let above ← second.eval meaning
      next below above) := by
  rw [Expr.evalAll, Expr.evalAll, Expr.evalAll] at operands
  cases ofFirst : first.eval meaning with
  | error halt =>
    rw [ofFirst] at operands
    cases halt <;> exact operands
  | ok below =>
    cases ofSecond : second.eval meaning with
    | error halt =>
      rw [ofFirst, ofSecond] at operands
      cases halt <;> exact operands
    | ok above =>
      rw [ofFirst, ofSecond] at operands
      obtain ⟨count, middle, runs, pushed⟩ := operands
      exact (later below above middle pushed).of_runs runs (Nat.le_add_left _ _)

theorem DeliversAll.binary {op : BinaryOp} {lhs rhs : Expr} {tail : List Instr}
    (operands : comparison.DeliversAll env part (Expr.evalAll meaning (op.pushed lhs rhs)))
    (known : op.tail? = some tail) (sameAlu : meaning.alu = comparison.alu) :
    comparison.Delivers env (part ++ tail) (Expr.eval meaning (.binary op lhs rhs)) := by
  intro state here stands
  have performs := operands state here.left stands
  -- in whatever order the operands came, the operator finds them on the stack
  have finish : ∀ left right middle,
      Pushed comparison.closure state (state.pc + part.length) (op.pushed left right) middle →
      comparison.Performs middle
        (fun value => Pushed comparison.closure state (state.pc + (part ++ tail).length) [value])
        (.ofOption (Value.combine (op.onInts meaning.alu) left right)) := by
    intro left right middle pushed
    have there := pushed.pc_eq
    rw [sameAlu]
    refine (performs_tail known (there ▸ here.right) pushed.stack_eq).imp fun value last isLast => ?_
    refine pushed.replace ⟨[], ?_⟩
    rw [isLast, there, List.length_append, Nat.add_assoc, List.append_nil]
  rw [Expr.eval]
  unfold BinaryOp.pushed at performs finish
  split
  case isTrue swapped =>
    rw [if_pos swapped] at performs
    refine performs_two performs fun right left middle pushed => finish left right middle ?_
    rwa [if_pos swapped]
  case isFalse straight =>
    rw [if_neg straight] at performs
    refine performs_two performs fun left right middle pushed => finish left right middle ?_
    rwa [if_neg straight]

theorem DeliversAll.primitive {func : String} {primitive : Primitive} {args : List Expr}
    (arguments : comparison.DeliversAll env part (Expr.evalAll meaning args))
    (found : Primitive.find? func = some primitive) (proper : CallSite.Proper ⟨func, args.length⟩) :
    comparison.Delivers env (part ++ [.plain primitive.opcode])
      (Expr.eval meaning (.call func args)) := by
  intro state here stands
  simp only [Expr.eval, found]
  refine (arguments state here.left stands).bind fun values middle evaluated pushed => ?_
  have there := pushed.pc_eq
  have arity : values.length = primitive.arity :=
    (Expr.length_of_evalAll evaluated).trans (proper.arity found)
  have computed : primitive.opcode.compute comparison.alu middle.stack =
      (primitive.result values).map fun value => value.map comparison.closure :: state.stack := by
    rw [pushed.stack_eq]
    exact Primitive.compute_eq found (proper.valued found) arity state.stack
  refine (performs_operation (Primitive.isOperation_of_find? found) (there ▸ here.right.head)
    computed).imp fun value last isLast => pushed.replace ⟨[], ?_⟩
  rw [isLast, there, List.length_append, Nat.add_assoc, List.append_nil]
  rfl

theorem DeliversAll.list {elems : List Expr}
    (elements : comparison.DeliversAll env part (Expr.evalAll meaning elems)) :
    comparison.Delivers env (part ++ (chainElements elems.length).map Instr.uncommented)
      (Expr.eval meaning (.composite .array elems)) := by
  intro state here stands
  rw [Expr.eval]
  refine (elements state here.left stands).bind fun values middle evaluated pushed => ?_
  have there := pushed.pc_eq
  have chain := here.right
  rw [← Expr.length_of_evalAll evaluated, ← there] at chain
  obtain ⟨count, built⟩ := runs_list comparison.alu values chain pushed.stack_eq
  refine performs_ok built (pushed.replace ⟨[], ?_⟩)
  rw [there, List.length_append, List.length_map, Expr.length_of_evalAll evaluated, Nat.add_assoc,
    List.append_nil]

theorem DeliversAll.call {func : String} {args : List Expr} {callee : List Instr}
    (arguments : comparison.DeliversAll env part (Expr.evalAll meaning args))
    (load : comparison.Delivers env callee (meaning.callee func))
    (applies : comparison.Applies meaning.apply) (noPrimitive : Primitive.find? func = none)
    (proper : CallSite.Proper ⟨func, args.length⟩) :
    comparison.Delivers env (part ++ (callee ++ [.ap args.length]))
      (Expr.eval meaning (.call func args)) := by
  intro state here stands
  simp only [Expr.eval, noPrimitive]
  refine (arguments state here.left stands).bind fun values middle evaluated pushed => ?_
  have there := pushed.pc_eq
  have rest := here.right
  rw [← there] at rest
  refine (load middle rest.left (pushed.stands stands)).bind fun value top _ more => ?_
  have above := more.pc_eq
  have fetched := rest.right.head
  rw [← above, ← Expr.length_of_evalAll evaluated] at fetched
  have both := pushed.trans more
  have counted : values.length < 2 ^ 63 := by
    rw [Expr.length_of_evalAll evaluated]
    exact proper.counted
  have isStack : top.stack = value.map comparison.closure ::
      ((values.map (Value.map comparison.closure)).reverse ++ state.stack) := by
    rw [both.stack_eq]
    simp
  refine (applies value values top state.stack fetched counted isStack (both.stands stands).outer).imp
    fun result last isLast => both.replace ?_
  rw [above, there] at isLast
  simpa [Nat.add_assoc] using isLast

end Comparison

/-! ## Expressions -/

section

variable {φ : Type}

/-- What names mean in the code of a function or in the expression of a constant. -/
def Meaning.within (alu : Alu) (definitions : List (String × Expr)) (env : Env φ)
    (apply : Calls φ) (limit : Nat) : Context → Meaning φ
  | .function => .inFunction alu env (constantValue alu definitions env apply limit) apply
  | .constant => .inConstant alu definitions env (constantValue alu definitions env apply limit) apply

variable {alu : Alu} {definitions : List (String × Expr)} {env : Env φ}
  {apply : Calls φ} {limit : Nat} {context : Context}

@[simp] theorem Meaning.within_alu :
    (Meaning.within alu definitions env apply limit context).alu = alu := by
  cases context <;> rfl

@[simp] theorem Meaning.within_apply :
    (Meaning.within alu definitions env apply limit context).apply = apply := by
  cases context <;> rfl

/-- A name that is no variable in reach is a constant. -/
theorem Meaning.within_name {name : String}
    (unbound : context = .function → env.scope.address? name = none) :
    (Meaning.within alu definitions env apply limit context).name name =
      constantValue alu definitions env apply limit name := by
  cases context with
  | function =>
    change env.read _ name = _
    rw [Env.read, Env.find?_eq_none (unbound rfl)]
  | constant => rfl

/-- What is called is loaded like any other name, unless the expression of a constant calls a
variable. -/
theorem Emits.callee_eq_name {depth : Nat} {func : String} {code : List Instr}
    (load : Emits env.scope definitions depth context [.ident func] code) :
    (Meaning.within alu definitions env apply limit context).callee func =
      (Meaning.within alu definitions env apply limit context).name func := by
  cases load with
  | bound => rfl
  | inline _ defined =>
    cases context with
    | function => rfl
    | constant =>
      change (if (definitions.lookup func).isSome then _ else _) = _
      rw [defined]
      rfl

/-- The code of expressions delivers their values. -/
theorem Emits.delivers {comparison : Comparison φ} (applies : comparison.Applies apply)
    (addressable : env.scope.Addressable)
    (proper : ∀ {name : String} {value : Expr}, definitions.lookup name = some value →
      ∀ site ∈ value.calls, site.Proper)
    {depth : Nat} {exprs : List Expr} {out : List Instr}
    (emits : Emits env.scope definitions depth context exprs out) :
    ∀ {limit : Nat}, (limit < depth → comparison.starved) →
      (∀ site ∈ Expr.callsOfAll exprs, site.Proper) →
      comparison.DeliversAll env out
        (Expr.evalAll (.within comparison.alu definitions env apply limit context) exprs) := by
  induction emits with
  | nil =>
    intro limit _ _
    exact Comparison.deliversAll_nil
  | number value _ ih =>
    intro limit short calls
    exact (Comparison.delivers_number value).cons (ih short calls)
  | text source _ ih =>
    intro limit short calls
    exact (Comparison.delivers_text source).cons (ih short calls)
  | @bound _ name address _ _ found _ ih =>
    intro limit short calls
    have loaded : comparison.Delivers env [.ldAddress address]
        (Expr.eval (.within comparison.alu definitions env apply limit .function) (.ident name)) := by
      rw [Expr.eval]
      exact Comparison.delivers_load addressable found _
    exact loaded.cons (ih short calls)
  | inline unbound defined _ _ ihInside ihNext =>
    intro limit short calls
    refine Comparison.Delivers.cons ?_ (ihNext short calls)
    rw [Expr.eval, Meaning.within_name unbound]
    cases limit with
    | zero =>
      -- the limit is used up before the last constant is opened
      exact fun _ _ _ => .inl (short (Nat.succ_pos _))
    | succ limit =>
      rw [constantValue, defined]
      refine (ihInside (fun tooDeep => short (Nat.succ_lt_succ tooDeep)) ?_).single
      simpa [Expr.callsOfAll] using proper defined
  | @binary _ _ op lhs rhs _ _ _ _ known _ _ ihOperands ihNext =>
    intro limit short calls
    simp only [Expr.callsOfAll, Expr.calls, List.forall_mem_append] at calls
    obtain ⟨⟨ofLhs, ofRhs⟩, ofRest⟩ := calls
    have ofOperands : ∀ site ∈ Expr.callsOfAll (op.pushed lhs rhs), site.Proper := by
      unfold BinaryOp.pushed
      split <;> simp only [Expr.callsOfAll, List.append_nil, List.forall_mem_append]
      · exact ⟨ofRhs, ofLhs⟩
      · exact ⟨ofLhs, ofRhs⟩
    have delivered :=
      ((ihOperands short ofOperands).binary known Meaning.within_alu).cons (ihNext short ofRest)
    rwa [List.append_assoc] at delivered
  | primitive found _ _ ihArguments ihNext =>
    intro limit short calls
    simp only [Expr.callsOfAll, Expr.calls, List.forall_mem_append, List.forall_mem_cons] at calls
    obtain ⟨⟨ofCall, ofArgs⟩, ofRest⟩ := calls
    have delivered := ((ihArguments short ofArgs).primitive found ofCall).cons (ihNext short ofRest)
    rwa [List.append_assoc] at delivered
  | call noPrimitive _ load _ ihArguments ihLoad ihNext =>
    intro limit short calls
    simp only [Expr.callsOfAll, Expr.calls, List.forall_mem_append, List.forall_mem_cons] at calls
    obtain ⟨⟨ofCall, ofArgs⟩, ofRest⟩ := calls
    have loaded := (ihLoad short (by simp [Expr.callsOfAll, Expr.calls])).single
    rw [Expr.eval, ← load.callee_eq_name] at loaded
    have delivered := ((ihArguments short ofArgs).call loaded (Meaning.within_apply ▸ applies)
      noPrimitive ofCall).cons (ihNext short ofRest)
    simpa using delivered
  | @callBound _ func address _ _ _ _ noPrimitive _ undefined found _ ihArguments ihNext =>
    intro limit short calls
    simp only [Expr.callsOfAll, Expr.calls, List.forall_mem_append, List.forall_mem_cons] at calls
    obtain ⟨⟨ofCall, ofArgs⟩, ofRest⟩ := calls
    -- a constant of that name would come first, but there is none
    have loaded : comparison.Delivers env [.ldAddress address]
        ((Meaning.within comparison.alu definitions env apply limit .constant).callee func) := by
      change comparison.Delivers env _ (if (definitions.lookup func).isSome then _ else _)
      rw [undefined]
      exact Comparison.delivers_load addressable found _
    have delivered := ((ihArguments short ofArgs).call loaded (Meaning.within_apply ▸ applies)
      noPrimitive ofCall).cons (ihNext short ofRest)
    simpa using delivered
  | list _ _ ihElements ihNext =>
    intro limit short calls
    simp only [Expr.callsOfAll, Expr.calls, List.forall_mem_append] at calls
    obtain ⟨ofElems, ofRest⟩ := calls
    have delivered := (ihElements short ofElems).list.cons (ihNext short ofRest)
    rwa [List.append_assoc] at delivered
  | paren _ ih =>
    intro limit short calls
    simpa [Expr.evalAll, Expr.eval] using ih short calls

end

/-! ## Statements -/

namespace Comparison

variable {φ : Type} {comparison : Comparison φ} {env : Env φ}

/-- Code that ends by going back delivers its value to where it goes back. -/
theorem Delivers.resume {outcome : Outcome (Value φ)} {part : List Instr}
    (delivers : comparison.Delivers env part outcome) {last : Opcode} {state : State}
    (here : CodeAt comparison.code state.pc (part ++ [.plain last]))
    (stands : Stands comparison.closure comparison.home env state) {resume caller : Nat}
    {control : List Control}
    (resumes : ∀ pc stack heap, execute comparison.alu (.plain last)
      { state with pc, stack, heap } = some ⟨resume, stack, caller, control, heap⟩) :
    comparison.Performs state
      (fun value final => ∃ extra, final = {
        pc := resume
        stack := value.map comparison.closure :: state.stack
        env := caller
        control
        heap := state.heap ++ extra }) outcome := by
  refine (delivers state here.left stands).andThen fun value middle pushed => ?_
  have fetched := here.right.head
  rw [← pushed.pc_eq] at fetched
  obtain ⟨extra, rfl⟩ := pushed
  exact ⟨_, (step_of_fetch fetched).trans (resumes _ _ _), extra, rfl⟩

/-- An arm delivers its value to where the branch was taken. -/
theorem Delivers.arm {arm : List Instr} {outcome : Outcome (Value φ)}
    (delivers : comparison.Delivers env arm outcome) {entry resume : Nat} (state : State)
    {control : List Control} (entered : state.pc = entry)
    (isControl : state.control = .join resume :: control)
    (here : CodeAt comparison.code entry (arm ++ [.plain .join]))
    (stands : Stands comparison.closure comparison.home env state) :
    comparison.Performs state
      (fun value last => ∃ extra, last = { state with
        pc := resume
        stack := value.map comparison.closure :: state.stack
        control
        heap := state.heap ++ extra }) outcome := by
  subst entered
  refine delivers.resume here stands fun pc stack heap => ?_
  simp [execute, Instr.plain, isControl]

/-- A body delivers its value to its caller. -/
theorem Delivers.body {body : List Instr} {outcome : Outcome (Value φ)}
    (delivers : comparison.Delivers env body outcome) {entry resume caller : Nat} (state : State)
    {control : List Control} (entered : state.pc = entry)
    (isControl : state.control = .ret resume caller :: control)
    (here : CodeAt comparison.code entry (body ++ [.plain .rtn]))
    (stands : Stands comparison.closure comparison.home env state) :
    comparison.Performs state
      (fun value last => ∃ extra, last = {
        pc := resume
        stack := value.map comparison.closure :: state.stack
        env := caller
        control
        heap := state.heap ++ extra }) outcome := by
  subst entered
  refine delivers.resume here stands fun pc stack heap => ?_
  simp [execute, Instr.plain, isControl]

/-- A branch delivers the value of one of its arms. -/
theorem Delivers.branch {test thenCode elseCode : List Instr} {thenBlock elseBlock : PlacedBlock}
    {condition thenOutcome elseOutcome : Outcome (Value φ)} {next : Value φ → Outcome (Value φ)}
    (ofTest : comparison.Delivers env test condition)
    (ofThen : comparison.Delivers env thenCode thenOutcome)
    (ofElse : comparison.Delivers env elseCode elseOutcome)
    (thenPlaced : CodeAt comparison.code thenBlock.offset (thenCode ++ [.plain .join]))
    (elsePlaced : CodeAt comparison.code elseBlock.offset (elseCode ++ [.plain .join]))
    (chooses : ∀ word, next (.int word) = if word = 0 then elseOutcome else thenOutcome)
    (refuses : ∀ value, (∀ word, value ≠ .int word) → next value = .error .fault) :
    comparison.Delivers env (test ++ [.selOffsets thenBlock elseBlock]) (condition >>= next) := by
  intro state here stands
  refine (ofTest state here.left stands).bind fun value middle _ pushed => ?_
  have there := pushed.pc_eq
  have fetched := here.right.head
  rw [← there] at fetched
  by_cases isWord : ∃ word, value = .int word
  case neg =>
    -- the machine refuses a condition that is no word
    rw [refuses value fun word same => isWord ⟨word, same⟩]
    refine performs_fault fetched (by simp [Instr.selOffsets, Instr.plain]) ?_
    obtain ⟨extra, rfl⟩ := pushed
    cases value with
    | int word => exact absurd ⟨word, rfl⟩ isWord
    | _ => rfl
  case pos =>
    obtain ⟨word, rfl⟩ := isWord
    rw [chooses]
    have standsInside := pushed.stands stands
    obtain ⟨extra, rfl⟩ := pushed
    -- the arm comes back to the instruction after the branch
    let resume := state.pc + test.length + 1
    let entered : State := {
      pc := if word = 0 then elseBlock.offset else thenBlock.offset
      stack := state.stack
      env := state.env
      control := .join resume :: state.control
      heap := state.heap ++ extra }
    have enters : step comparison.alu comparison.code { state with
        pc := state.pc + test.length
        stack := .int word :: state.stack
        heap := state.heap ++ extra } = some entered := (step_of_fetch fetched).trans rfl
    have delivered : comparison.Performs entered
        (fun value last => ∃ more, last = { entered with
          pc := resume
          stack := value.map comparison.closure :: state.stack
          control := state.control
          heap := entered.heap ++ more }) (if word = 0 then elseOutcome else thenOutcome) := by
      by_cases isZero : word = 0
      · rw [if_pos isZero]
        exact ofElse.arm entered (if_pos isZero) rfl elsePlaced ⟨standsInside.inner, standsInside.outer⟩
      · rw [if_neg isZero]
        exact ofThen.arm entered (if_neg isZero) rfl thenPlaced ⟨standsInside.inner, standsInside.outer⟩
    refine (delivered.of_runs (.single enters) (Nat.le_add_left _ _)).imp fun value last isLast => ?_
    obtain ⟨more, rfl⟩ := isLast
    exact ⟨extra ++ more, by simp [entered, resume, Nat.add_assoc]⟩

end Comparison

/-- The code of a body or of an arm delivers its value. -/
theorem Realises.delivers {φ : Type} {comparison : Comparison φ} {env : Env φ}
    {definitions : List (String × Expr)} {apply : Calls φ}
    {depth limit : Nat} {blocks : List PlacedBlock} (applies : comparison.Applies apply)
    (addressable : env.scope.Addressable)
    (proper : ∀ {name : String} {value : Expr}, definitions.lookup name = some value →
      ∀ site ∈ value.calls, site.Proper)
    (short : limit < depth → comparison.starved)
    (placed : ∀ block ∈ blocks, CodeAt comparison.code block.offset block.bare)
    {next : Nat} {stmts : List Stmt} {out : List Instr}
    (realises : Realises (fun expr code => Emits env.scope definitions depth .function [expr] code)
      blocks next stmts out) :
    Stmt.Single stmts → (∀ site ∈ Expr.callsOfAll (Stmt.exprsOfAll stmts), site.Proper) →
      comparison.Delivers env out
        (Stmt.evalBody (.within comparison.alu definitions env apply limit .function) stmts) := by
  have ofExpr : ∀ {expr : Expr} {code : List Instr},
      Emits env.scope definitions depth .function [expr] code →
      (∀ site ∈ expr.calls, site.Proper) →
      comparison.Delivers env code
        (expr.eval (.within comparison.alu definitions env apply limit .function)) := by
    intro expr code emitted calls
    exact (emitted.delivers applies addressable proper short
      (by simpa [Expr.callsOfAll] using calls)).single
  induction realises with
  | nil =>
    intro single
    cases single
  | expr emitted after _ | ret emitted after _ =>
    intro single calls
    cases single
    cases after
    rw [List.append_nil]
    exact ofExpr emitted (by simpa [Stmt.exprsOfAll, Stmt.exprs, Expr.callsOfAll] using calls)
  | retNothing =>
    intro single
    cases single
  | ifElse emitted isThen thenCode _ isElse elseCode _ after ihThen ihElse _ =>
    intro single calls
    cases single with
    | ifElse _ thenSingle elseSingle =>
    cases after
    simp only [Stmt.exprsOfAll, Stmt.exprs, Stmt.exprsOfArm, List.append_nil, Expr.callsOfAll,
      Expr.callsOfAll_append, List.forall_mem_append] at calls
    obtain ⟨ofCond, ofThen, ofElse⟩ := calls
    have thenPlaced := placed _ (List.mem_of_getElem? isThen)
    have elsePlaced := placed _ (List.mem_of_getElem? isElse)
    rw [thenCode] at thenPlaced
    rw [elseCode] at elsePlaced
    refine (ofExpr emitted ofCond).branch (ihThen thenSingle ofThen) (ihElse elseSingle ofElse)
      thenPlaced elsePlaced (fun word => rfl) fun value noWord => ?_
    cases value with
    | int word => exact absurd rfl (noWord word)
    | _ => rfl

end Secd
