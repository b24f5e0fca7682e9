import Mathlib.Algebra.Group.Nat.Defs
import Secd.Listing
import Secd.Proofs.Code

namespace Secd

/-! # The machine

The machine that listings are made for, as far as their meaning depends on it. It has a stack of
values, an environment, a control stack and a heap of frames. An environment is the number of a
frame; frames refer to the frame further out, so closures and calls share them. A frame that `DUM`
opened is filled in its place, which is why frames live in a heap.

The results of arithmetic are a parameter (`Alu`): how words overflow and what division by zero does
is left to the machine at hand. Everything that an instruction cannot do stops the machine.
-/

/-! ## Values -/

/-- Values; `φ` is what stands for a function. -/
inductive Value (φ : Type) where
  | int (value : Int64)
  | text (source : String)
  | pair (head tail : Value φ)
  | function (code : φ)
  /-- Something of the host, which can only be passed on. -/
  | foreign (handle : Nat)
  deriving DecidableEq, Repr

namespace Value

variable {φ ψ : Type}

/-- Replaces what stands for functions. -/
def map (f : φ → ψ) : Value φ → Value ψ
  | .int value => .int value
  | .text source => .text source
  | .pair head tail => .pair (head.map f) (tail.map f)
  | .function code => .function (f code)
  | .foreign handle => .foreign handle

def isPair : Value φ → Bool
  | .pair _ _ => true
  | _ => false

end Value

/-- A value of the host: it holds no functions of the program. -/
abbrev HostValue := Value Empty

/-- A host value among values with functions. -/
def HostValue.embed {φ : Type} (value : HostValue) : Value φ := Value.map Empty.elim value

/-- The arithmetic of a machine; an operation without a result stops it. -/
structure Alu where
  add : Int64 → Int64 → Option Int64
  sub : Int64 → Int64 → Option Int64
  mul : Int64 → Int64 → Option Int64
  div : Int64 → Int64 → Option Int64

/-- Arithmetic that wraps around; there is no division by zero. -/
def Alu.wrapping : Alu where
  add left right := some (left + right)
  sub left right := some (left - right)
  mul left right := some (left * right)
  div left right := if right = 0 then none else some (left / right)

/-! ## States -/

/-- Code with the environment it was closed over. -/
structure Closure where
  entry : Nat
  env : Nat
  deriving DecidableEq, Repr

/-- A frame; a slot that has not been filled is empty. -/
structure Frame where
  slots : List (Option (Value Closure))
  parent : Option Nat
  deriving DecidableEq, Repr

/-- The outermost frame. -/
def Frame.ofHost (host : List HostValue) : Frame where
  slots := host.map fun value => some value.embed
  parent := none

/-- Where to go on after a block. -/
inductive Control where
  /-- After a branch. -/
  | join (resume : Nat)
  /-- After a call, in the environment of the caller. -/
  | ret (resume env : Nat)
  deriving DecidableEq, Repr

structure State where
  pc : Nat
  stack : List (Value Closure)
  env : Nat
  control : List Control
  heap : List Frame
  deriving DecidableEq, Repr

/-- The frame some steps outward from a frame. -/
def frameAt (heap : List Frame) : (env depth : Nat) → Option Frame
  | env, 0 => heap[env]?
  | env, depth + 1 => do
    let frame ← heap[env]?
    let parent ← frame.parent
    frameAt heap parent depth

/-- A number that counts something. -/
def Operand.index? : Operand → Option Nat
  | .int value => if 0 ≤ value.toInt then some value.toInt.toNat else none
  | _ => none

/-- A closure and arguments from the top of the stack; the last argument lies on top of the others.
-/
def takeCall (count : Nat) :
    List (Value Closure) → Option (Closure × List (Value Closure) × List (Value Closure))
  | .function closure :: rest =>
    if count ≤ rest.length then some (closure, (rest.take count).reverse, rest.drop count) else none
  | _ => none

namespace State

/-- Pushes a value and goes on. -/
def push (state : State) (value : Value Closure) : State :=
  { state with pc := state.pc + 1, stack := value :: state.stack }

/-- Enters a closure in a new frame of arguments; `rest` stays on the stack. -/
def call (state : State) (closure : Closure) (args rest : List (Value Closure)) : State where
  pc := closure.entry
  stack := rest
  env := state.heap.length
  control := .ret (state.pc + 1) state.env :: state.control
  heap := state.heap ++ [⟨args.map some, some closure.env⟩]

/-- The value of a slot that has been filled. -/
def slot (state : State) (depth index : Nat) : Option (Value Closure) := do
  let frame ← frameAt state.heap state.env depth
  let content ← frame.slots[index]?
  content

/-- The program is called at address zero with a frame of the host. -/
def initial (host : List HostValue) : State where
  pc := 0
  stack := []
  env := 0
  control := []
  heap := [Frame.ofHost host]

end State

/-! ## Instructions -/

/-- A truth value as a word. -/
def truthWord (holds : Bool) : Int64 := if holds then 1 else 0

/-- Replaces two words by the result of an operation; the right operand lies on top of the left one.
-/
def onWords {φ : Type} (operation : Int64 → Int64 → Option Int64) :
    List (Value φ) → Option (List (Value φ))
  | .int right :: .int left :: rest => (operation left right).map (.int · :: rest)
  | _ => none

/-- What an operation does to the stack. The tail of a pair lies on top of its head. -/
def Opcode.compute {φ : Type} (alu : Alu) : Opcode → List (Value φ) → Option (List (Value φ))
  | .add, stack => onWords alu.add stack
  | .sub, stack => onWords alu.sub stack
  | .mul, stack => onWords alu.mul stack
  | .div, stack => onWords alu.div stack
  | .ceq, stack => onWords (fun left right => some (truthWord (left == right))) stack
  | .cgt, stack => onWords (fun left right => some (truthWord (left > right))) stack
  | .cgte, stack => onWords (fun left right => some (truthWord (left ≥ right))) stack
  | .atom, value :: rest => some (.int (truthWord !value.isPair) :: rest)
  | .cons, tail :: head :: rest => some (.pair head tail :: rest)
  | .car, .pair head _ :: rest => some (head :: rest)
  | .cdr, .pair _ tail :: rest => some (tail :: rest)
  | .brk, stack => some stack
  | .dbug, _ :: rest => some rest
  | _, _ => none

/-- Carries out one instruction. -/
def execute (alu : Alu) (instr : Instr) (state : State) : Option State :=
  match instr.opcode, instr.args with
  | .ldc, [.int value] => some (state.push (.int value))
  | .ldc, [.text source] => some (state.push (.text source))
  | .ld, [depth, index] => do
    let depth ← depth.index?
    let index ← index.index?
    let value ← state.slot depth index
    return state.push value
  | .ldf, [.offset entry] => some (state.push (.function ⟨entry, state.env⟩))
  | .ap, [count] => do
    let count ← count.index?
    let (closure, args, rest) ← takeCall count state.stack
    return state.call closure args rest
  | .sel, [.offset thenEntry, .offset elseEntry] =>
    match state.stack with
    | .int condition :: rest => some { state with
        pc := if condition = 0 then elseEntry else thenEntry
        stack := rest
        control := .join (state.pc + 1) :: state.control }
    | _ => none
  | .join, [] =>
    match state.control with
    | .join resume :: control => some { state with pc := resume, control }
    | _ => none
  | .rtn, [] =>
    match state.control with
    | .ret resume env :: control => some { state with pc := resume, env, control }
    | _ => none
  | .dum, [count] => do
    let count ← count.index?
    return { state with
      pc := state.pc + 1
      env := state.heap.length
      heap := state.heap ++ [⟨List.replicate count none, some state.env⟩] }
  | .rap, [count] => do
    let count ← count.index?
    let (closure, args, rest) ← takeCall count state.stack
    let opened ← state.heap[state.env]?
    let outer ← opened.parent
    if opened.slots = List.replicate count none then
      return {
        pc := closure.entry
        stack := rest
        env := state.env
        control := .ret (state.pc + 1) outer :: state.control
        heap := state.heap.set state.env ⟨args.map some, opened.parent⟩ }
    else none
  | opcode, [] => do
    let stack ← opcode.compute alu state.stack
    return { state with pc := state.pc + 1, stack }
  | _, _ => none

/-! ## Runs -/

/-- The instruction at an address, without its comment. -/
def fetch (code : List Instr) (address : Nat) : Option Instr := (code[address]?).map Instr.uncommented

/-- One step; there is none where the machine stops. -/
def step (alu : Alu) (code : List Instr) (state : State) : Option State := do
  execute alu (← fetch code state.pc) state

/-- The run is over: the program returns to its caller. -/
def State.Finished (code : List Instr) (state : State) : Prop :=
  fetch code state.pc = some (.plain .rtn) ∧ state.control = []

/-- The machine stops before the run is over. -/
def State.Stuck (alu : Alu) (code : List Instr) (state : State) : Prop :=
  step alu code state = none ∧ ¬ state.Finished code

/-- A run of some number of steps. -/
inductive Runs (alu : Alu) (code : List Instr) : Nat → State → State → Prop where
  | refl (state : State) : Runs alu code 0 state state
  | step {count : Nat} {first second third : State}
      (next : Secd.step alu code first = some second) (later : Runs alu code count second third) :
    Runs alu code (count + 1) first third

/-- Instructions that stand in the code from an address on. -/
def CodeAt (code : List Instr) (address : Nat) (part : List Instr) : Prop :=
  ∀ index instr, part[index]? = some instr → fetch code (address + index) = some instr

namespace CodeAt

variable {code : List Instr} {address : Nat}

theorem head {instr : Instr} {rest : List Instr} (here : CodeAt code address (instr :: rest)) :
    fetch code address = some instr := here 0 instr rfl

theorem left {first second : List Instr} (here : CodeAt code address (first ++ second)) :
    CodeAt code address first := by
  intro index instr found
  have bound := (List.getElem?_eq_some_iff.mp found).1
  exact here index instr (by rwa [List.getElem?_append_left bound])

theorem right {first second : List Instr} (here : CodeAt code address (first ++ second)) :
    CodeAt code (address + first.length) second := by
  intro index instr found
  rw [Nat.add_assoc]
  exact here _ instr (by simpa [List.getElem?_append_right] using found)

theorem tail {instr : Instr} {rest : List Instr} (here : CodeAt code address (instr :: rest)) :
    CodeAt code (address + 1) rest := by
  have shifted : CodeAt code address ([instr] ++ rest) := here
  exact shifted.right

end CodeAt

/-! ## Values and functions in them -/

namespace Value

@[simp] theorem map_id {φ : Type} : Value.map (id : φ → φ) = id := by
  funext value
  induction value with
  | pair head tail ihHead ihTail => exact congrArg₂ Value.pair ihHead ihTail
  | _ => rfl

theorem map_embed {φ ψ : Type} (f : φ → ψ) (value : HostValue) :
    (value.embed : Value φ).map f = value.embed := by
  induction value with
  | pair head tail ihHead ihTail => exact congrArg₂ Value.pair ihHead ihTail
  | function code => exact code.elim
  | _ => rfl

/-- Every function in a value satisfies a condition. -/
def All {φ : Type} (condition : φ → Prop) : Value φ → Prop
  | .pair head tail => head.All condition ∧ tail.All condition
  | .function code => condition code
  | _ => True

theorem all_embed {φ : Type} (condition : φ → Prop) (value : HostValue) :
    (value.embed : Value φ).All condition := by
  induction value with
  | pair head tail ihHead ihTail => exact ⟨ihHead, ihTail⟩
  | function code => exact code.elim
  | _ => trivial

end Value

theorem all_of_onWords {φ : Type} {condition : φ → Prop}
    {operation : Int64 → Int64 → Option Int64} {stack result : List (Value φ)}
    (computed : onWords operation stack = some result)
    (all : ∀ value ∈ stack, value.All condition) : ∀ value ∈ result, value.All condition := by
  unfold onWords at computed
  split at computed
  case h_1 =>
    obtain ⟨word, -, rfl⟩ := Option.map_eq_some_iff.mp computed
    simp_all [Value.All]
  case h_2 => cases computed

/-- Operations make no functions. -/
theorem Opcode.all_of_compute {φ : Type} {condition : φ → Prop} {alu : Alu} {opcode : Opcode}
    {stack result : List (Value φ)} (computed : opcode.compute alu stack = some result)
    (all : ∀ value ∈ stack, value.All condition) : ∀ value ∈ result, value.All condition := by
  unfold Opcode.compute at computed
  split at computed
  all_goals
    first
    | exact all_of_onWords computed all
    | cases computed <;> simp_all [Value.All]

/-! ## Single steps -/

theorem Operand.index?_count {number : Nat} (small : number < 2 ^ 63) :
    (Operand.count number).index? = some number := by
  simp only [Operand.count, Operand.index?, Int64.toInt_ofNat_of_lt small]
  simp

theorem takeCall_eq_some {count : Nat} {stack args rest : List (Value Closure)} {closure : Closure} :
    takeCall count stack = some (closure, args, rest) ↔
      args.length = count ∧ stack = .function closure :: (args.reverse ++ rest) := by
  unfold takeCall
  constructor
  · intro taken
    split at taken
    case h_2 => cases taken
    case h_1 other below =>
    split at taken
    case isFalse => cases taken
    case isTrue enough =>
    simp only [Option.some.injEq, Prod.mk.injEq] at taken
    obtain ⟨rfl, rfl, rfl⟩ := taken
    simp [enough]
  · rintro ⟨rfl, rfl⟩
    simp

section

variable {alu : Alu} {code : List Instr} {state : State}

theorem step_of_fetch {instr : Instr} (fetched : fetch code state.pc = some instr) :
    step alu code state = execute alu instr state := by
  rw [step, fetched]
  rfl

theorem execute_ldAddress {address : Address} (depthSmall : address.depth < 2 ^ 63)
    (indexSmall : address.index < 2 ^ 63) :
    execute alu (.ldAddress address) state =
      (state.slot address.depth address.index).map state.push := by
  simp only [execute, Instr.ldAddress, Operand.index?_count depthSmall,
    Operand.index?_count indexSmall, Option.bind_eq_bind, Option.bind_some, Option.pure_def]
  cases state.slot address.depth address.index <;> rfl

theorem execute_ap {count : Nat} {closure : Closure} {args rest : List (Value Closure)}
    (small : count < 2 ^ 63) (taken : takeCall count state.stack = some (closure, args, rest)) :
    execute alu (.ap count) state = some (state.call closure args rest) := by
  simp [execute, Instr.ap, Operand.index?_count small, taken]

theorem execute_dum {count : Nat} (small : count < 2 ^ 63) :
    execute alu (.dum count) state = some { state with
      pc := state.pc + 1
      env := state.heap.length
      heap := state.heap ++ [⟨List.replicate count none, some state.env⟩] } := by
  simp [execute, Instr.dum, Operand.index?_count small]

theorem execute_rap {count outer : Nat} {closure : Closure} {args rest : List (Value Closure)}
    (small : count < 2 ^ 63) (taken : takeCall count state.stack = some (closure, args, rest))
    (opened : state.heap[state.env]? = some ⟨List.replicate count none, some outer⟩) :
    execute alu (.rap count) state = some {
      pc := closure.entry
      stack := rest
      env := state.env
      control := .ret (state.pc + 1) outer :: state.control
      heap := state.heap.set state.env ⟨args.map some, some outer⟩ } := by
  simp [execute, Instr.rap, Operand.index?_count small, taken, opened]

theorem execute_operation {opcode : Opcode} (computes : opcode.isOperation) :
    execute alu (.plain opcode) state = (opcode.compute alu state.stack).map
      fun stack => { state with pc := state.pc + 1, stack } := by
  cases opcode
  all_goals
    first
    | exact absurd computes Bool.false_ne_true
    | simp only [execute, Instr.plain, Option.bind_eq_bind, Option.pure_def]
      cases Opcode.compute alu _ state.stack <;> rfl

end

/-! ## Runs -/

namespace Runs

variable {alu : Alu} {code : List Instr}

theorem trans {count more : Nat} {first second third : State}
    (runs : Runs alu code count first second) (later : Runs alu code more second third) :
    Runs alu code (count + more) first third := by
  induction runs with
  | refl state => rwa [Nat.zero_add]
  | step next _ ih =>
    rw [Nat.add_right_comm]
    exact .step next (ih later)

theorem single {first second : State} (next : Secd.step alu code first = some second) :
    Runs alu code 1 first second := .step next (.refl second)

/-- Of two runs from one state, the shorter one is the beginning of the longer one. -/
theorem rest {count more : Nat} {first second third : State}
    (runs : Runs alu code count first second) (longer : Runs alu code (count + more) first third) :
    Runs alu code more second third := by
  induction runs with
  | refl state => rwa [Nat.zero_add] at longer
  | step next _ ih =>
    rw [Nat.add_right_comm] at longer
    cases longer with
    | step other later =>
      rw [next] at other
      cases other
      exact ih later

theorem deterministic {count : Nat} {first second third : State}
    (runs : Runs alu code count first second) (other : Runs alu code count first third) :
    second = third := by
  have nothing : Runs alu code 0 second third := runs.rest other
  cases nothing
  rfl

/-- What every step preserves holds at the end of every run. -/
theorem preserves (invariant : State → Prop)
    (kept : ∀ {state next : State}, invariant state → Secd.step alu code state = some next →
      invariant next)
    {count : Nat} {first last : State} (runs : Runs alu code count first last)
    (holds : invariant first) : invariant last := by
  induction runs with
  | refl state => exact holds
  | step next _ ih => exact ih (kept holds next)

end Runs

end Secd
