import Secd.Proofs.ControlFlow
import Secd.Proofs.Machine

namespace Secd

open Results

/-! # The calling convention

The preamble enters the entry function in the frame of the declarations, whose slots hold the
closures of all other functions over that same frame (`Image.enters`). From there on every step
keeps an invariant (`Running`): code of the entry function runs in the frame of the declarations,
code of any other function in a frame of arguments right inside it, and what the control stack
returns to is code of a function with the environment that goes with it. No closure but those of the
declarations is ever made, so this is all that calls need.

`calling_convention` reads off the frames that code runs in, and that loads stay inside them.
-/

/-! ## Where code stands -/

/-- The address lies in the block. -/
def PlacedBlock.Holds (block : PlacedBlock) (address : Nat) : Prop :=
  block.offset ≤ address ∧ address < block.offset + block.instrs.length

/-- The address lies in a block of the function. -/
def Routine.Holds (routine : Routine) (address : Nat) : Prop :=
  ∃ block ∈ routine.blocks, block.Holds address

theorem PlacedBlock.length_bare (block : PlacedBlock) : block.bare.length = block.instrs.length :=
  List.length_map _

namespace Image

variable {options : Options} {program : Program} {listing : Listing} {main : Routine}
  {others : List Routine} {depth : Nat}

theorem mem_blocks (image : Image options program listing main others depth) {routine : Routine}
    (isRoutine : routine ∈ main :: others) {block : PlacedBlock} (isBlock : block ∈ routine.blocks) :
    block ∈ listing.blocks := by
  rw [image.blocks]
  exact List.mem_flatMap.mpr ⟨routine, isRoutine, isBlock⟩

theorem codeAt_block (image : Image options program listing main others depth) {block : PlacedBlock}
    (member : block ∈ listing.blocks) : CodeAt listing.instructions block.offset block.bare := by
  intro index instr found
  rw [PlacedBlock.bare, List.getElem?_map, Option.map_eq_some_iff] at found
  obtain ⟨original, inBlock, rfl⟩ := found
  rw [fetch, image.contiguous.getElem?_eq member inBlock]
  rfl

theorem codeAt_start (image : Image options program listing main others depth) :
    CodeAt listing.instructions 0 (startCode main.body.offset (others.map (·.body.offset))) := by
  intro index instr found
  rw [← image.start, List.getElem?_map, Option.map_eq_some_iff] at found
  obtain ⟨original, inPreamble, rfl⟩ := found
  have bound := (List.getElem?_eq_some_iff.mp inPreamble).1
  rw [fetch, Nat.zero_add, Listing.instructions, List.getElem?_append_left bound, inPreamble]
  rfl

/-- The functions of the image are those of the program. -/
theorem decl_mem (image : Image options program listing main others depth) {routine : Routine}
    (isRoutine : routine ∈ main :: others) : routine.decl ∈ program.functions := by
  rcases List.mem_cons.mp isRoutine with rfl | isOther
  · exact image.isFunction
  · have member : routine.decl ∈ functionsExcept program.functions options.entry := by
      rw [← image.decls]
      exact List.mem_map_of_mem isOther
    exact (List.mem_filter.mp member).1

/-- Of the functions only the entry function has its name. -/
theorem name_ne_of_mem (image : Image options program listing main others depth) {routine : Routine}
    (isOther : routine ∈ others) : routine.decl.name ≠ main.decl.name := by
  have member : routine.decl ∈ functionsExcept program.functions options.entry := by
    rw [← image.decls]
    exact List.mem_map_of_mem isOther
  rw [image.isEntry]
  simpa using (List.mem_filter.mp member).2

theorem declarations_eq (image : Image options program listing main others depth) :
    declarations program.functions main.decl.name = others.map (·.decl.name) := by
  rw [declarations, image.isEntry, ← image.decls, List.map_map]
  rfl

theorem length_others_lt (image : Image options program listing main others depth)
    (countable : program.Countable) : others.length < 2 ^ 63 := by
  have same := congrArg List.length image.decls
  rw [List.length_map, functionsExcept] at same
  rw [same]
  exact Nat.lt_of_le_of_lt (List.length_filter_le _ _) countable.functions

theorem offset?_eq (image : Image options program listing main others depth) {routine : Routine}
    (isRoutine : routine ∈ main :: others) :
    listing.offset? routine.decl.name = some routine.body.offset := by
  have isBlock : routine.body ∈ listing.blocks := image.mem_blocks isRoutine List.mem_cons_self
  have named : routine.body.name = routine.decl.name := (image.realised routine isRoutine).name
  cases found : listing.block? routine.decl.name with
  | none =>
    have absent := List.find?_eq_none.mp found routine.body isBlock
    simp [named] at absent
  | some block =>
    have sameName : block.name = routine.body.name := by
      rw [named]
      simpa using List.find?_some found
    have same := List.inj_on_of_nodup_map image.nodup (List.mem_of_find?_eq_some found) isBlock sameName
    rw [Listing.offset?, found, same]
    rfl

/-- The blocks of a function stand under its name. -/
theorem under_of_mem (image : Image options program listing main others depth) {routine : Routine}
    (isRoutine : routine ∈ main :: others) {block : PlacedBlock}
    (isBlock : block ∈ routine.blocks) : Under routine.decl.name block.name := by
  have realised := image.realised routine isRoutine
  rcases List.mem_cons.mp isBlock with rfl | isArm
  · rw [realised.name]
    exact .refl _
  · exact realised.armNames block isArm

/-- A block belongs to the function under whose name it stands. -/
theorem name_eq_of_holds (image : Image options program listing main others depth)
    (dotFree : program.DotFree) {routine : Routine} (isRoutine : routine ∈ main :: others)
    {address : Nat} (holds : routine.Holds address) {decl : FunctionDecl}
    (isFunction : decl ∈ program.functions) {block : PlacedBlock} (isBlock : block ∈ listing.blocks)
    (under : Under decl.name block.name) (inBlock : block.Holds address) :
    routine.decl.name = decl.name := by
  obtain ⟨own, isOwn, inOwn⟩ := holds
  -- blocks do not overlap
  have same : own = block := image.contiguous.eq_of_mem (image.mem_blocks isRoutine isOwn) isBlock
    inOwn.1 inOwn.2 inBlock.1 inBlock.2
  subst same
  exact eq_of_under (dotFree.functions _ (image.decl_mem isRoutine))
    (dotFree.functions _ isFunction) (image.under_of_mem isRoutine isOwn) under

/-- A block ends in `RTN` or `JOIN`. -/
theorem bare_eq (image : Image options program listing main others depth) {routine : Routine}
    (isRoutine : routine ∈ main :: others) {block : PlacedBlock} (isBlock : block ∈ routine.blocks) :
    ∃ code last, block.bare = code ++ [last] ∧ (last = .plain .rtn ∨ last = .plain .join) ∧
      routine.StaysInside program main.decl depth code := by
  obtain ⟨⟨code, bare, inside⟩, ofArms⟩ := image.staysInside routine isRoutine
  rcases List.mem_cons.mp isBlock with rfl | isArm
  · exact ⟨code, _, bare, .inl rfl, inside⟩
  · obtain ⟨armCode, armBare, armInside⟩ := ofArms block isArm
    exact ⟨armCode, _, armBare, .inr rfl, armInside⟩

/-- The instruction at a place in a block of a function. -/
theorem instr_cases (image : Image options program listing main others depth) {routine : Routine}
    (isRoutine : routine ∈ main :: others) {block : PlacedBlock} (isBlock : block ∈ routine.blocks)
    {index : Nat} {instr : Instr} (found : block.bare[index]? = some instr) :
    instr = .plain .rtn ∨ instr = .plain .join ∨ index + 1 < block.bare.length ∧
      (Computes (framesOf program.functions main.decl routine.decl) instr ∨
        instr.opcode = .sel ∧ ∃ thenBlock ∈ routine.blocks, ∃ elseBlock ∈ routine.blocks,
          instr.args = [.offset thenBlock.offset, .offset elseBlock.offset]) := by
  obtain ⟨code, last, bare, isLast, inside⟩ := image.bare_eq isRoutine isBlock
  rw [bare] at found ⊢
  by_cases inCode : index < code.length
  · rw [List.getElem?_append_left inCode] at found
    obtain ⟨-, computes, branches⟩ := inside index instr found
    refine .inr (.inr ⟨by simpa using inCode, ?_⟩)
    by_cases isBranch : instr.opcode = .sel
    · obtain ⟨conditional, -, thenBlock, elseBlock, target⟩ := branches isBranch
      exact .inr ⟨isBranch, thenBlock, List.mem_of_getElem? target.isThen, elseBlock,
        List.mem_of_getElem? target.isElse, target.operands⟩
    · exact .inl (computes isBranch)
  · rw [List.getElem?_append_right (by omega), List.getElem?_singleton] at found
    split at found
    · cases found
      exact isLast.imp id .inl
    · cases found

/-- The instruction at an address in the code of a function. -/
theorem fetch_cases (image : Image options program listing main others depth) {routine : Routine}
    (isRoutine : routine ∈ main :: others) {address : Nat} (inside : routine.Holds address) :
    ∃ instr, fetch listing.instructions address = some instr ∧
      (instr = .plain .rtn ∨ instr = .plain .join ∨ routine.Holds (address + 1) ∧
        (Computes (framesOf program.functions main.decl routine.decl) instr ∨
          instr.opcode = .sel ∧ ∃ thenBlock ∈ routine.blocks, ∃ elseBlock ∈ routine.blocks,
            instr.args = [.offset thenBlock.offset, .offset elseBlock.offset])) := by
  obtain ⟨block, isBlock, lower, upper⟩ := inside
  obtain ⟨index, rfl⟩ := Nat.exists_eq_add_of_le lower
  have bound : index < block.bare.length := by
    rw [PlacedBlock.length_bare]
    omega
  have found := List.getElem?_eq_getElem bound
  have fetched := image.codeAt_block (image.mem_blocks isRoutine isBlock) _ _ found
  refine ⟨_, fetched, (image.instr_cases isRoutine isBlock found).imp id (Or.imp id ?_)⟩
  rintro ⟨within, isInner⟩
  rw [PlacedBlock.length_bare] at within
  exact ⟨⟨block, isBlock, by omega, by omega⟩, isInner⟩

/-- No block is empty, so an entered block holds the address it is entered at. -/
theorem holds_offset (image : Image options program listing main others depth) {routine : Routine}
    (isRoutine : routine ∈ main :: others) {block : PlacedBlock} (isBlock : block ∈ routine.blocks) :
    block.Holds block.offset := by
  obtain ⟨code, last, bare, -⟩ := image.bare_eq isRoutine isBlock
  have length : block.instrs.length = code.length + 1 := by
    rw [← PlacedBlock.length_bare, bare, List.length_append, List.length_singleton]
  exact ⟨Nat.le_refl _, by omega⟩

end Image

/-! ## The preamble -/

/-- The frame of the declarations, frame number 1: closures over the frame itself. -/
def Frame.ofDeclarations (entries : List Nat) : Frame where
  slots := entries.map fun entry => some (.function ⟨entry, 1⟩)
  parent := some 0

/-- The state in which the entry function is entered; it returns to the end of the preamble. -/
def State.entered (host : List HostValue) (entry : Nat) (declared : List Nat) : State where
  pc := entry
  stack := []
  env := 1
  control := [.ret ((startCode entry declared).length - 1) 0]
  heap := [.ofHost host, .ofDeclarations declared]

/-- Closures of the code at some offsets are made one after the other. -/
theorem runs_closures (alu : Alu) {code : List Instr} {entries : List Nat} :
    ∀ (state : State), CodeAt code state.pc (entries.map Instr.ldfOffset) →
      Runs alu code entries.length state { state with
        pc := state.pc + entries.length
        stack := (entries.map fun entry => .function ⟨entry, state.env⟩).reverse ++ state.stack } := by
  induction entries with
  | nil =>
    intro state _
    exact .refl state
  | cons entry rest ih =>
    intro state here
    have next : step alu code state = some (state.push (.function ⟨entry, state.env⟩)) :=
      step_of_fetch here.head
    have later := ih (state.push (.function ⟨entry, state.env⟩)) here.tail
    simp only [State.push, List.map_cons, List.reverse_cons, List.append_assoc, List.cons_append,
      List.nil_append, List.length_cons] at later ⊢
    rw [Nat.add_right_comm] at later
    exact .step next later

/-- The frame of the declarations is open and some closures have been made in it. -/
def State.opened (host : List HostValue) (count : Nat) (closures : List Nat) : State where
  pc := closures.length + 1
  stack := (closures.map fun entry => .function ⟨entry, 1⟩).reverse
  env := 1
  control := []
  heap := [.ofHost host, ⟨List.replicate count none, some 0⟩]

theorem runs_opened (alu : Alu) {code : List Instr} {count : Nat} (small : count < 2 ^ 63)
    {closures : List Nat} {rest : List Instr}
    (here : CodeAt code 0 (.dum count :: (closures.map Instr.ldfOffset ++ rest)))
    (host : List HostValue) :
    Runs alu code (closures.length + 1) (.initial host) (.opened host count closures) := by
  have first : step alu code (.initial host) = some (.opened host count []) :=
    (step_of_fetch here.head).trans (execute_dum small)
  have later := runs_closures alu (.opened host count []) here.tail.left
  refine .step first ?_
  simpa [State.opened, Nat.add_comm] using later

/-- The start of a program enters the entry function; before that the machine is in the preamble. -/
theorem runs_start {alu : Alu} {code : List Instr} {entry : Nat} {declared : List Nat}
    (small : declared.length < 2 ^ 63) (here : CodeAt code 0 (startCode entry declared))
    (host : List HostValue) :
    ∃ count, count + 1 = (startCode entry declared).length ∧
      Runs alu code count (.initial host) (.entered host entry declared) ∧
      ∀ earlier < count, ∃ state, Runs alu code earlier (.initial host) state ∧ state.pc = earlier := by
  by_cases alone : declared = []
  case pos =>
    -- alone, the entry function is called and gets an empty frame of its own
    subst alone
    have shape : startCode entry [] = [.ldfOffset entry, .ap 0, .plain .rtn] := rfl
    rw [shape] at here
    have load : step alu code (.initial host) = some ((State.initial host).push (.function ⟨entry, 0⟩)) :=
      (step_of_fetch here.head).trans rfl
    have enter : step alu code ((State.initial host).push (.function ⟨entry, 0⟩)) =
        some (.entered host entry []) := (step_of_fetch here.tail.head).trans rfl
    refine ⟨2, rfl, .step load (.single enter), fun earlier bound => ?_⟩
    match earlier with
    | 0 => exact ⟨_, .refl _, rfl⟩
    | 1 => exact ⟨_, .single load, rfl⟩
  case neg =>
    -- otherwise it is entered in the frame that was opened for the declarations
    have shape : startCode entry declared = .dum declared.length ::
        ((declared ++ [entry]).map Instr.ldfOffset ++ [.rap declared.length, .plain .rtn]) := by
      simp [startCode, alone]
    have length : (startCode entry declared).length = declared.length + 4 := by simp [shape]
    rw [shape] at here
    have loaded := runs_opened alu small here host
    have taken : takeCall declared.length (State.opened host declared.length (declared ++ [entry])).stack =
        some (⟨entry, 1⟩, declared.map fun entry => .function ⟨entry, 1⟩, []) := by
      rw [takeCall_eq_some]
      simp [State.opened]
    have applied : step alu code (.opened host declared.length (declared ++ [entry])) =
        some (.entered host entry declared) := by
      have fetched := here.tail.right.head
      rw [List.length_map, Nat.zero_add, Nat.add_comm] at fetched
      rw [step_of_fetch fetched, execute_rap small taken rfl]
      simp [State.entered, State.opened, Frame.ofDeclarations, length]
    refine ⟨_, ?_, loaded.trans (.single applied), fun earlier bound => ?_⟩
    · simp [length]
    -- a beginning of the closures accounts for each state before
    · cases earlier with
      | zero => exact ⟨_, .refl _, rfl⟩
      | succ number =>
        have split : (declared ++ [entry]).map Instr.ldfOffset =
            ((declared ++ [entry]).take number).map Instr.ldfOffset ++
              ((declared ++ [entry]).drop number).map Instr.ldfOffset := by
          rw [← List.map_append, List.take_append_drop]
        rw [split, List.append_assoc] at here
        have made : ((declared ++ [entry]).take number).length = number := by
          rw [List.length_take_of_le]
          simp only [List.length_append, List.length_singleton] at bound ⊢
          omega
        have partly := runs_opened alu small here host
        rw [made] at partly
        exact ⟨_, partly, congrArg (· + 1) made⟩

/-! ## The invariant -/

/-- The closure of a function in the frame of the declarations. -/
def Declared (entries : List Nat) (closure : Closure) : Prop :=
  closure.entry ∈ entries ∧ closure.env = 1

/-- The frame of a call: its arguments, right inside the frame of the declarations. -/
def Frame.OfCall (entries : List Nat) (frame : Frame) : Prop :=
  ∃ args : List (Value Closure), frame = ⟨args.map some, some 1⟩ ∧
    ∀ value ∈ args, value.All (Declared entries)

/-- All frames but the first two are frames of calls. -/
def HeapOfCalls (host : List HostValue) (entries : List Nat) (heap : List Frame) : Prop :=
  ∃ calls, heap = .ofHost host :: .ofDeclarations entries :: calls ∧
    ∀ frame ∈ calls, frame.OfCall entries

/-- Code of the function runs in frame `env` of a heap with `frames` frames. -/
def Routine.Fits (main routine : Routine) (frames env : Nat) : Prop :=
  if routine.decl.name = main.decl.name then env = 1 else 2 ≤ env ∧ env < frames

/-- The control stack while code of a function runs: after a branch that code goes on, after a call
the code of the caller does. At the bottom the entry function returns to the preamble. -/
inductive Unwinds (main : Routine) (others : List Routine) (last frames : Nat) :
    Routine → List Control → Prop where
  | bottom (routine : Routine) : Unwinds main others last frames routine [.ret last 0]
  | branch {routine : Routine} {resume : Nat} {control : List Control}
      (inside : routine.Holds resume) (below : Unwinds main others last frames routine control) :
    Unwinds main others last frames routine (.join resume :: control)
  | call {routine caller : Routine} {resume env : Nat} {control : List Control}
      (isCaller : caller ∈ main :: others) (inside : caller.Holds resume)
      (fits : main.Fits caller frames env) (below : Unwinds main others last frames caller control) :
    Unwinds main others last frames routine (.ret resume env :: control)

/-- Code of the function runs. -/
structure Running (main : Routine) (others : List Routine) (host : List HostValue) (last : Nat)
    (routine : Routine) (state : State) : Prop where
  isRoutine : routine ∈ main :: others
  inside : routine.Holds state.pc
  fits : main.Fits routine state.heap.length state.env
  unwinds : Unwinds main others last state.heap.length routine state.control
  heap : HeapOfCalls host (others.map (·.body.offset)) state.heap
  stack : ∀ value ∈ state.stack, value.All (Declared (others.map (·.body.offset)))

/-- The entry function has been entered: code of some function runs or the program is about to
return to its caller. -/
def Underway (main : Routine) (others : List Routine) (host : List HostValue) (last : Nat)
    (state : State) : Prop :=
  (∃ routine, Running main others host last routine state) ∨ state.pc = last ∧ state.control = []

theorem Routine.Fits.mono {main routine : Routine} {frames more env : Nat}
    (fits : main.Fits routine frames env) (le : frames ≤ more) : main.Fits routine more env := by
  unfold Routine.Fits at *
  split at fits
  case isTrue isMain => rwa [if_pos isMain]
  case isFalse isOther =>
    rw [if_neg isOther]
    omega

theorem Unwinds.mono {main : Routine} {others : List Routine} {last frames more : Nat}
    {routine : Routine} {control : List Control}
    (unwinds : Unwinds main others last frames routine control) (le : frames ≤ more) :
    Unwinds main others last more routine control := by
  induction unwinds with
  | bottom routine => exact .bottom routine
  | branch inside _ ih => exact .branch inside ih
  | call isCaller inside fits _ ih => exact .call isCaller inside (fits.mono le) ih

theorem mem_of_frameAt {heap : List Frame} {frame : Frame} : ∀ {depth env : Nat},
    frameAt heap env depth = some frame → frame ∈ heap
  | 0, _, found => List.mem_of_getElem? found
  | depth + 1, env, found => by
    simp only [frameAt, Option.bind_eq_bind, Option.bind_eq_some_iff] at found
    obtain ⟨_, _, _, _, outer⟩ := found
    exact mem_of_frameAt outer

namespace HeapOfCalls

variable {host : List HostValue} {entries : List Nat} {heap : List Frame}

/-- What is loaded holds no other functions than the declared ones. -/
theorem all_slot {state : State} (ofCalls : HeapOfCalls host entries state.heap) {depth index : Nat}
    {value : Value Closure} (loaded : state.slot depth index = some value) :
    value.All (Declared entries) := by
  simp only [State.slot, Option.bind_eq_bind, Option.bind_eq_some_iff] at loaded
  obtain ⟨frame, found, content, atIndex, rfl⟩ := loaded
  have isFrame := mem_of_frameAt found
  have isSlot := List.mem_of_getElem? atIndex
  obtain ⟨calls, isHeap, each⟩ := ofCalls
  rw [isHeap] at isFrame
  rcases List.mem_cons.mp isFrame with rfl | isInner
  · -- the host passes no functions
    obtain ⟨hostValue, -, same⟩ := List.mem_map.mp isSlot
    cases same
    exact Value.all_embed _ hostValue
  rcases List.mem_cons.mp isInner with rfl | isCall
  · obtain ⟨entry, isEntry, same⟩ := List.mem_map.mp isSlot
    cases same
    exact ⟨isEntry, rfl⟩
  · obtain ⟨args, rfl, good⟩ := each frame isCall
    obtain ⟨arg, isArg, same⟩ := List.mem_map.mp isSlot
    cases same
    exact good _ isArg

theorem call (ofCalls : HeapOfCalls host entries heap) {frame : Frame}
    (isCall : frame.OfCall entries) : HeapOfCalls host entries (heap ++ [frame]) := by
  obtain ⟨calls, rfl, each⟩ := ofCalls
  refine ⟨calls ++ [frame], rfl, fun other isOther => ?_⟩
  rcases List.mem_append.mp isOther with isOld | isNew
  · exact each other isOld
  · rwa [List.mem_singleton.mp isNew]

theorem two_le (ofCalls : HeapOfCalls host entries heap) : 2 ≤ heap.length := by
  obtain ⟨calls, rfl, -⟩ := ofCalls
  simp

end HeapOfCalls

namespace Running

variable {options : Options} {program : Program} {listing : Listing} {main : Routine}
  {others : List Routine} {depth : Nat} {host : List HostValue} {last : Nat} {routine : Routine}
  {state : State}

/-- Going on in the same function changes nothing but the stack. -/
theorem goesOn (running : Running main others host last routine state) {pc : Nat}
    (inside : routine.Holds pc) {stack : List (Value Closure)}
    (good : ∀ value ∈ stack, value.All (Declared (others.map (·.body.offset)))) :
    Running main others host last routine { state with pc, stack } :=
  { running with inside, stack := good }

/-- A call enters a declared function in a frame of its own. -/
theorem call (running : Running main others host last routine state)
    (image : Image options program listing main others depth) (inside : routine.Holds (state.pc + 1))
    {count : Nat} {closure : Closure} {args rest : List (Value Closure)}
    (taken : takeCall count state.stack = some (closure, args, rest)) :
    ∃ callee, Running main others host last callee (state.call closure args rest) := by
  have good := running.stack
  rw [(takeCall_eq_some.mp taken).2] at good
  simp only [List.forall_mem_cons, List.forall_mem_append, List.mem_reverse] at good
  -- what is called lay on the stack, so it is the closure of a declared function
  obtain ⟨⟨isEntry, isEnv⟩, goodArgs, goodRest⟩ := good
  obtain ⟨callee, isCallee, isOffset⟩ := List.mem_map.mp isEntry
  have longer : state.heap.length ≤ (state.call closure args rest).heap.length := by
    simp [State.call]
  refine ⟨callee, List.mem_cons_of_mem _ isCallee, ?_, ?_, ?_, ?_, goodRest⟩
  · rw [State.call, ← isOffset]
    exact ⟨_, List.mem_cons_self, image.holds_offset (List.mem_cons_of_mem _ isCallee) List.mem_cons_self⟩
  · rw [Routine.Fits, if_neg (image.name_ne_of_mem isCallee)]
    have enough := running.heap.two_le
    simp only [State.call, List.length_append, List.length_singleton]
    omega
  · exact .call running.isRoutine inside (running.fits.mono longer) (running.unwinds.mono longer)
  · exact running.heap.call ⟨args, by rw [isEnv], goodArgs⟩

theorem ofReturn {alu : Alu} {next : State} (running : Running main others host last routine state)
    (executed : execute alu (.plain .rtn) state = some next) :
    Underway main others host last next := by
  obtain ⟨pc, stack, env, control, heap⟩ := state
  cases running.unwinds with
  | bottom =>
    cases executed
    exact .inr ⟨rfl, rfl⟩
  | branch => cases executed
  | call isCaller inside fits below =>
    cases executed
    exact .inl ⟨_, isCaller, inside, fits, below, running.heap, running.stack⟩

theorem ofJoin {alu : Alu} {next : State} (running : Running main others host last routine state)
    (executed : execute alu (.plain .join) state = some next) :
    Running main others host last routine next := by
  obtain ⟨pc, stack, env, control, heap⟩ := state
  cases running.unwinds with
  | bottom => cases executed
  | branch inside below =>
    cases executed
    exact ⟨running.isRoutine, inside, running.fits, below, running.heap, running.stack⟩
  | call => cases executed

theorem ofBranch (running : Running main others host last routine state)
    (image : Image options program listing main others depth) {alu : Alu} {next : State}
    (inside : routine.Holds (state.pc + 1)) {thenBlock elseBlock : PlacedBlock} (isThen : thenBlock ∈ routine.blocks)
    (isElse : elseBlock ∈ routine.blocks) {instr : Instr} (isBranch : instr.opcode = .sel)
    (operands : instr.args = [.offset thenBlock.offset, .offset elseBlock.offset])
    (executed : execute alu instr state = some next) :
    Running main others host last routine next := by
  obtain ⟨pc, stack, env, control, heap⟩ := state
  simp only [execute, isBranch, operands] at executed
  split at executed
  case h_2 => cases executed
  case h_1 _ condition rest =>
  cases executed
  have good := (List.forall_mem_cons.mp running.stack).2
  have entered : routine.Holds (if condition = 0 then elseBlock.offset else thenBlock.offset) := by
    split
    · exact ⟨_, isElse, image.holds_offset running.isRoutine isElse⟩
    · exact ⟨_, isThen, image.holds_offset running.isRoutine isThen⟩
  exact ⟨running.isRoutine, entered, running.fits, .branch inside running.unwinds, running.heap, good⟩

theorem ofComputes (running : Running main others host last routine state)
    (image : Image options program listing main others depth) {alu : Alu} {next : State}
    (inside : routine.Holds (state.pc + 1)) {scope : Scope} {instr : Instr}
    (computes : Computes scope instr) (executed : execute alu instr state = some next) :
    ∃ after, Running main others host last after next := by
  have pushed : ∀ value : Value Closure, value.All (Declared (others.map (·.body.offset))) →
      Running main others host last routine (state.push value) := by
    intro value good
    exact running.goesOn inside (List.forall_mem_cons.mpr ⟨good, running.stack⟩)
  cases computes with
  | number value =>
    cases executed
    exact ⟨_, pushed _ trivial⟩
  | text source =>
    cases executed
    exact ⟨_, pushed _ trivial⟩
  | load found =>
    simp only [execute, Instr.ldAddress, Option.bind_eq_bind, Option.bind_eq_some_iff,
      Option.pure_def, Option.some.injEq] at executed
    obtain ⟨_, _, _, _, value, loaded, rfl⟩ := executed
    exact ⟨_, pushed value (running.heap.all_slot loaded)⟩
  | apply argCount =>
    simp only [execute, Instr.ap, Option.bind_eq_bind, Option.bind_eq_some_iff,
      Option.pure_def, Option.some.injEq] at executed
    obtain ⟨count, _, ⟨closure, args, rest⟩, taken, rfl⟩ := executed
    exact running.call image inside taken
  | operation isOperation =>
    rw [execute_operation isOperation, Option.map_eq_some_iff] at executed
    obtain ⟨stack, computed, rfl⟩ := executed
    exact ⟨_, running.goesOn inside (Opcode.all_of_compute computed running.stack)⟩

/-- One step inside the code of a function. -/
theorem step (running : Running main others host last routine state)
    (image : Image options program listing main others depth) {alu : Alu} {next : State}
    (steps : Secd.step alu listing.instructions state = some next) :
    Underway main others host last next := by
  obtain ⟨instr, fetched, isReturn | isJoin | ⟨inside, isInner⟩⟩ :=
    image.fetch_cases running.isRoutine running.inside
  all_goals rw [step_of_fetch fetched] at steps
  · rw [isReturn] at steps
    exact running.ofReturn steps
  · rw [isJoin] at steps
    exact .inl ⟨routine, running.ofJoin steps⟩
  · rcases isInner with computes | ⟨isBranch, thenBlock, isThen, elseBlock, isElse, operands⟩
    · exact .inl (running.ofComputes image inside computes steps)
    · exact .inl ⟨routine, running.ofBranch image inside isThen isElse isBranch operands steps⟩

end Running

namespace Image

variable {options : Options} {program : Program} {listing : Listing} {main : Routine}
  {others : List Routine} {depth : Nat}

theorem length_preamble (image : Image options program listing main others depth) :
    listing.preamble.length = (startCode main.body.offset (others.map (·.body.offset))).length := by
  rw [← image.start, List.length_map]

/-- The preamble ends in `RTN`. -/
theorem fetch_last (image : Image options program listing main others depth) :
    fetch listing.instructions (listing.preamble.length - 1) = some (.plain .rtn) := by
  obtain ⟨code, split, -⟩ := startCode_eq main.body.offset (others.map (·.body.offset))
  have here := image.codeAt_start
  rw [split] at here
  have last : listing.preamble.length - 1 = 0 + code.length := by
    rw [image.length_preamble, split, List.length_append, List.length_singleton]
    omega
  rw [last]
  exact here.right.head

theorem underway_entered (image : Image options program listing main others depth)
    (host : List HostValue) : Underway main others host (listing.preamble.length - 1)
      (.entered host main.body.offset (others.map (·.body.offset))) := by
  refine .inl ⟨main, List.mem_cons_self, ?_, ?_, ?_, ⟨[], rfl, by simp⟩, by simp [State.entered]⟩
  · exact ⟨_, List.mem_cons_self, image.holds_offset List.mem_cons_self List.mem_cons_self⟩
  · rw [Routine.Fits, if_pos rfl]
    rfl
  · rw [image.length_preamble]
    exact .bottom main

theorem underway_step (image : Image options program listing main others depth)
    {host : List HostValue} {alu : Alu} {state next : State}
    (underway : Underway main others host (listing.preamble.length - 1) state)
    (steps : step alu listing.instructions state = some next) :
    Underway main others host (listing.preamble.length - 1) next := by
  rcases underway with ⟨routine, running⟩ | ⟨isLast, returned⟩
  · exact running.step image steps
  · rw [step_of_fetch (isLast ▸ image.fetch_last)] at steps
    simp [execute, Instr.plain, returned] at steps

/-- The preamble enters the entry function. -/
theorem enters (image : Image options program listing main others depth)
    (countable : program.Countable) (alu : Alu) (host : List HostValue) :
    ∃ count, count + 1 = listing.preamble.length ∧
      Runs alu listing.instructions count (.initial host)
        (.entered host main.body.offset (others.map (·.body.offset))) ∧
      ∀ earlier < count, ∃ state,
        Runs alu listing.instructions earlier (.initial host) state ∧ state.pc = earlier := by
  have small : (others.map (·.body.offset)).length < 2 ^ 63 := by
    rw [List.length_map]
    exact image.length_others_lt countable
  rw [image.length_preamble]
  exact runs_start small image.codeAt_start host

/-- Outside the preamble, code of some function runs. -/
theorem running_of_runs (image : Image options program listing main others depth)
    (countable : program.Countable) {alu : Alu} {host : List HostValue} {count : Nat} {state : State}
    (runs : Runs alu listing.instructions count (.initial host) state)
    (outside : listing.preamble.length ≤ state.pc) :
    ∃ routine, Running main others host (listing.preamble.length - 1) routine state := by
  obtain ⟨start, startLength, enters, before⟩ := image.enters countable alu host
  by_cases early : count < start
  · obtain ⟨other, otherRuns, isPc⟩ := before count early
    rw [runs.deterministic otherRuns] at outside
    omega
  -- the rest of the run starts where the entry function is entered
  have later : Runs alu listing.instructions (count - start) (.entered host main.body.offset
      (others.map (·.body.offset))) state :=
    enters.rest (by rwa [Nat.add_sub_cancel' (by omega)])
  rcases later.preserves _ image.underway_step (image.underway_entered host) with
    running | ⟨isLast, -⟩
  · exact running
  · omega

end Image

/-! ## The frames in reach -/

/-- The frames from an environment outward, each as its number and its slots. -/
def IsChain (heap : List Frame) : Option Nat → List (Nat × List (Option (Value Closure))) → Prop
  | env, [] => env = none
  | env, (address, slots) :: outer =>
    env = some address ∧ ∃ parent, heap[address]? = some ⟨slots, parent⟩ ∧ IsChain heap parent outer

/-- The slots of a frame hold the closures of the named functions over the frame at `env`. -/
def HoldsClosures (listing : Listing) (names : List String) (env : Nat)
    (slots : List (Option (Value Closure))) : Prop :=
  List.Forall₂ (fun name slot => ∃ entry, listing.offset? name = some entry ∧
    slot = some (.function ⟨entry, env⟩)) names slots

theorem Image.holdsClosures {options : Options} {program : Program} {listing : Listing}
    {main : Routine} {others : List Routine} {depth : Nat}
    (image : Image options program listing main others depth) :
    HoldsClosures listing (declarations program.functions main.decl.name) 1
      (Frame.ofDeclarations (others.map (·.body.offset))).slots := by
  rw [HoldsClosures, image.declarations_eq, Frame.ofDeclarations, List.map_map,
    List.forall₂_map_left_iff, List.forall₂_map_right_iff, List.forall₂_same]
  intro routine isOther
  exact ⟨_, image.offset?_eq (List.mem_cons_of_mem _ isOther), rfl⟩

/-- A load from a slot that a name in scope stands for. The frame is there and none of its slots is
empty; the load fails only where the frame was given fewer values than it has names. -/
def LoadsFrom (alu : Alu) (code : List Instr) (scope : Scope) (state : State) (instr : Instr) : Prop :=
  ∃ name address names frame, scope.address? name = some address ∧ instr = .ldAddress address ∧
    scope[address.depth]? = some names ∧ names[address.index]? = some name ∧
    frameAt state.heap state.env address.depth = some frame ∧ none ∉ frame.slots ∧
    (step alu code state = none ↔ frame.slots.length ≤ address.index)

theorem IsChain.eq_nil {heap : List Frame} {chain : List (Nat × List (Option (Value Closure)))}
    (isChain : IsChain heap none chain) : chain = [] := by
  cases chain with
  | nil => rfl
  | cons link outer => cases isChain.1

theorem IsChain.frameAt {heap : List Frame} : ∀ {depth env : Nat}
    {chain : List (Nat × List (Option (Value Closure)))} {link : Nat × List (Option (Value Closure))},
    IsChain heap (some env) chain → chain[depth]? = some link →
      ∃ parent, frameAt heap env depth = some ⟨link.2, parent⟩
  | _, _, [], _, _, found => by cases found
  | 0, _, _ :: _, _, isChain, found => by
    cases found
    obtain ⟨same, parent, isFrame, -⟩ := isChain
    cases same
    exact ⟨parent, isFrame⟩
  | depth + 1, _, _ :: _, _, isChain, found => by
    obtain ⟨same, parent, isFrame, outer⟩ := isChain
    cases same
    rw [List.getElem?_cons_succ] at found
    cases parent with
    | none =>
      cases outer.eq_nil
      cases found
    | some parent =>
      obtain ⟨further, isFurther⟩ := outer.frameAt found
      refine ⟨further, ?_⟩
      simp [Secd.frameAt, isFrame, isFurther]

/-- The address of a name leads to a slot of that name. -/
theorem Scope.getElem?_of_address? {name : String} : ∀ {scope : Scope} {address : Address},
    scope.address? name = some address →
      ∃ names, scope[address.depth]? = some names ∧ names[address.index]? = some name
  | frame :: outer, address, found => by
    cases inFrame : frame.idxOf? name with
    | some index =>
      rw [Scope.address?_cons_of_some outer inFrame] at found
      cases found
      obtain ⟨bound, isName, -⟩ := List.idxOf?_eq_some_iff.mp inFrame
      exact ⟨frame, rfl, List.getElem?_eq_some_iff.mpr ⟨bound, isName⟩⟩
    | none =>
      rw [Scope.address?_cons_of_none outer inFrame, Option.map_eq_some_iff] at found
      obtain ⟨further, isFurther, rfl⟩ := found
      obtain ⟨names, isNames, isName⟩ := getElem?_of_address? isFurther
      exact ⟨names, isNames, isName⟩

theorem Program.Countable.length_lt {program : Program} (countable : program.Countable)
    {main decl : FunctionDecl} (isMain : main ∈ program.functions) (isDecl : decl ∈ program.functions) :
    ∀ names ∈ framesOf program.functions main decl, names.length < 2 ^ 63 := by
  have declared : (declarations program.functions main.name).length < 2 ^ 63 := by
    rw [declarations, List.length_map, functionsExcept]
    exact Nat.lt_of_le_of_lt (List.length_filter_le _ _) countable.functions
  have ofMain := countable.params main isMain
  have ofDecl := countable.params decl isDecl
  intro names member
  unfold framesOf at member
  split at member <;> simp only [List.mem_cons, List.not_mem_nil, or_false] at member
  · rcases member with rfl | rfl <;> assumption
  · rcases member with rfl | rfl | rfl <;> assumption

/-- Every address fits into machine words. -/
def Scope.Addressable (scope : Scope) : Prop :=
  ∀ name address, scope.address? name = some address →
    address.depth < 2 ^ 63 ∧ address.index < 2 ^ 63

theorem length_framesOf_le (functions : List FunctionDecl) (main decl : FunctionDecl) :
    (framesOf functions main decl).length ≤ 3 := by
  unfold framesOf
  split <;> simp

theorem Program.Countable.addressable {program : Program} (countable : program.Countable)
    {main decl : FunctionDecl}
    (isMain : main ∈ program.functions) (isDecl : decl ∈ program.functions) :
    (framesOf program.functions main decl).Addressable := by
  intro name address found
  obtain ⟨names, isNames, isName⟩ := Scope.getElem?_of_address? found
  have depthBound := (List.getElem?_eq_some_iff.mp isNames).1
  have indexBound := (List.getElem?_eq_some_iff.mp isName).1
  have three := length_framesOf_le program.functions main decl
  have counted := countable.length_lt isMain isDecl names (List.mem_of_getElem? isNames)
  exact ⟨by omega, by omega⟩

/-- The frames that code of a function runs in. -/
theorem Running.chain {main : Routine} {others : List Routine} {host : List HostValue} {last : Nat}
    {routine : Routine} {state : State} (running : Running main others host last routine state) :
    ∃ inner, IsChain state.heap (some state.env) (inner ++
        [(1, (Frame.ofDeclarations (others.map (·.body.offset))).slots), (0, (Frame.ofHost host).slots)]) ∧
      (routine.decl.name = main.decl.name → inner = []) ∧
      (routine.decl.name ≠ main.decl.name →
        ∃ args : List (Value Closure), inner = [(state.env, args.map some)]) := by
  obtain ⟨calls, isHeap, each⟩ := running.heap
  -- the first two frames stay what the preamble made them
  have outer : IsChain state.heap (some 1)
      [(1, (Frame.ofDeclarations (others.map (·.body.offset))).slots), (0, (Frame.ofHost host).slots)] := by
    rw [isHeap]
    exact ⟨rfl, _, rfl, rfl, _, rfl, rfl⟩
  have fits := running.fits
  unfold Routine.Fits at fits
  split at fits
  case isTrue isMain =>
    rw [fits]
    exact ⟨[], outer, fun _ => rfl, fun isOther => absurd isMain isOther⟩
  case isFalse isOther =>
    obtain ⟨number, isEnv⟩ := Nat.exists_eq_add_of_le' fits.1
    have bound : number < calls.length := by
      have upper := fits.2
      rw [isHeap] at upper
      simp only [List.length_cons] at upper
      omega
    have found : state.heap[state.env]? = some calls[number] := by
      rw [isHeap, isEnv]
      exact List.getElem?_eq_getElem bound
    obtain ⟨args, isFrame, -⟩ := each _ (List.getElem_mem bound)
    rw [isFrame] at found
    exact ⟨[(state.env, args.map some)], ⟨rfl, _, found, outer⟩,
      fun isMain => absurd isMain isOther, fun _ => ⟨args, rfl⟩⟩

/-- There is a frame for each part of the scope, and all slots are filled. -/
theorem Running.chain_of_scope {main : Routine} {others : List Routine} {host : List HostValue}
    {last : Nat} {routine : Routine} {state : State}
    (running : Running main others host last routine state) (functions : List FunctionDecl) :
    ∃ chain, IsChain state.heap (some state.env) chain ∧
      chain.length = (framesOf functions main.decl routine.decl).length ∧
      ∀ link ∈ chain, none ∉ link.2 := by
  obtain ⟨inner, isChain, ofMain, ofOther⟩ := running.chain
  refine ⟨_, isChain, ?_, ?_⟩
  all_goals
    by_cases isMain : routine.decl.name = main.decl.name
    · simp [ofMain isMain, framesOf, isMain, Frame.ofDeclarations, Frame.ofHost]
    · obtain ⟨args, isInner⟩ := ofOther isMain
      simp [isInner, framesOf, isMain, Frame.ofDeclarations, Frame.ofHost]

/-- Loads in the code of a function stay inside the frames in reach. -/
theorem Running.loadsFrom {options : Options} {program : Program} {listing : Listing} {main : Routine}
    {others : List Routine} {depth : Nat} {host : List HostValue} {last : Nat} {routine : Routine}
    {state : State} (running : Running main others host last routine state)
    (image : Image options program listing main others depth) (countable : program.Countable)
    {alu : Alu} {instr : Instr} (fetched : fetch listing.instructions state.pc = some instr)
    (isLoad : instr.opcode = .ld) :
    LoadsFrom alu listing.instructions (framesOf program.functions main.decl routine.decl) state
      instr := by
  -- only names in scope have become loads
  obtain ⟨name, address, found, rfl⟩ : ∃ name address,
      (framesOf program.functions main.decl routine.decl).address? name = some address ∧
        instr = .ldAddress address := by
    obtain ⟨other, otherFetched, kind⟩ := image.fetch_cases running.isRoutine running.inside
    rw [fetched] at otherFetched
    cases otherFetched
    rcases kind with rfl | rfl | ⟨-, computes | ⟨isBranch, -⟩⟩
    · cases isLoad
    · cases isLoad
    · cases computes with
      | load found => exact ⟨_, _, found, rfl⟩
      | @operation opcode isOperation =>
        change opcode = .ld at isLoad
        rw [isLoad] at isOperation
        cases isOperation
      | _ => cases isLoad
    · rw [isLoad] at isBranch
      cases isBranch
  obtain ⟨names, isNames, isName⟩ := Scope.getElem?_of_address? found
  obtain ⟨chain, isChain, sameLength, filled⟩ := running.chain_of_scope program.functions
  have depthBound : address.depth < chain.length := by
    rw [sameLength]
    exact (List.getElem?_eq_some_iff.mp isNames).1
  obtain ⟨parent, isFrame⟩ := isChain.frameAt (List.getElem?_eq_getElem depthBound)
  have noneEmpty := filled _ (List.getElem_mem depthBound)
  refine ⟨name, address, names, _, found, rfl, isNames, isName, isFrame, noneEmpty, ?_⟩
  obtain ⟨depthSmall, indexSmall⟩ := countable.addressable image.isFunction
    (image.decl_mem running.isRoutine) name address found
  -- the frame is there, so the load depends on the slot alone
  rw [step_of_fetch fetched, execute_ldAddress depthSmall indexSmall, Option.map_eq_none_iff,
    ← List.getElem?_eq_none_iff]
  simp only [State.slot, isFrame, Option.bind_eq_bind, Option.bind_some]
  cases content : chain[address.depth].2[address.index]? with
  | none => simp
  | some slot =>
    cases slot with
    | none => exact absurd (List.mem_of_getElem? content) noneEmpty
    | some value => simp

/-- The calling convention. In every state that a run from address zero reaches, code of the entry
function runs in the frame of the declarations right inside the frame of the host, code of any other
function in a frame of arguments right inside these two. The slots of the declarations hold the
closures of the other functions in the order of their declarations, each over that frame. Loads find
their frame and no slot is empty. -/
theorem calling_convention {options : Options} {program : Program} {listing : Listing}
    (dotFree : program.DotFree) (countable : program.Countable)
    (compiled : compile options program = .ok listing) :
    ∃ main ∈ program.functions, main.name = options.entry ∧
      ∀ {alu : Alu} {host : List HostValue} {count : Nat} {state : State},
        Runs alu listing.instructions count (.initial host) state →
      ∀ decl ∈ program.functions, ∀ block ∈ listing.blocks, Under decl.name block.name →
        block.Holds state.pc →
        ∃ base outer declared,
          HoldsClosures listing (declarations program.functions main.name) base declared ∧
          (decl.name = main.name → IsChain state.heap (some state.env)
            [(base, declared), (outer, (Frame.ofHost host).slots)]) ∧
          (decl.name ≠ main.name → ∃ args : List (Value Closure), IsChain state.heap (some state.env)
            [(state.env, args.map some), (base, declared), (outer, (Frame.ofHost host).slots)]) ∧
          ∀ instr, fetch listing.instructions state.pc = some instr → instr.opcode = .ld →
            LoadsFrom alu listing.instructions (framesOf program.functions main decl) state instr := by
  obtain ⟨main, others, depth, image⟩ := Image.of_compile dotFree compiled
  refine ⟨main.decl, image.isFunction, image.isEntry, ?_⟩
  intro alu host count state runs decl isDecl block isBlock under inBlock
  have outside := image.contiguous.offset_ge block isBlock
  obtain ⟨routine, running⟩ := image.running_of_runs countable runs (Nat.le_trans outside inBlock.1)
  -- the name of the block tells the function whose code runs
  have sameName := image.name_eq_of_holds dotFree running.isRoutine running.inside isDecl isBlock
    under inBlock
  have same : routine.decl = decl := List.inj_on_of_nodup_map image.nodupFunctions
    (image.decl_mem running.isRoutine) isDecl sameName
  subst same
  obtain ⟨inner, isChain, ofMain, ofOther⟩ := running.chain
  refine ⟨1, 0, (Frame.ofDeclarations (others.map (·.body.offset))).slots, image.holdsClosures,
    fun isMain => ?_, fun isOther => ?_,
    fun instr fetched isLoad => running.loadsFrom image countable fetched isLoad⟩
  · rwa [ofMain isMain] at isChain
  · obtain ⟨args, isInner⟩ := ofOther isOther
    rw [isInner] at isChain
    exact ⟨args, isChain⟩

theorem calling_convention_countdown :
    ∃ listing count state base outer declared, compile {} countdown = .ok listing ∧
      Runs .wrapping listing.instructions count (.initial [.int 2]) state ∧
      HoldsClosures listing ["down"] base declared ∧
      IsChain state.heap (some state.env) [(base, declared), (outer, [some (.int 2)])] := by
  obtain ⟨listing, compiled⟩ := countdown_compiles
  obtain ⟨entry, isEntry, named, convention⟩ :=
    calling_convention countdown_dotFree countdown_countable compiled
  -- the state in which the preamble enters the entry function
  obtain ⟨main, others, depth, image⟩ := Image.of_compile countdown_dotFree compiled
  obtain ⟨start, -, enters, -⟩ := image.enters countdown_countable .wrapping [.int 2]
  have same : main.decl.name = entry.name := by rw [image.isEntry, named]
  have under : Under main.decl.name main.body.name := by
    rw [(image.realised main List.mem_cons_self).name]
    exact .refl _
  obtain ⟨base, outer, declared, holds, chain, -⟩ := convention enters main.decl image.isFunction
    main.body (image.mem_blocks List.mem_cons_self List.mem_cons_self) under
    (image.holds_offset List.mem_cons_self List.mem_cons_self)
  rw [named] at holds
  exact ⟨listing, start, _, base, outer, declared, compiled, enters, holds, chain same⟩

end Secd
