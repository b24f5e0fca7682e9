import Secd.Proofs.CallingConvention
import Secd.Proofs.Occurrences

namespace Secd

open Results

/-! # Loads of parameters

A name in a function body means the nearest variable of that name, whatever else the program calls
by it. The parameters of a function are nearest to its code, except in the entry function: there the
frame of declarations lies in between, so a function hides a parameter of the entry function that is
named like it. What is emitted for a parameter is therefore known from the names alone
(`parameter_load`).
-/

/-! ## Addresses of parameters -/

theorem idxOf?_of_mem {frame : List String} {name : String} (member : name ∈ frame) :
    frame.idxOf? name = some (frame.idxOf name) := by
  cases found : frame.idxOf? name with
  | none => exact absurd member (List.idxOf?_eq_none_iff.mp found)
  | some index => rw [List.idxOf_eq_getD_idxOf?, found, Option.getD_some]

/-- The slot that a parameter is loaded from when its function is running. -/
def parameterSlot (functions : List FunctionDecl) (entry : String) (decl : FunctionDecl)
    (name : String) : Address :=
  if decl.name ≠ entry then ⟨0, decl.params.idxOf name⟩
  else if name ∈ declarations functions entry then ⟨0, (declarations functions entry).idxOf name⟩
  else ⟨1, decl.params.idxOf name⟩

theorem address?_of_parameter (functions : List FunctionDecl) (main : FunctionDecl)
    {decl : FunctionDecl} {name : String} (isParam : name ∈ decl.params)
    (sameMain : decl.name = main.name → decl = main) :
    (framesOf functions main decl).address? name =
      some (parameterSlot functions main.name decl name) := by
  unfold framesOf parameterSlot
  by_cases isEntry : decl.name = main.name
  · obtain rfl := sameMain isEntry
    simp only [if_true, ne_eq, not_true_eq_false, if_false]
    by_cases isFunction : name ∈ declarations functions decl.name
    · rw [if_pos isFunction, Scope.address?_cons_of_some _ (idxOf?_of_mem isFunction)]
    · rw [if_neg isFunction, Scope.address?_cons_of_none _ (List.idxOf?_eq_none_iff.mpr isFunction),
        Scope.address?_cons_of_some _ (idxOf?_of_mem isParam)]
      rfl
  · rw [if_neg isEntry, if_pos isEntry, Scope.address?_cons_of_some _ (idxOf?_of_mem isParam)]

/-! ## What is emitted -/

/-- The instruction loads the given slot, in the machine's numbers. -/
def Instr.LoadsSlot (instr : Instr) (depth index : Nat) : Prop :=
  instr.opcode = .ld ∧ ∃ frames slot : Int64, instr.args = [.int frames, .int slot] ∧
    frames.toInt = depth ∧ slot.toInt = index

theorem Instr.loadsSlot_of_ldAddress {instr : Instr} {address : Address}
    (loads : instr.uncommented = .ldAddress address) (depthSmall : address.depth < 2 ^ 63)
    (indexSmall : address.index < 2 ^ 63) : instr.LoadsSlot address.depth address.index := by
  obtain ⟨opcode, args, comment⟩ := instr
  cases loads
  exact ⟨rfl, _, _, rfl, Int64.toInt_ofNat_of_lt depthSmall, Int64.toInt_ofNat_of_lt indexSmall⟩

/-- Wherever a function mentions one of its parameters, as an identifier or as what it calls, in its
body or in an arm, one load is emitted. It is that of the parameter's own slot, in the nearest frame
or, in the entry function, one frame further out; only where the entry function has a parameter
named like another function, it is the slot of that function. -/
theorem parameter_load {options : Options} {program : Program} {listing : Listing}
    (countable : program.Countable) (compiled : compile options program = .ok listing)
    {decl : FunctionDecl} (isDecl : decl ∈ program.functions) {context : BodyContext}
    {occurrence : Expr} (written : decl.body = context.fill occurrence) {name : String}
    {args : List Expr} {load : Instr} (mentions : occurrence.Mentions decl.params name args load)
    (isParam : name ∈ decl.params) :
    ∃ site placed earlier instr,
      Located options program listing decl context.number site placed ∧
      Expr.codes options decl.params args = .ok earlier ∧
      Emitted options listing.blocks decl.params context site placed earlier [load] [instr] ∧
      (decl.name ≠ options.entry → instr.LoadsSlot 0 (decl.params.idxOf name)) ∧
      (decl.name = options.entry → name ∉ declarations program.functions options.entry →
        instr.LoadsSlot 1 (decl.params.idxOf name)) ∧
      (decl.name = options.entry → name ∈ declarations program.functions options.entry →
        instr.LoadsSlot 0 ((declarations program.functions options.entry).idxOf name)) := by
  obtain ⟨object, generated, linked⟩ := bind_eq_ok.mp compiled
  obtain ⟨functions, id, main, table, joined⟩ := Joined.of_link generated linked
  obtain ⟨placed, filled, found, filledOk, emitted⟩ := joined.exists_emitted isDecl written
  obtain ⟨earlier, rest, earlierOk, split⟩ := mentions.code_eq filledOk
  obtain ⟨out, lead, before, after, leads, ofLead, ofLoad, isPlaced⟩ :=
    emitted earlier [load] rest split
  -- the name is in scope as a parameter, so constants of this name do not count
  have isMain := joined.assembled.mem_sources (CompiledFunction.mem_of_mem_number joined.isMain)
  have address := address?_of_parameter program.functions main.decl isParam
    (List.inj_on_of_nodup_map joined.assembled.nodup isDecl isMain)
  obtain ⟨instr, rfl, loads⟩ := ofLoad.load mentions.reference? address
  obtain ⟨depthSmall, indexSmall⟩ := countable.addressable isMain isDecl name _ address
  have loadsSlot := Instr.loadsSlot_of_ldAddress loads depthSmall indexSmall
  rw [parameterSlot, joined.isEntry] at loadsSlot
  refine ⟨_, placed, earlier, instr, .intro generated joined found, earlierOk,
    ⟨lead, before, after, leads, ofLead, ofLoad, isPlaced⟩, ?_, ?_, ?_⟩
  · intro isOther
    simpa [isOther] using loadsSlot
  · intro isEntry noFunction
    simpa [isEntry, noFunction] using loadsSlot
  · intro isEntry isFunction
    simpa [isEntry, isFunction] using loadsSlot

/-- A parameter that is named like a function and like a constant, called in an arm. -/
def namesakes : Program where
  name := "namesakes"
  decls := [
    .consts ⟨["step"], .ordinals⟩,
    .function ⟨"step", ["k"], [.expr (.ident "k")]⟩,
    .function ⟨"apply", ["n", "step"], [.ifElse (.ident "n")
      [.expr (.call "step" [.ident "n"])] none]⟩,
    .function ⟨"main", ["n"], [.expr (.call "apply" [.ident "n", .ident "step"])]⟩]

theorem parameter_load_namesakes :
    ∃ listing placed before instr after, compile {} namesakes = .ok listing ∧
      listing.blockOf? namesakes "main" "apply" 1 = some placed ∧
      placed.instrs = before ++ ([instr] ++ after) ∧ instr.LoadsSlot 0 1 := by
  obtain ⟨listing, compiled, -⟩ := exists_ok_of_any (compile {} namesakes) (fun _ => true) (by decide)
  have isDecl : ⟨"apply", ["n", "step"], (BodyContext.inThen [] (.ident "n")
      (.inExpr [] .hole []) none []).fill (.call "step" [.ident "n"])⟩ ∈ namesakes.functions := by
    simp [namesakes, Program.functions, BodyContext.fill, ExprContext.fill]
  have mentions : Expr.Mentions ["n", "step"] "step" (.call "step" [.ident "n"]) [.ident "n"] _ :=
    .call (by decide)
  obtain ⟨site, placed, earlier, instr, located, -, ⟨-, before, after, -, -, -, isPlaced⟩, slot, -⟩ :=
    parameter_load ⟨by decide, by decide, by decide⟩ compiled isDecl rfl mentions (by simp)
  obtain ⟨-, -, found⟩ := located
  exact ⟨listing, placed, before, instr, after, compiled, found, isPlaced, slot (by decide)⟩

/-- An entry function with a parameter that is named like another function. -/
def hiddenParameter : Program where
  name := "p"
  decls := [
    .function ⟨"main", ["step"], [.expr (.ident "step")]⟩,
    .function ⟨"step", [], [.expr (.int 1)]⟩]

/-- In the entry function the parameter is hidden: what is emitted for it is the load of the
function's slot, and nothing in the block loads the parameter's own. -/
theorem hiddenParameter_not_loaded :
    ∃ listing, compile {} hiddenParameter = .ok listing ∧
      (∃ decl ∈ hiddenParameter.functions, decl.name = "main" ∧ "step" ∈ decl.params ∧
        decl.body = (BodyContext.inExpr [] .hole []).fill (.ident "step")) ∧
      ∃ placed, listing.blockOf? hiddenParameter "main" "main" 0 = some placed ∧
        placed.instrs = [⟨.ld, [.count 0, .count 0], some "step"⟩, .plain .rtn] ∧
        ∀ instr ∈ placed.instrs, ¬ instr.LoadsSlot 1 0 := by
  obtain ⟨listing, compiled, holds⟩ := exists_ok_of_any (compile {} hiddenParameter)
    (fun listing => (listing.blockOf? hiddenParameter "main" "main" 0).map PlacedBlock.instrs =
      some [⟨.ld, [.count 0, .count 0], some "step"⟩, .plain .rtn]) (by decide)
  obtain ⟨placed, found, instrs⟩ := Option.map_eq_some_iff.mp (of_decide_eq_true holds)
  refine ⟨listing, compiled, ⟨_, List.mem_cons_self, rfl, by decide, rfl⟩, placed, found, instrs, ?_⟩
  rw [instrs]
  intro instr member
  rintro ⟨isLoad, frames, slot, args, one, -⟩
  rcases List.mem_cons.mp member with rfl | isLast
  · cases args
    cases one
  · rw [List.mem_singleton.mp isLast] at isLoad
    cases isLoad

end Secd
