import Secd.Proofs.Contexts
import Secd.Proofs.Emission
import Secd.Proofs.Generation

namespace Secd

open Results

/-! # Renaming

A renaming gives other names to functions, parameters, constants and all that is called or read. It
keeps different names apart and leaves the names of primitives alone. The code of a renamed program
is the renamed code: where a name was loaded its new name is loaded, and branches lead to arms at
the same places (`FunctionDecl.agree_rename`). Comments and names of arms change with the names they
are made of, but no instruction comes or goes, so a program can be generated exactly if the renamed
one can (`Program.generable_rename_iff`).
-/

/-- Other names, different for different names, that leave the primitives alone. -/
structure Renaming where
  map : String → String
  injective : Function.Injective map
  fixes : ∀ primitive ∈ Primitive.all, map primitive.name = primitive.name

instance : CoeFun Renaming fun _ => String → String := ⟨Renaming.map⟩

/-- No name becomes or ceases to be a primitive. -/
theorem Renaming.find?_eq (naming : Renaming) (name : String) :
    Primitive.find? (naming name) = Primitive.find? name := by
  have same : ∀ primitive ∈ Primitive.all,
      (primitive.name == naming name) = (primitive.name == name) := by
    intro primitive member
    have fixed := naming.fixes primitive member
    rw [Bool.eq_iff_iff, beq_iff_eq, beq_iff_eq]
    constructor
    · exact fun isName => naming.injective (fixed.trans isName)
    · rintro rfl
      exact fixed.symm
  rw [Primitive.find?, Primitive.find?, ← List.head?_filter, ← List.head?_filter,
    List.filter_congr same]

/-! ## Renamed programs -/

def CompositeKind.rename (naming : Renaming) : CompositeKind → CompositeKind
  | .array => .array
  | .struct name => .struct (naming name)
  | .map => .map

namespace Expr

mutual

def rename (naming : Renaming) : Expr → Expr
  | .literal value => .literal value
  | .ident name => .ident (naming name)
  | .binary op lhs rhs => .binary op (lhs.rename naming) (rhs.rename naming)
  | .call func args => .call (naming func) (renameAll naming args)
  | .composite kind elems => .composite (kind.rename naming) (renameAll naming elems)
  | .paren inner => .paren (inner.rename naming)

def renameAll (naming : Renaming) : List Expr → List Expr
  | [] => []
  | expr :: rest => expr.rename naming :: renameAll naming rest

end

theorem renameAll_eq_map (naming : Renaming) (exprs : List Expr) :
    renameAll naming exprs = exprs.map (rename naming) := by
  induction exprs with
  | nil => rfl
  | cons expr rest ih => rw [renameAll, ih, List.map_cons]

@[simp] theorem length_renameAll (naming : Renaming) (exprs : List Expr) :
    (renameAll naming exprs).length = exprs.length := by
  rw [renameAll_eq_map, List.length_map]

end Expr

namespace Stmt

mutual

def rename (naming : Renaming) : Stmt → Stmt
  | .expr value => .expr (value.rename naming)
  | .ifElse cond thenArm elseArm =>
    .ifElse (cond.rename naming) (renameAll naming thenArm) (renameArm naming elseArm)
  | .ret values => .ret (Expr.renameAll naming values)
  | .assign targets values => .assign (targets.map naming) (Expr.renameAll naming values)
  | .loop body => .loop (renameAll naming body)

def renameAll (naming : Renaming) : List Stmt → List Stmt
  | [] => []
  | stmt :: rest => stmt.rename naming :: renameAll naming rest

def renameArm (naming : Renaming) : Option (List Stmt) → Option (List Stmt)
  | none => none
  | some stmts => some (renameAll naming stmts)

end

end Stmt

def FunctionDecl.rename (naming : Renaming) (decl : FunctionDecl) : FunctionDecl where
  name := naming decl.name
  params := decl.params.map naming
  body := Stmt.renameAll naming decl.body

def ConstValues.rename (naming : Renaming) : ConstValues → ConstValues
  | .ordinals => .ordinals
  | .exprs values => .exprs (values.map (Expr.rename naming))

def ConstGroup.rename (naming : Renaming) (group : ConstGroup) : ConstGroup where
  names := group.names.map naming
  values := group.values.rename naming

def Decl.rename (naming : Renaming) : Decl → Decl
  | .function decl => .function (decl.rename naming)
  | .consts group => .consts (group.rename naming)

/-- The program with other names; the name of the program itself is no name in this sense. -/
def Program.rename (naming : Renaming) (program : Program) : Program where
  name := program.name
  decls := program.decls.map (Decl.rename naming)

/-! ## What renamed programs mention -/

def CallSite.rename (naming : Renaming) (site : CallSite) : CallSite :=
  { site with func := naming site.func }

namespace Expr

variable (naming : Renaming)

mutual

theorem idents_rename : ∀ expr : Expr, (expr.rename naming).idents = expr.idents.map naming
  | .literal _ => rfl
  | .ident _ => rfl
  | .binary _ lhs rhs => by simp [rename, idents, idents_rename lhs, idents_rename rhs]
  | .call _ args => by rw [rename, idents, idents, identsOfAll_rename args]
  | .composite _ elems => by rw [rename, idents, idents, identsOfAll_rename elems]
  | .paren inner => by rw [rename, idents, idents, idents_rename inner]

theorem identsOfAll_rename : ∀ exprs : List Expr,
    identsOfAll (renameAll naming exprs) = (identsOfAll exprs).map naming
  | [] => rfl
  | expr :: rest => by simp [renameAll, identsOfAll, idents_rename expr, identsOfAll_rename rest]

end

mutual

theorem calls_rename : ∀ expr : Expr,
    (expr.rename naming).calls = expr.calls.map (CallSite.rename naming)
  | .literal _ => rfl
  | .ident _ => rfl
  | .binary _ lhs rhs => by simp [rename, calls, calls_rename lhs, calls_rename rhs]
  | .call _ args => by simp [rename, calls, callsOfAll_rename args, CallSite.rename]
  | .composite _ elems => by rw [rename, calls, calls, callsOfAll_rename elems]
  | .paren inner => by rw [rename, calls, calls, calls_rename inner]

theorem callsOfAll_rename : ∀ exprs : List Expr,
    callsOfAll (renameAll naming exprs) = (callsOfAll exprs).map (CallSite.rename naming)
  | [] => rfl
  | expr :: rest => by simp [renameAll, callsOfAll, calls_rename expr, callsOfAll_rename rest]

end

theorem callees_rename (expr : Expr) :
    (expr.rename naming).callees = expr.callees.map naming := by
  simp only [callees, calls_rename, List.map_map, List.filter_map]
  congr 1
  refine List.filter_congr fun site _ => ?_
  simp [CallSite.rename, naming.find?_eq]

end Expr

namespace Stmt

variable (naming : Renaming)

mutual

theorem exprs_rename : ∀ stmt : Stmt,
    (stmt.rename naming).exprs = stmt.exprs.map (Expr.rename naming)
  | .expr _ => rfl
  | .ifElse _ thenArm elseArm => by
    simp [rename, exprs, exprsOfAll_rename thenArm, exprsOfArm_rename elseArm]
  | .ret values => Expr.renameAll_eq_map naming values
  | .assign _ values => Expr.renameAll_eq_map naming values
  | .loop body => exprsOfAll_rename body

theorem exprsOfAll_rename : ∀ stmts : List Stmt,
    exprsOfAll (renameAll naming stmts) = (exprsOfAll stmts).map (Expr.rename naming)
  | [] => rfl
  | stmt :: rest => by simp [renameAll, exprsOfAll, exprs_rename stmt, exprsOfAll_rename rest]

theorem exprsOfArm_rename : ∀ arm : Option (List Stmt),
    exprsOfArm (renameArm naming arm) = (exprsOfArm arm).map (Expr.rename naming)
  | none => rfl
  | some stmts => exprsOfAll_rename stmts

end

end Stmt

namespace Program

variable (naming : Renaming) (program : Program)

theorem functions_rename :
    (program.rename naming).functions = program.functions.map (FunctionDecl.rename naming) := by
  simp only [rename, functions, List.filterMap_map, List.map_filterMap]
  refine List.filterMap_congr fun decl _ => ?_
  cases decl <;> rfl

/-- A constant with other names in its definition. -/
def renameDefinition (definition : String × Expr) : String × Expr :=
  (naming definition.1, definition.2.rename naming)

theorem constants_rename :
    (program.rename naming).constants = program.constants.map (renameDefinition naming) := by
  simp only [rename, constants, List.flatMap_map, List.map_flatMap]
  refine List.flatMap_congr fun decl _ => ?_
  cases decl with
  | function _ => rfl
  | consts group =>
    simp only [Decl.rename, ConstGroup.rename, ConstGroup.definitions]
    cases group.values with
    | ordinals =>
      simp [ConstValues.rename, List.zipIdx_map, renameDefinition, Expr.int, Expr.rename]
    | exprs values => simp [ConstValues.rename, List.zip_map, renameDefinition, Prod.map]

theorem calls_rename :
    (program.rename naming).calls = program.calls.map (CallSite.rename naming) := by
  have exprs : (program.rename naming).exprs = program.exprs.map (Expr.rename naming) := by
    simp only [Program.exprs, functions_rename, constants_rename, FunctionDecl.rename,
      Stmt.exprsOfAll_rename, List.flatMap_map, List.map_flatMap, List.map_append, List.map_map]
    rfl
  simp only [calls, exprs, List.flatMap_map, List.map_flatMap, Expr.calls_rename]

end Program

/-! ## Renamed instructions -/

/-- The instruction with another name in it, comments aside; `paired` tells which names of blocks
correspond to each other. -/
inductive Instr.Renamed (naming : Renaming) (paired : String → String → Prop) :
    Instr → Instr → Prop where
  | same {instr other : Instr} (noReference : instr.reference? = none)
      (noBlocks : instr.opcode.takesBlocks = false)
      (bare : other.uncommented = instr.uncommented) : Renamed naming paired instr other
  | load {opcode : Opcode} (isLoad : opcode = .ld ∨ opcode = .ldf) (name : String)
      (comment otherComment : Option String) :
    Renamed naming paired ⟨opcode, [.name name], comment⟩
      ⟨opcode, [.name (naming name)], otherComment⟩
  | branch {thenName otherThen elseName otherElse : String} (thenPaired : paired thenName otherThen)
      (elsePaired : paired elseName otherElse) (comment otherComment : Option String) :
    Renamed naming paired ⟨.sel, [.name thenName, .name elseName], comment⟩
      ⟨.sel, [.name otherThen, .name otherElse], otherComment⟩

/-- Code with other names in it, instruction by instruction. -/
abbrev RenamedCode (naming : Renaming) (paired : String → String → Prop) :
    List Instr → List Instr → Prop :=
  List.Forall₂ (Instr.Renamed naming paired)

section

variable {naming : Renaming} {paired : String → String → Prop}

/-- Comments do not matter. -/
theorem Instr.Renamed.recommented {instr other copy otherCopy : Instr}
    (renamed : Renamed naming paired instr other) (same : copy.uncommented = instr.uncommented)
    (otherSame : otherCopy.uncommented = other.uncommented) :
    Renamed naming paired copy otherCopy := by
  obtain ⟨opcode, args, comment⟩ := copy
  obtain ⟨otherOpcode, otherArgs, otherComment⟩ := otherCopy
  obtain ⟨rfl, rfl, -⟩ := Instr.mk.inj same
  obtain ⟨rfl, rfl, -⟩ := Instr.mk.inj otherSame
  cases renamed with
  | same noReference noBlocks bare => exact .same noReference noBlocks bare
  | load isLoad name _ _ => exact .load isLoad name _ _
  | branch thenPaired elsePaired _ _ => exact .branch thenPaired elsePaired _ _

theorem Instr.Renamed.plain {opcode : Opcode} (noBlocks : opcode.takesBlocks = false) :
    Renamed naming paired (.plain opcode) (.plain opcode) := by
  refine .same ?_ noBlocks rfl
  cases opcode <;> rfl

theorem renamedCode_of_fixed {code : List Instr} (fixed : ∀ instr ∈ code, Fixed instr) :
    RenamedCode naming paired code code :=
  List.forall₂_same.mpr fun instr member =>
    .same (fixed instr member).reference?_eq_none (fixed instr member).takesBlocks_eq_false rfl

/-! ## Code of expressions -/

theorem BinaryOp.agree_operands_renamed (op : BinaryOp)
    {left otherLeft right otherRight : Except CompileError (List Instr)}
    (ofLeft : Agree (RenamedCode naming paired) left otherLeft)
    (ofRight : Agree (RenamedCode naming paired) right otherRight) :
    Agree (RenamedCode naming paired) (op.operands left right)
      (op.operands otherLeft otherRight) := by
  unfold operands
  split
  · exact ofRight.bind fun _ _ first => ofLeft.bind fun _ _ second =>
      .ok (List.rel_append first second)
  · exact ofLeft.bind fun _ _ first => ofRight.bind fun _ _ second =>
      .ok (List.rel_append first second)

/-- A parameter stays a parameter. -/
theorem renamedCode_applyNamed (params : List String) (func : String) (argCount : Nat) :
    RenamedCode naming paired (applyNamed params func argCount)
      (applyNamed (params.map naming) (naming func) argCount) := by
  have sameChoice : naming func ∈ params.map naming ↔ func ∈ params :=
    List.mem_map_of_injective naming.injective
  refine .cons ?_ (.cons (.same rfl rfl rfl) .nil)
  by_cases isParam : func ∈ params
  · rw [if_pos isParam, if_pos (sameChoice.mpr isParam)]
    exact .load (.inl rfl) func _ _
  · rw [if_neg isParam, if_neg fun isOther => isParam (sameChoice.mp isOther)]
    exact .load (.inr rfl) func _ _

namespace Expr

variable (naming) (paired) (options : Options) (entry : String) (params : List String)

mutual

theorem agree_rename : ∀ expr : Expr,
    Agree (RenamedCode naming paired) (expr.code options params)
      ((expr.rename naming).code (options.withEntry entry) (params.map naming))
  | .literal (.int _) => .ok (.cons (.same rfl rfl rfl) .nil)
  | .literal (.text _) => .ok (.cons (.same rfl rfl rfl) .nil)
  | .ident name => .ok (.cons (.load (.inl rfl) name _ _) .nil)
  | .binary op lhs rhs => by
    simp only [rename, Expr.code]
    refine (Agree.refl (fun _ => rfl) op.tail).bind_of_ok ?_
    rintro tail _ isTail - rfl
    refine (op.agree_operands_renamed (agree_rename lhs) (agree_rename rhs)).bind
      fun _ _ operands => .ok (List.rel_append operands (renamedCode_of_fixed ?_))
    unfold BinaryOp.tail at isTail
    split at isTail
    · rename_i known
      cases isTail
      exact BinaryOp.fixed_of_tail? known
    · cases isTail
  | .call func args => by
    simp only [rename, Expr.code, naming.find?_eq, length_renameAll]
    cases found : Primitive.find? func with
    | some primitive =>
      refine Agree.bind_same _ fun _ => (agree_renameAll args).bind fun _ _ ofArgs => .ok ?_
      refine List.rel_append ofArgs (renamedCode_of_fixed fun instr member => ?_)
      rw [List.mem_singleton.mp member]
      exact .plain (Primitive.isOperation_of_find? found)
    | none =>
      exact (agree_renameAll args).bind fun _ _ ofArgs =>
        .ok (List.rel_append ofArgs (renamedCode_applyNamed params func args.length))
  | .composite .array elems => by
    simp only [rename, CompositeKind.rename, Expr.code, length_renameAll]
    exact (agree_renameAll elems).bind fun _ _ ofElems =>
      .ok (List.rel_append ofElems (renamedCode_of_fixed (fixed_of_chainElements _)))
  | .composite (.struct _) _ => .error _ _
  | .composite .map _ => .error _ _
  | .paren inner => by
    simp only [rename, Expr.code]
    exact agree_rename inner

theorem agree_renameAll : ∀ exprs : List Expr,
    Agree (RenamedCode naming paired) (codes options params exprs)
      (codes (options.withEntry entry) (params.map naming) (renameAll naming exprs))
  | [] => .ok .nil
  | expr :: rest => by
    simp only [renameAll, codes]
    exact (agree_rename expr).bind fun _ _ head => (agree_renameAll rest).bind fun _ _ tail =>
      .ok (List.rel_append head tail)

end

end Expr

end

/-! ## Code of functions -/

/-- The code of a block and of all its arms with other names in it; the arms correspond to each
other. -/
structure Fragment.Renamed (naming : Renaming) (paired : String → String → Prop)
    (fragment other : Fragment) : Prop where
  instrs : RenamedCode naming paired fragment.instrs other.instrs
  arms : List.Forall₂ (fun arm otherArm => paired arm.1 otherArm.1 ∧
    RenamedCode naming paired arm.2 otherArm.2) fragment.arms.pieces other.arms.pieces

namespace Fragment.Renamed

variable {naming : Renaming} {paired : String → String → Prop}

theorem ofInstrs {code other : List Instr} (renamed : RenamedCode naming paired code other) :
    (Fragment.ofInstrs code).Renamed naming paired (.ofInstrs other) :=
  ⟨renamed, .nil⟩

theorem empty : Fragment.empty.Renamed naming paired .empty := ofInstrs .nil

theorem append {first other second otherSecond : Fragment}
    (ofFirst : first.Renamed naming paired other)
    (ofSecond : second.Renamed naming paired otherSecond) :
    (first ++ second).Renamed naming paired (other ++ otherSecond) where
  instrs := List.rel_append ofFirst.instrs ofSecond.instrs
  arms := by
    rw [arms_append, arms_append, Forest.pieces_append, Forest.pieces_append]
    exact List.rel_append ofFirst.arms ofSecond.arms

/-- A conditional that stands at the same place of corresponding blocks. -/
theorem conditional {block otherBlock : String} {position : Nat} {test otherTest : List Instr}
    {taken otherTaken other otherOther : Fragment}
    (arms : ∀ position tag, paired (armName block position tag) (armName otherBlock position tag))
    (ofTest : RenamedCode naming paired test otherTest)
    (ofThen : taken.Renamed naming paired otherTaken)
    (ofElse : other.Renamed naming paired otherOther) :
    (Secd.conditional block position test taken other).Renamed naming paired
      (Secd.conditional otherBlock position otherTest otherTaken otherOther) := by
  have join : RenamedCode naming paired [.plain .join] [.plain .join] := .cons (.plain rfl) .nil
  constructor
  · rw [conditional_instrs, conditional_instrs, ← ofTest.length_eq]
    exact List.rel_append ofTest (.cons (.branch (arms _ _) (arms _ _) _ _) .nil)
  · simp only [conditional_arms, Forest.pieces, List.append_nil, ← ofTest.length_eq]
    exact .cons ⟨arms _ _, List.rel_append ofThen.instrs join⟩ (List.rel_append ofThen.arms
      (.cons ⟨arms _ _, List.rel_append ofElse.instrs join⟩ ofElse.arms))

end Fragment.Renamed

/-- Arms at the same place of corresponding blocks correspond to each other. -/
def PairsArms (paired : String → String → Prop) : Prop :=
  ∀ block other, paired block other → ∀ position tag,
    paired (armName block position tag) (armName other position tag)

namespace Stmt

variable (naming : Renaming) {paired : String → String → Prop} (options : Options)
  (entry : String) (params : List String)

mutual

theorem agree_rename (pairsArms : PairsArms paired) :
    ∀ (stmt : Stmt) {block otherBlock : String} (position : Nat),
    paired block otherBlock →
    Agree (Fragment.Renamed naming paired) (stmt.code options params block position)
      ((stmt.rename naming).code (options.withEntry entry) (params.map naming) otherBlock position)
  | .expr value, _, _, _, _ => by
    simp only [rename, Stmt.code]
    exact (value.agree_rename naming paired options entry params).bind
      fun _ _ ofValue => .ok (.ofInstrs ofValue)
  | .ifElse cond thenArm elseArm, block, otherBlock, position, isPair => by
    simp only [rename, Stmt.code]
    refine (cond.agree_rename naming paired options entry params).bind fun _ _ ofTest => ?_
    -- conditions are as long as before, so that arms are created at the same places
    rw [← ofTest.length_eq]
    have arms := pairsArms block otherBlock isPair
    refine (agree_renameAll pairsArms thenArm 0 (arms _ "t")).bind fun _ _ ofThen => ?_
    refine (agree_renameArm pairsArms elseArm (arms _ "f")).bind fun _ _ ofElse => .ok ?_
    exact .conditional arms ofTest ofThen ofElse
  | .ret _, _, _, _, _ => .error _ _
  | .assign _ _, _, _, _, _ => .error _ _
  | .loop _, _, _, _, _ => .error _ _

theorem agree_renameAll (pairsArms : PairsArms paired) :
    ∀ (stmts : List Stmt) {block otherBlock : String} (position : Nat),
    paired block otherBlock →
    Agree (Fragment.Renamed naming paired) (codes options params block position stmts)
      (codes (options.withEntry entry) (params.map naming) otherBlock position
        (renameAll naming stmts))
  | [], _, _, _, _ => .ok .empty
  | stmt :: rest, _, _, position, isPair => by
    simp only [renameAll, codes]
    refine (agree_rename pairsArms stmt position isPair).bind fun _ _ ofHead => ?_
    rw [← ofHead.instrs.length_eq]
    exact (agree_renameAll pairsArms rest _ isPair).bind fun _ _ ofRest =>
      .ok (ofHead.append ofRest)

theorem agree_renameArm (pairsArms : PairsArms paired) :
    ∀ (arm : Option (List Stmt)) {block otherBlock : String},
    paired block otherBlock →
    Agree (Fragment.Renamed naming paired) (elseCode options params block arm)
      (elseCode (options.withEntry entry) (params.map naming) otherBlock (renameArm naming arm))
  | none, _, _, _ => .ok .empty
  | some stmts, _, _, isPair => by
    simp only [renameArm, elseCode]
    exact agree_renameAll pairsArms stmts 0 isPair

end

theorem agree_returnCode : ∀ values : List Expr,
    Agree (Fragment.Renamed naming paired) (returnCode options params values)
      (returnCode (options.withEntry entry) (params.map naming) (Expr.renameAll naming values))
  | [] => .ok .empty
  | [value] => (value.agree_rename naming paired options entry params).bind
      fun _ _ ofValue => .ok (.ofInstrs ofValue)
  | _ :: _ :: _ => .error _ _

theorem agree_bodyCode (pairsArms : PairsArms paired) {block otherBlock : String}
    (isPair : paired block otherBlock) (position : Nat) (stmts : List Stmt) :
    Agree (Fragment.Renamed naming paired) (bodyCode options params block position stmts)
      (bodyCode (options.withEntry entry) (params.map naming) otherBlock position
        (renameAll naming stmts)) := by
  fun_induction bodyCode options params block position stmts with
  | case1 position => exact .ok .empty
  | case2 position values => exact agree_returnCode naming options entry params values
  | case3 position stmt rest notReturn ih =>
    have otherNotReturn : ∀ values, stmt.rename naming = .ret values →
        renameAll naming rest = [] → False := by
      intro values isReturn isLast
      cases stmt with
      | ret values =>
        cases rest with
        | nil => exact notReturn values rfl rfl
        | cons _ _ => cases isLast
      | _ => cases isReturn
    rw [renameAll, bodyCode.eq_3 _ _ _ _ _ _ otherNotReturn]
    refine (agree_rename naming options entry params pairsArms stmt position isPair).bind
      fun head otherHead ofHead => ?_
    rw [← ofHead.instrs.length_eq]
    exact (ih head).bind fun _ _ ofRest => .ok (ofHead.append ofRest)

end Stmt

/-- Names of blocks of two functions, at the same place in both. -/
def Twins (base otherBase name otherName : String) : Prop :=
  ∃ suffix, name = base ++ suffix ∧ otherName = otherBase ++ suffix

namespace Twins

variable {base otherBase : String}

theorem refl (base otherBase : String) : Twins base otherBase base otherBase :=
  ⟨"", by simp, by simp⟩

theorem pairsArms : PairsArms (Twins base otherBase) := by
  rintro _ _ ⟨suffix, rfl, rfl⟩ position tag
  refine ⟨suffix ++ "." ++ toString position ++ tag, ?_, ?_⟩ <;>
    simp [armName, String.append_assoc]

/-- A name has one twin. -/
theorem unique {name otherName third : String} (twins : Twins base otherBase name otherName)
    (alsoTwins : Twins base otherBase name third) : third = otherName := by
  obtain ⟨suffix, rfl, rfl⟩ := twins
  obtain ⟨other, same, rfl⟩ := alsoTwins
  rw [(String.append_right_inj base).mp same]

end Twins

/-- The code of a renamed function. -/
theorem FunctionDecl.agree_rename (naming : Renaming) (options : Options) (entry : String)
    (decl : FunctionDecl) :
    Agree (Fragment.Renamed naming (Twins decl.name (naming decl.name))) (decl.code options)
      ((decl.rename naming).code (options.withEntry entry)) :=
  (Stmt.agree_bodyCode naming options entry decl.params Twins.pairsArms (.refl _ _) 0
    decl.body).bind fun _ _ ofBody => .ok (ofBody.append (.ofInstrs (.cons (.plain rfl) .nil)))

/-! ## Which renamed programs can be generated -/

namespace Program

variable (naming : Renaming) (program : Program)

/-- Whether a program can be generated does not depend on its names. -/
theorem generable_rename_iff (options : Options) (entry : String) :
    (program.rename naming).Generable (options.withEntry entry) ↔ program.Generable options := by
  have functionNames : (program.rename naming).functions.map FunctionDecl.name =
      (program.functions.map FunctionDecl.name).map naming := by
    simp [functions_rename, FunctionDecl.rename, Function.comp_def]
  have constantNames : (program.rename naming).constants.map Prod.fst =
      (program.constants.map Prod.fst).map naming := by
    simp [constants_rename, renameDefinition, Function.comp_def]
  have codes : (∀ decl ∈ (program.rename naming).functions,
      ∃ code, decl.code (options.withEntry entry) = .ok code) ↔
      ∀ decl ∈ program.functions, ∃ code, decl.code options = .ok code := by
    rw [functions_rename, List.forall_mem_map]
    exact forall₂_congr fun decl _ => (decl.agree_rename naming options entry).exists_iff.symm
  have values : (∀ definition ∈ (program.rename naming).constants,
      ∃ code, definition.2.code (options.withEntry entry) [] = .ok code) ↔
      ∀ definition ∈ program.constants, ∃ code, definition.2.code options [] = .ok code := by
    rw [constants_rename, List.forall_mem_map]
    exact forall₂_congr fun definition _ => (definition.2.agree_rename naming (fun _ _ => False)
      options entry []).exists_iff.symm
  have balanced : (∀ group, .consts group ∈ (program.rename naming).decls → group.Balanced) ↔
      ∀ group, .consts group ∈ program.decls → group.Balanced := by
    have same : ∀ group : ConstGroup, (group.rename naming).Balanced ↔ group.Balanced := by
      intro group
      unfold ConstGroup.Balanced ConstGroup.rename
      cases group.values <;> simp [ConstValues.rename]
    constructor
    · exact fun each group member => (same group).mp (each _ (List.mem_map_of_mem member))
    · rintro each _ member
      obtain ⟨decl, isDecl, isGroup⟩ := List.mem_map.mp member
      cases decl with
      | function _ => cases isGroup
      | consts group =>
        cases isGroup
        exact (same group).mpr (each group isDecl)
  constructor
  · intro generable
    refine ⟨?_, codes.mp generable.code, balanced.mp generable.balanced, ?_,
      values.mp generable.values⟩
    · exact (List.nodup_map_iff naming.injective).mp (functionNames ▸ generable.functions)
    · exact (List.nodup_map_iff naming.injective).mp (constantNames ▸ generable.constants)
  · intro generable
    refine ⟨?_, codes.mpr generable.code, balanced.mpr generable.balanced, ?_,
      values.mpr generable.values⟩
    · exact functionNames ▸ (List.nodup_map_iff naming.injective).mpr generable.functions
    · exact constantNames ▸ (List.nodup_map_iff naming.injective).mpr generable.constants

end Program

end Secd
