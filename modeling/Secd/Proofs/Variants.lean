import Secd.Proofs.Contexts

namespace Secd

open Results

/-! # Programs that differ in one expression

Put two expressions into the same hole of a program. If both have code then the two programs are
generated in step: either both are refused or both have object programs, and these have the same
constants and functions with the same arms (`ProgramContext.agree_object`). Their code is the same
but for the code of the two expressions and the names of arms, which count instructions
(`Variant`, `ProgramContext.agree_code`).
-/

/-! ## Expressions -/

/-- The same code around two runs of instructions. -/
def Around (first second code other : List Instr) : Prop :=
  ∃ before after, code = before ++ (first ++ after) ∧ other = before ++ (second ++ after)

namespace Around

variable {first second code other : List Instr}

theorem refl (first second : List Instr) : Around first second first second :=
  ⟨[], [], by simp, by simp⟩

theorem append (around : Around first second code other) (before after : List Instr) :
    Around first second (before ++ code ++ after) (before ++ other ++ after) := by
  obtain ⟨earlier, later, rfl, rfl⟩ := around
  exact ⟨before ++ earlier, later ++ after, by simp, by simp⟩

theorem appendLeft (around : Around first second code other) (before : List Instr) :
    Around first second (before ++ code) (before ++ other) := by
  simpa using around.append before []

theorem appendRight (around : Around first second code other) (after : List Instr) :
    Around first second (code ++ after) (other ++ after) := by
  simpa using around.append [] after

end Around

section

variable {options : Options} {params : List String} {first second : List Instr}

/-- One of several expressions is exchanged. -/
theorem Expr.agree_codes {value other : Expr}
    (agree : Agree (Around first second) (value.code options params) (other.code options params))
    (before after : List Expr) :
    Agree (Around first second) (Expr.codes options params (before ++ value :: after))
      (Expr.codes options params (before ++ other :: after)) := by
  rw [Expr.codes_append, Expr.codes_append]
  refine Agree.bind_same _ fun earlier => ?_
  refine Agree.bind (R := Around first second) ?_ fun _ _ around => .ok (around.appendLeft earlier)
  exact agree.bind fun _ _ around => Agree.bind_same _ fun later => .ok (around.appendRight later)

/-- Both operands, of which one is exchanged. -/
theorem BinaryOp.agree_operands {left otherLeft right otherRight : Except CompileError (List Instr)}
    (op : BinaryOp)
    (agree : Agree (Around first second) left otherLeft ∧ otherRight = right ∨
      Agree (Around first second) right otherRight ∧ otherLeft = left) :
    Agree (Around first second) (op.operands left right) (op.operands otherLeft otherRight) := by
  have before : ∀ {computed other kept : Except CompileError (List Instr)},
      Agree (Around first second) computed other →
      Agree (Around first second) (do return (← kept) ++ (← computed))
        (do return (← kept) ++ (← other)) := by
    intro computed other kept agree
    exact Agree.bind_same _ fun code => agree.bind fun _ _ around => .ok (around.appendLeft code)
  have after : ∀ {computed other kept : Except CompileError (List Instr)},
      Agree (Around first second) computed other →
      Agree (Around first second) (do return (← computed) ++ (← kept))
        (do return (← other) ++ (← kept)) := by
    intro computed other kept agree
    exact agree.bind fun _ _ around => Agree.bind_same _ fun code => .ok (around.appendRight code)
  unfold operands
  rcases agree with ⟨agree, rfl⟩ | ⟨agree, rfl⟩
  · split
    · exact before agree
    · exact after agree
  · split
    · exact after agree
    · exact before agree

/-- The code of what is in the hole is exchanged, and nothing else. -/
theorem ExprContext.agree_code {value other : Expr} (valueOk : value.code options params = .ok first)
    (otherOk : other.code options params = .ok second) : ∀ context : ExprContext,
    Agree (Around first second) ((context.fill value).code options params)
      ((context.fill other).code options params)
  | .hole => by
    rw [fill, fill, valueOk, otherOk]
    exact .ok (.refl first second)
  | .left op inner rhs => by
    simp only [fill, Expr.code]
    refine Agree.bind_same _ fun tail => ?_
    exact (op.agree_operands (.inl ⟨inner.agree_code valueOk otherOk, rfl⟩)).bind
      fun _ _ around => .ok (around.appendRight tail)
  | .right op lhs inner => by
    simp only [fill, Expr.code]
    refine Agree.bind_same _ fun tail => ?_
    exact (op.agree_operands (.inr ⟨inner.agree_code valueOk otherOk, rfl⟩)).bind
      fun _ _ around => .ok (around.appendRight tail)
  | .argument func before inner after => by
    have arguments := Expr.agree_codes (inner.agree_code valueOk otherOk) before after
    simp only [fill, Expr.code, List.length_append, List.length_cons]
    split
    · refine Agree.bind_same _ fun _ => ?_
      exact arguments.bind fun _ _ around => .ok (around.appendRight _)
    · exact arguments.bind fun _ _ around => .ok (around.appendRight _)
  | .element kind before inner after => by
    cases kind with
    | array =>
      simp only [fill, Expr.code, List.length_append, List.length_cons]
      exact (Expr.agree_codes (inner.agree_code valueOk otherOk) before after).bind
        fun _ _ around => .ok (around.appendRight _)
    | _ => exact .error _ _
  | .paren inner => by
    simp only [fill, Expr.code]
    exact inner.agree_code valueOk otherOk

end

/-! ## Code with an exchange in it -/

/-- The same code, but for runs of instructions that are exchanged and for the targets of
branches. -/
inductive Variant (exchanged : List Instr → List Instr → Prop) (paired : String → String → Prop) :
    List Instr → List Instr → Prop where
  | nil : Variant exchanged paired [] []
  | same {instr : Instr} {code other : List Instr} (noBranch : instr.opcode ≠ .sel)
      (next : Variant exchanged paired code other) :
    Variant exchanged paired (instr :: code) (instr :: other)
  | exchange {first second code other : List Instr} (isExchanged : exchanged first second)
      (next : Variant exchanged paired code other) :
    Variant exchanged paired (first ++ code) (second ++ other)
  | branch {thenName otherThen elseName otherElse : String} {comment otherComment : Option String}
      {code other : List Instr} (thenPaired : paired thenName otherThen)
      (elsePaired : paired elseName otherElse) (next : Variant exchanged paired code other) :
    Variant exchanged paired (⟨.sel, [.name thenName, .name elseName], comment⟩ :: code)
      (⟨.sel, [.name otherThen, .name otherElse], otherComment⟩ :: other)

namespace Variant

variable {exchanged : List Instr → List Instr → Prop} {paired : String → String → Prop}

theorem append {code other later otherLater : List Instr}
    (variation : Variant exchanged paired code other)
    (next : Variant exchanged paired later otherLater) :
    Variant exchanged paired (code ++ later) (other ++ otherLater) := by
  induction variation with
  | nil => exact next
  | same noBranch _ ih => exact .same noBranch ih
  | exchange isExchanged _ ih =>
    rw [List.append_assoc, List.append_assoc]
    exact .exchange isExchanged ih
  | branch thenPaired elsePaired _ ih => exact .branch thenPaired elsePaired ih

theorem refl {code : List Instr} (noBranch : ∀ instr ∈ code, instr.opcode ≠ .sel) :
    Variant exchanged paired code code := by
  induction code with
  | nil => exact .nil
  | cons instr rest ih =>
    exact .same (noBranch instr List.mem_cons_self)
      (ih fun other member => noBranch other (List.mem_cons_of_mem _ member))

theorem mono {weaker : List Instr → List Instr → Prop}
    (imp : ∀ code other, exchanged code other → weaker code other) {code other : List Instr}
    (variation : Variant exchanged paired code other) : Variant weaker paired code other := by
  induction variation with
  | nil => exact .nil
  | same noBranch _ ih => exact .same noBranch ih
  | exchange isExchanged _ ih => exact .exchange (imp _ _ isExchanged) ih
  | branch thenPaired elsePaired _ ih => exact .branch thenPaired elsePaired ih

end Variant

/-- The code of a block and of all its arms is varied; the arms correspond to each other. -/
def Fragment.Varies (exchanged : List Instr → List Instr → Prop) (fragment other : Fragment) :
    Prop :=
  ∀ paired : String → String → Prop,
    (∀ pair ∈ fragment.arms.names.zip other.arms.names, paired pair.1 pair.2) →
    Variant exchanged paired fragment.instrs other.instrs ∧
      List.Forall₂ (fun arm otherArm => Variant exchanged paired arm.2 otherArm.2)
        fragment.arms.pieces other.arms.pieces

namespace Fragment.Varies

variable {exchanged : List Instr → List Instr → Prop}

theorem size_eq {fragment other : Fragment} (varies : fragment.Varies exchanged other) :
    fragment.arms.size = other.arms.size := by
  obtain ⟨-, arms⟩ := varies (fun _ _ => True) (fun _ _ => trivial)
  simpa using arms.length_eq

theorem mono {weaker : List Instr → List Instr → Prop}
    (imp : ∀ code other, exchanged code other → weaker code other) {fragment other : Fragment}
    (varies : fragment.Varies exchanged other) : fragment.Varies weaker other := by
  intro paired pairs
  obtain ⟨code, arms⟩ := varies paired pairs
  exact ⟨code.mono imp, arms.imp fun _ _ variation => variation.mono imp⟩

theorem ofInstrs {code other : List Instr} (variation : ∀ paired, Variant exchanged paired code other) :
    (Fragment.ofInstrs code).Varies exchanged (.ofInstrs other) :=
  fun paired _ => ⟨variation paired, .nil⟩

theorem empty : Fragment.empty.Varies exchanged .empty := ofInstrs fun _ => .nil

theorem append {first second other otherSecond : Fragment} (ofFirst : first.Varies exchanged other)
    (ofSecond : second.Varies exchanged otherSecond) :
    (first ++ second).Varies exchanged (other ++ otherSecond) := by
  intro paired pairs
  have lengths : first.arms.names.length = other.arms.names.length := by simp [ofFirst.size_eq]
  simp only [arms_append, Forest.names_append, List.zip_append lengths, List.mem_append] at pairs
  obtain ⟨firstCode, firstArms⟩ := ofFirst paired fun pair member => pairs pair (.inl member)
  obtain ⟨secondCode, secondArms⟩ := ofSecond paired fun pair member => pairs pair (.inr member)
  refine ⟨firstCode.append secondCode, ?_⟩
  rw [arms_append, arms_append, Forest.pieces_append, Forest.pieces_append]
  exact List.rel_append firstArms secondArms

/-- A conditional whose condition and arms are varied. -/
theorem conditional {block otherBlock : String} {position otherPosition : Nat}
    {test otherTest : List Instr} {taken otherTaken other otherOther : Fragment}
    (ofTest : ∀ paired, Variant exchanged paired test otherTest)
    (ofThen : taken.Varies exchanged otherTaken) (ofElse : other.Varies exchanged otherOther) :
    (Secd.conditional block position test taken other).Varies exchanged
      (Secd.conditional otherBlock otherPosition otherTest otherTaken otherOther) := by
  intro paired pairs
  have lengths : taken.arms.names.length = otherTaken.arms.names.length := by
    simp [ofThen.size_eq]
  simp only [conditional_arms, Forest.names, List.append_nil, List.zip_cons_cons,
    List.zip_append lengths, List.mem_cons, List.mem_append] at pairs
  obtain ⟨thenCode, thenArms⟩ := ofThen paired fun pair member => pairs pair (by simp [member])
  obtain ⟨elseCode, elseArms⟩ := ofElse paired fun pair member => pairs pair (by simp [member])
  have join : Variant exchanged paired [.plain .join] [.plain .join] := .same (by decide) .nil
  constructor
  · exact (ofTest paired).append (.branch (pairs (_, _) (.inl rfl))
      (pairs (_, _) (.inr (.inr (.inl rfl)))) .nil)
  · simp only [conditional_arms, Forest.pieces, List.append_nil]
    exact .cons (thenCode.append join) (List.rel_append thenArms (.cons (elseCode.append join) elseArms))

end Fragment.Varies

/-! ## Statements -/

namespace Stmt

/-- The same statements, but for expressions that are related; statements without code may differ
in more. -/
inductive Alike (related : Expr → Expr → Prop) : List Stmt → List Stmt → Prop where
  | nil : Alike related [] []
  | expr {value other : Expr} {rest otherRest : List Stmt} (isRelated : related value other)
      (next : Alike related rest otherRest) :
    Alike related (.expr value :: rest) (.expr other :: otherRest)
  | ret {values others : List Expr} {rest otherRest : List Stmt}
      (areRelated : List.Forall₂ related values others) (next : Alike related rest otherRest) :
    Alike related (.ret values :: rest) (.ret others :: otherRest)
  | ifElse {cond otherCond : Expr} {thenArm otherThen : List Stmt}
      {elseArm otherElse : Option (List Stmt)} {rest otherRest : List Stmt}
      (isRelated : related cond otherCond) (thenAlike : Alike related thenArm otherThen)
      (elseAlike : Alike related (elseArm.getD []) (otherElse.getD []))
      (next : Alike related rest otherRest) :
    Alike related (.ifElse cond thenArm elseArm :: rest)
      (.ifElse otherCond otherThen otherElse :: otherRest)
  | assign {targets otherTargets : List String} {values others : List Expr}
      {rest otherRest : List Stmt} (next : Alike related rest otherRest) :
    Alike related (.assign targets values :: rest) (.assign otherTargets others :: otherRest)
  | loop {body other rest otherRest : List Stmt} (next : Alike related rest otherRest) :
    Alike related (.loop body :: rest) (.loop other :: otherRest)

namespace Alike

variable {related : Expr → Expr → Prop}

theorem refl (reflexive : ∀ expr, related expr expr) : ∀ stmts, Alike related stmts stmts
  | [] => .nil
  | .expr value :: rest => .expr (reflexive value) (refl reflexive rest)
  | .ret values :: rest =>
    .ret (List.forall₂_same.mpr fun value _ => reflexive value) (refl reflexive rest)
  | .ifElse cond thenArm none :: rest =>
    .ifElse (reflexive cond) (refl reflexive thenArm) .nil (refl reflexive rest)
  | .ifElse cond thenArm (some elseArm) :: rest =>
    .ifElse (reflexive cond) (refl reflexive thenArm) (refl reflexive elseArm) (refl reflexive rest)
  | .assign _ _ :: rest => .assign (refl reflexive rest)
  | .loop _ :: rest => .loop (refl reflexive rest)

theorem append {first other second otherSecond : List Stmt} (alike : Alike related first other)
    (next : Alike related second otherSecond) :
    Alike related (first ++ second) (other ++ otherSecond) := by
  induction alike with
  | nil => exact next
  | expr isRelated _ ih => exact .expr isRelated ih
  | ret areRelated _ ih => exact .ret areRelated ih
  | ifElse isRelated thenAlike elseAlike _ _ _ ih => exact .ifElse isRelated thenAlike elseAlike ih
  | assign _ ih => exact .assign ih
  | loop _ ih => exact .loop ih

end Alike

theorem elseCode_eq (options : Options) (params : List String) (block : String)
    (arm : Option (List Stmt)) :
    elseCode options params block arm = codes options params block 0 (arm.getD []) := by
  cases arm <;> simp [elseCode, codes]

theorem codes_singleton (options : Options) (params : List String) (block : String)
    (position : Nat) (stmt : Stmt) :
    codes options params block position [stmt] = stmt.code options params block position := by
  simp only [codes, ok_bind, Fragment.append_empty, bind_pure]

section

variable {options : Options} {params : List String} {related : Expr → Expr → Prop}
  {exchanged : List Instr → List Instr → Prop}
  (agree : ∀ value other, related value other →
    Agree (fun code otherCode => ∀ paired, Variant exchanged paired code otherCode)
      (value.code options params) (other.code options params))

include agree

/-- Where the statements stand does not decide whether they have code. -/
theorem Alike.agree_codes {stmts others : List Stmt} (alike : Alike related stmts others) :
    ∀ (block otherBlock : String) (position otherPosition : Nat),
      Agree (Fragment.Varies exchanged) (codes options params block position stmts)
        (codes options params otherBlock otherPosition others) := by
  induction alike with
  | nil => exact fun _ _ _ _ => .ok .empty
  | expr isRelated _ ih =>
    intro block otherBlock position otherPosition
    simp only [codes, Stmt.code, bind_assoc, pure_bind]
    exact (agree _ _ isRelated).bind fun _ _ variation => (ih _ _ _ _).bind fun _ _ ofRest =>
      .ok (.append (.ofInstrs variation) ofRest)
  | ifElse isRelated _ _ _ ihThen ihElse ihNext =>
    intro block otherBlock position otherPosition
    simp only [codes, Stmt.code, elseCode_eq, bind_assoc, pure_bind]
    exact (agree _ _ isRelated).bind fun _ _ ofTest => (ihThen _ _ _ _).bind fun _ _ ofThen =>
      (ihElse _ _ _ _).bind fun _ _ ofElse => (ihNext _ _ _ _).bind fun _ _ ofRest =>
        .ok (.append (.conditional ofTest ofThen ofElse) ofRest)
  | ret _ _ _ | assign _ _ | loop _ _ => exact fun _ _ _ _ => .error _ _

theorem Alike.agree_returnCode {values others : List Expr}
    (areRelated : List.Forall₂ related values others) :
    Agree (Fragment.Varies exchanged) (returnCode options params values)
      (returnCode options params others) := by
  cases areRelated with
  | nil => exact .ok .empty
  | cons head tail =>
    cases tail with
    | nil => exact (agree _ _ head).bind fun _ _ variation => .ok (.ofInstrs variation)
    | cons _ _ => exact .error _ _

theorem Alike.agree_bodyCode {stmts others : List Stmt} (alike : Alike related stmts others) :
    ∀ (block otherBlock : String) (position otherPosition : Nat),
      Agree (Fragment.Varies exchanged) (bodyCode options params block position stmts)
        (bodyCode options params otherBlock otherPosition others) := by
  -- one statement and then the rest, unless it is the return at the end
  have step : ∀ {stmt other : Stmt} {rest otherRest : List Stmt},
      Alike related [stmt] [other] →
      (∀ (block otherBlock : String) (position otherPosition : Nat),
        Agree (Fragment.Varies exchanged) (bodyCode options params block position rest)
          (bodyCode options params otherBlock otherPosition otherRest)) →
      ∀ (block otherBlock : String) (position otherPosition : Nat),
        Agree (Fragment.Varies exchanged)
          (do
            let head ← stmt.code options params block position
            let tail ← bodyCode options params block (position + head.instrs.length) rest
            return head ++ tail)
          (do
            let head ← other.code options params otherBlock otherPosition
            let tail ← bodyCode options params otherBlock (otherPosition + head.instrs.length)
              otherRest
            return head ++ tail) := by
    intro stmt other rest otherRest alike next block otherBlock position otherPosition
    have head := alike.agree_codes agree block otherBlock position otherPosition
    rw [codes_singleton, codes_singleton] at head
    exact head.bind fun _ _ ofHead => (next _ _ _ _).bind fun _ _ ofRest => .ok (ofHead.append ofRest)
  induction alike with
  | nil => exact fun _ _ _ _ => .ok .empty
  | expr isRelated _ ih =>
    intro block otherBlock position otherPosition
    simp only [bodyCode]
    exact step (.expr isRelated .nil) ih block otherBlock position otherPosition
  | ifElse isRelated thenAlike elseAlike _ _ _ ih =>
    intro block otherBlock position otherPosition
    simp only [bodyCode]
    exact step (.ifElse isRelated thenAlike elseAlike .nil) ih block otherBlock position otherPosition
  | ret areRelated next _ =>
    intro block otherBlock position otherPosition
    cases next with
    | nil => exact Alike.agree_returnCode agree areRelated
    | _ => exact .error _ _
  | assign _ _ | loop _ _ => exact fun _ _ _ _ => .error _ _

end

end Stmt

/-- The same expression, or one in which an occurrence of `first` is replaced by `second`. -/
def Expr.Replaced (first second value other : Expr) : Prop :=
  other = value ∨ ∃ context : ExprContext, value = context.fill first ∧ other = context.fill second

/-- Both expressions have code, and this is it. -/
def Expr.Exchanged (options : Options) (params : List String) (first second : Expr)
    (code other : List Instr) : Prop :=
  first.code options params = .ok code ∧ second.code options params = .ok other

theorem Expr.noBranch_of_code {options : Options} {params : List String} {expr : Expr}
    {code : List Instr} (compiled : expr.code options params = .ok code) :
    ∀ instr ∈ code, instr.opcode ≠ .sel := by
  intro instr member isBranch
  have stays := (Expr.straight_of_code compiled instr member).opcode_notMem
  simp [isBranch] at stays

theorem Expr.Replaced.agree_code {options : Options} {params : List String}
    {first second value other : Expr} {firstCode secondCode : List Instr}
    (exchanged : Exchanged options params first second firstCode secondCode)
    (replaced : Replaced first second value other) :
    Agree (fun code otherCode =>
        ∀ paired, Variant (Exchanged options params first second) paired code otherCode)
      (value.code options params) (other.code options params) := by
  rcases replaced with rfl | ⟨context, rfl, rfl⟩
  · refine (Agree.refl (fun _ => rfl) _).imp ?_
    rintro code _ compiled - rfl paired
    exact .refl (noBranch_of_code compiled)
  · refine (context.agree_code exchanged.1 exchanged.2).imp ?_
    rintro _ _ compiled - ⟨before, after, rfl, rfl⟩ paired
    have noBranch := noBranch_of_code compiled
    refine (Variant.refl ?_).append (.exchange exchanged (.refl ?_))
    · exact fun instr member => noBranch instr (by simp [member])
    · exact fun instr member => noBranch instr (by simp [member])

theorem BodyContext.alike (first second : Expr) (context : BodyContext) :
    Stmt.Alike (Expr.Replaced first second) (context.fill first) (context.fill second) := by
  have same : ∀ stmts, Stmt.Alike (Expr.Replaced first second) stmts stmts :=
    .refl fun _ => .inl rfl
  have several : ∀ (earlier later : List Expr) (inner : ExprContext),
      List.Forall₂ (Expr.Replaced first second) (earlier ++ inner.fill first :: later)
        (earlier ++ inner.fill second :: later) := by
    intro earlier later inner
    refine List.rel_append (List.forall₂_same.mpr fun _ _ => .inl rfl) ?_
    exact .cons (.inr ⟨inner, rfl, rfl⟩) (List.forall₂_same.mpr fun _ _ => .inl rfl)
  induction context with
  | inExpr before inner after =>
    exact (same before).append (.expr (.inr ⟨inner, rfl, rfl⟩) (same after))
  | inReturn before earlier inner later after =>
    exact (same before).append (.ret (several earlier later inner) (same after))
  | inCond before inner thenArm elseArm after =>
    exact (same before).append
      (.ifElse (.inr ⟨inner, rfl, rfl⟩) (same thenArm) (same (elseArm.getD [])) (same after))
  | inThen before cond inner elseArm after ih =>
    exact (same before).append (.ifElse (.inl rfl) ih (same (elseArm.getD [])) (same after))
  | inElse before cond thenArm inner after ih =>
    exact (same before).append (.ifElse (.inl rfl) (same thenArm) ih (same after))
  | inAssign before targets earlier inner later after =>
    exact (same before).append (.assign (same after))
  | inLoop before inner after ih => exact (same before).append (.loop (same after))

/-- A function is a variant of itself. -/
theorem FunctionDecl.varies_of_code {options : Options} {decl : FunctionDecl} {code : Fragment}
    (compiled : decl.code options = .ok code) (exchanged : List Instr → List Instr → Prop) :
    code.Varies exchanged code := by
  have agree : ∀ value other : Expr, value = other →
      Agree (fun code otherCode => ∀ paired, Variant exchanged paired code otherCode)
        (value.code options decl.params) (other.code options decl.params) := by
    rintro value _ rfl
    refine (Agree.refl (fun _ => rfl) _).imp ?_
    rintro code _ isCode - rfl paired
    exact .refl (Expr.noBranch_of_code isCode)
  have body := (Stmt.Alike.refl (fun _ => rfl) decl.body).agree_bodyCode agree decl.name decl.name 0 0
  obtain ⟨bodyCode, bodyOk, rfl⟩ := by
    simpa only [FunctionDecl.code, bind_eq_ok, pure_eq_ok] using compiled
  exact (body.of_ok bodyOk bodyOk).append (.ofInstrs fun _ => .same (by decide) .nil)

/-! ## Programs -/

namespace ObjectProgram

theorem isSome_find?_install (program : ObjectProgram) (name : String) (frame : List String)
    (code : Fragment) (query : String) :
    ((program.install name frame code).find? query).isSome ↔
      query ∈ name :: code.arms.names ∨ (program.find? query).isSome := by
  have lookup : ∀ entries : List (String × BlockId),
      (entries.lookup query).isSome ↔ query ∈ entries.map Prod.fst := by
    intro entries
    rw [Option.isSome_iff_ne_none, ne_eq, List.lookup_eq_none_iff]
    simp
  have indexed : ∀ (blocks : List Block) (start : Nat),
      ((blocks.zipIdx start).map fun entry => (entry.1.name, entry.2)).map Prod.fst =
        blocks.map Block.name := by
    intro blocks start
    conv_rhs => rw [← List.zipIdx_map_fst start blocks]
    rw [List.map_map, List.map_map]
    rfl
  simp only [find?, lookup, install, addBlocks, List.map_append, List.map_reverse, List.mem_append,
    List.mem_reverse, indexed, List.map_cons, Forest.map_name_place]

/-- Object programs with the same constants, in which the same functions can be declared. -/
structure Parallel (object other : ObjectProgram) : Prop where
  name : other.name = object.name
  constants : other.constants = object.constants
  taken : ∀ name, DotFree name → ((other.find? name).isSome ↔ (object.find? name).isSome)

namespace Parallel

variable {options : Options} {object other : ObjectProgram}

theorem addConst (parallel : object.Parallel other) (name : String) (body : List Instr) :
    Agree Parallel (object.addConst name body) (other.addConst name body) := by
  unfold ObjectProgram.addConst
  rw [parallel.constants]
  split
  · exact .error _ _
  · exact .ok { parallel with constants := rfl }

theorem declareConsts (parallel : object.Parallel other) (group : ConstGroup) :
    Agree Parallel (object.declareConsts options group) (other.declareConsts options group) := by
  unfold ObjectProgram.declareConsts
  split
  · exact Agree.foldlM (fun _ _ _ _ later => later.addConst _ _) parallel
  · split
    · refine Agree.foldlM (fun _ _ _ _ later => ?_) parallel
      exact Agree.bind_same _ fun _ => later.addConst _ _
    · exact .error _ _

/-- Functions of one name can be declared in both programs or in none, if both have code or none
has. -/
theorem declareFunction (parallel : object.Parallel other) {decl otherDecl : FunctionDecl}
    (sameName : otherDecl.name = decl.name) (dotFree : DotFree decl.name)
    {R : Fragment → Fragment → Prop}
    (agree : Agree R (decl.code options) (otherDecl.code options)) :
    Agree Parallel (object.declareFunction options decl)
      (other.declareFunction options otherDecl) := by
  have fresh : Agree (fun _ _ => True) (object.requireFresh decl.name)
      (other.requireFresh otherDecl.name) := by
    unfold requireFresh
    rw [sameName, if_congr (parallel.taken decl.name dotFree) rfl rfl]
    exact .refl (fun _ => trivial) _
  refine fresh.bind fun _ _ _ => agree.bind_of_ok fun code otherCode isCode isOther _ => .ok ?_
  refine ⟨parallel.name, parallel.constants, fun name noDot => ?_⟩
  -- of the names of blocks only that of the function itself has no dot
  have isName : ∀ function : CompiledFunction,
      function.decl.code options = .ok function.code →
      (name ∈ function.decl.name :: function.code.arms.names ↔ name = function.decl.name) := by
    intro function compiled
    refine ⟨fun member => ?_, fun same => same ▸ List.mem_cons_self⟩
    exact eq_of_under_of_dotFree noDot (CompiledFunction.under_of_mem_names compiled member)
  rw [isSome_find?_install, isSome_find?_install, isName ⟨decl, code⟩ isCode,
    isName ⟨otherDecl, otherCode⟩ isOther, sameName, parallel.taken name noDot]

theorem declare (parallel : object.Parallel other) {item : Decl}
    (dotFree : ∀ decl, item = .function decl → DotFree decl.name) :
    Agree Parallel (object.declare options item) (other.declare options item) := by
  cases item with
  | function decl =>
    exact parallel.declareFunction rfl (dotFree decl rfl) (.refl (fun _ => rfl) _)
  | consts group => exact parallel.declareConsts group

end Parallel

end ObjectProgram

/-- A program with a hole in the body of one of its functions. -/
structure ProgramContext where
  title : String
  before : List Decl
  name : String
  params : List String
  body : BodyContext
  after : List Decl
  deriving Repr

namespace ProgramContext

/-- The function with the hole, filled with an expression. -/
def decl (context : ProgramContext) (value : Expr) : FunctionDecl :=
  ⟨context.name, context.params, context.body.fill value⟩

/-- Puts an expression into the hole. -/
def fill (context : ProgramContext) (value : Expr) : Program :=
  ⟨context.title, context.before ++ .function (context.decl value) :: context.after⟩

theorem constants_fill (context : ProgramContext) (first second : Expr) :
    (context.fill second).constants = (context.fill first).constants := by
  simp [fill, Program.constants]

theorem decl_mem_functions (context : ProgramContext) (value : Expr) :
    context.decl value ∈ (context.fill value).functions := by
  simp [fill, Program.functions]

/-- The other functions are the same. -/
theorem forall₂_functions (context : ProgramContext) (first second : Expr) :
    List.Forall₂ (fun decl other => other = decl ∨
      decl = context.decl first ∧ other = context.decl second)
      (context.fill first).functions (context.fill second).functions := by
  simp only [fill, Program.functions, List.filterMap_append, List.filterMap_cons]
  refine List.rel_append (List.forall₂_same.mpr fun _ _ => .inl rfl) ?_
  exact .cons (.inr ⟨rfl, rfl⟩) (List.forall₂_same.mpr fun _ _ => .inl rfl)

section

variable {options : Options} {context : ProgramContext} {first second : Expr}
  {firstCode secondCode : List Instr}
  (exchanged : Expr.Exchanged options context.params first second firstCode secondCode)

include exchanged

/-- The code of the function with the hole. -/
theorem agree_code :
    Agree (Fragment.Varies (Expr.Exchanged options context.params first second))
      ((context.decl first).code options) ((context.decl second).code options) := by
  have body := (context.body.alike first second).agree_bodyCode
    (fun _ _ replaced => replaced.agree_code exchanged) context.name context.name 0 0
  exact body.bind fun _ _ varies =>
    .ok (varies.append (.ofInstrs fun _ => .same (by decide) .nil))

/-- Both programs can be generated, or none. -/
theorem agree_object (dotFree : ∀ decl ∈ (context.fill first).functions, DotFree decl.name) :
    Agree ObjectProgram.Parallel ((context.fill first).object options)
      ((context.fill second).object options) := by
  have later : ∀ item ∈ context.after, ∀ decl, item = .function decl → DotFree decl.name := by
    rintro _ member decl rfl
    exact dotFree decl (by simp [fill, Program.functions, List.mem_filterMap]; tauto)
  simp only [Program.object, fill, List.foldlM_append, List.foldlM_cons]
  refine Agree.bind_same _ fun object => Agree.bind ?_ fun _ _ parallel =>
    Agree.foldlM (fun item member _ _ parallel => parallel.declare (later item member)) parallel
  exact ObjectProgram.Parallel.declareFunction ⟨rfl, rfl, fun _ _ => Iff.rfl⟩ rfl
    (dotFree _ (context.decl_mem_functions first)) (agree_code exchanged)

end

end ProgramContext

end Secd
