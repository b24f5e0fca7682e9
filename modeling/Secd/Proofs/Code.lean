import Secd.Code.Expr
import Secd.Proofs.Results
import Secd.Proofs.Source

namespace Secd

open Results

/-! # Code of expressions, taken apart

For each kind of expression there is one lemma that says what its code is when there is some. From
these follows what an instruction of an expression can be (`Straight`), and which names the code of
a constant refers to (`Expr.loads_iff`).
-/

namespace Expr

/-! ## One lemma for each kind -/

theorem codes_eq_ok {options : Options} {params : List String} {exprs : List Expr}
    {code : List Instr} :
    codes options params exprs = .ok code ↔
      ∃ parts, List.Forall₂ (fun expr part => expr.code options params = .ok part) exprs parts ∧
        code = parts.flatten := by
  induction exprs generalizing code with
  | nil => simp [codes, eq_comm]
  | cons expr rest ih =>
    simp only [codes, bind_eq_ok, pure_eq_ok, ih]
    constructor
    · rintro ⟨head, headCode, tail, ⟨parts, partCodes, rfl⟩, rfl⟩
      exact ⟨head :: parts, .cons headCode partCodes, rfl⟩
    · rintro ⟨parts, partCodes, rfl⟩
      cases partCodes with
      | cons headCode tailCodes => exact ⟨_, headCode, _, ⟨_, tailCodes, rfl⟩, rfl⟩

theorem code_binary_eq_ok {options : Options} {params : List String} {op : BinaryOp}
    {lhs rhs : Expr} {code : List Instr} :
    (binary op lhs rhs).code options params = .ok code ↔
      ∃ tail left right, op.tail? = some tail ∧ lhs.code options params = .ok left ∧
        rhs.code options params = .ok right ∧
        code = (if op.swapsOperands then right ++ left else left ++ right) ++ tail := by
  rw [Expr.code, bind_eq_ok]
  constructor
  · rintro ⟨tail, hasTail, compiled⟩
    have known : op.tail? = some tail := by
      unfold BinaryOp.tail at hasTail
      split at hasTail <;> simp_all
    obtain ⟨operands, operandsOk, rest⟩ := bind_eq_ok.mp compiled
    rw [pure_eq_ok] at rest
    subst rest
    unfold BinaryOp.operands at operandsOk
    split at operandsOk
    · obtain ⟨right, rightOk, left, leftOk, rfl⟩ := by
        simpa only [bind_eq_ok, pure_eq_ok] using operandsOk
      exact ⟨tail, left, right, known, leftOk, rightOk, by simp_all⟩
    · obtain ⟨left, leftOk, right, rightOk, rfl⟩ := by
        simpa only [bind_eq_ok, pure_eq_ok] using operandsOk
      exact ⟨tail, left, right, known, leftOk, rightOk, by simp_all⟩
  · rintro ⟨tail, left, right, known, leftOk, rightOk, rfl⟩
    refine ⟨tail, by simp [BinaryOp.tail, known], ?_⟩
    cases swaps : op.swapsOperands <;>
      simp [BinaryOp.operands, swaps, leftOk, rightOk]

theorem code_call_eq_ok {options : Options} {params : List String} {func : String}
    {args : List Expr} {code : List Instr}
    (compiled : (call func args).code options params = .ok code) :
    ∃ argCode, codes options params args = .ok argCode ∧
      ((∃ primitive, Primitive.find? func = some primitive ∧
          (options.checkArity = true → args.length = primitive.arity) ∧
          code = argCode ++ [.plain primitive.opcode]) ∨
        (Primitive.find? func = none ∧
          code = argCode ++ applyNamed params func args.length)) := by
  rw [Expr.code] at compiled
  split at compiled
  · rename_i primitive found
    obtain ⟨_, checked, argCode, argsOk, rfl⟩ := by
      simpa only [bind_eq_ok, pure_eq_ok] using compiled
    refine ⟨argCode, argsOk, .inl ⟨primitive, found, fun checks => ?_, rfl⟩⟩
    unfold Primitive.checkArity at checked
    split at checked <;> simp_all
  · rename_i absent
    obtain ⟨argCode, argsOk, rfl⟩ := by simpa only [bind_eq_ok, pure_eq_ok] using compiled
    exact ⟨argCode, argsOk, .inr ⟨absent, rfl⟩⟩

theorem code_composite_eq_ok {options : Options} {params : List String} {kind : CompositeKind}
    {elems : List Expr} {code : List Instr}
    (compiled : (composite kind elems).code options params = .ok code) :
    kind = .array ∧ ∃ elemCode, codes options params elems = .ok elemCode ∧
      code = elemCode ++ chainElements elems.length := by
  cases kind with
  | array =>
    rw [Expr.code] at compiled
    obtain ⟨elemCode, elemsOk, rfl⟩ := by simpa only [bind_eq_ok, pure_eq_ok] using compiled
    exact ⟨rfl, elemCode, elemsOk, rfl⟩
  | struct name => simp [Expr.code] at compiled
  | map => simp [Expr.code] at compiled

end Expr

/-! ## What the instructions can be -/

namespace Opcode

/-- Opcodes that only compute with what lies on the stack. -/
def isOperation : Opcode → Bool
  | .add | .sub | .mul | .div | .ceq | .cgt | .cgte => true
  | .atom | .cons | .car | .cdr | .brk | .dbug => true
  | _ => false

end Opcode

/-- Instructions that mention no name: they push a number or compute with what lies on the stack.
What an operator, a list or a primitive adds after its operands is made of these. -/
inductive Fixed : Instr → Prop where
  | number (value : Int64) (comment : Option String) : Fixed ⟨.ldc, [.int value], comment⟩
  | operation {opcode : Opcode} (computes : opcode.isOperation) (comment : Option String) :
    Fixed ⟨opcode, [], comment⟩

theorem Fixed.plain {opcode : Opcode} (computes : opcode.isOperation) : Fixed (.plain opcode) :=
  .operation computes none

theorem Fixed.reference?_eq_none {instr : Instr} (fixed : Fixed instr) : instr.reference? = none := by
  cases fixed with
  | number value comment => rfl
  | @operation opcode computes comment => cases opcode <;> rfl

theorem BinaryOp.fixed_of_tail? {op : BinaryOp} {tail : List Instr} (known : op.tail? = some tail) :
    ∀ instr ∈ tail, Fixed instr := by
  cases op <;> cases known <;> simp only [List.mem_cons, List.not_mem_nil, or_false, forall_eq,
    forall_eq_or_imp] <;> try exact .plain rfl
  exact ⟨.plain rfl, .number 0 none, .plain rfl⟩

theorem fixed_of_chainElements (count : Nat) : ∀ instr ∈ chainElements count, Fixed instr := by
  intro instr member
  unfold chainElements at member
  split at member
  · rw [List.mem_singleton.mp member]
    exact .number 0 _
  · rw [(List.mem_replicate.mp member).2]
    exact .plain rfl

theorem Primitive.isOperation_of_find? {name : String} {primitive : Primitive}
    (found : find? name = some primitive) : primitive.opcode.isOperation := by
  have compute : ∀ primitive ∈ all, primitive.opcode.isOperation := by decide
  exact compute primitive (List.mem_of_find?_eq_some found)

theorem Primitive.opcode_ne_of_find? {name : String} {primitive : Primitive} {opcode : Opcode}
    (found : find? name = some primitive) (differ : name ≠ opcode.mnemonic) :
    primitive.opcode ≠ opcode := by
  intro same
  rw [← name_of_find? found, Primitive.name, same] at differ
  exact differ rfl

/-- The instructions that the code of an expression is made of; `called` tells which calls there may
be in it. -/
inductive Straight (called : CallSite → Prop) : Instr → Prop where
  | number (value : Int64) (comment : Option String) :
    Straight called ⟨.ldc, [.int value], comment⟩
  | text (source : String) (comment : Option String) :
    Straight called ⟨.ldc, [.text source], comment⟩
  | load (name : String) (comment : Option String) :
    Straight called ⟨.ld, [.name name], comment⟩
  | closure {site : CallSite} (isCalled : called site) (comment : Option String) :
    Straight called ⟨.ldf, [.name site.func], comment⟩
  | apply {site : CallSite} (isCalled : called site) (comment : Option String) :
    Straight called ⟨.ap, [.count site.argCount], comment⟩
  | operation {opcode : Opcode} (computes : opcode.isOperation) (comment : Option String) :
    Straight called ⟨opcode, [], comment⟩

theorem Straight.mono {called known : CallSite → Prop} {instr : Instr}
    (straight : Straight called instr) (weaker : ∀ site, called site → known site) :
    Straight known instr := by
  cases straight with
  | number value comment => exact .number value comment
  | text source comment => exact .text source comment
  | load name comment => exact .load name comment
  | closure isCalled comment => exact .closure (weaker _ isCalled) comment
  | apply isCalled comment => exact .apply (weaker _ isCalled) comment
  | operation computes comment => exact .operation computes comment

/-- Comments do not matter. -/
theorem Straight.recommented {called : CallSite → Prop} {instr other : Instr}
    (straight : Straight called instr) (same : other.uncommented = instr.uncommented) :
    Straight called other := by
  obtain ⟨opcode, args, comment⟩ := other
  simp only [Instr.uncommented, Instr.mk.injEq, and_true] at same
  obtain ⟨rfl, rfl⟩ := same
  cases straight with
  | number value _ => exact .number value _
  | text source _ => exact .text source _
  | load name _ => exact .load name _
  | closure isCalled _ => exact .closure isCalled _
  | apply isCalled _ => exact .apply isCalled _
  | operation computes _ => exact .operation computes _

theorem Straight.eq_of_closure {called : CallSite → Prop} {instr : Instr}
    (straight : Straight called instr) (isClosure : instr.opcode = .ldf) :
    ∃ site comment, called site ∧ instr = ⟨.ldf, [.name site.func], comment⟩ := by
  cases straight with
  | closure isCalled comment => exact ⟨_, comment, isCalled, rfl⟩
  | operation computes comment =>
    cases isClosure
    cases computes
  | _ => cases isClosure

/-- Expressions neither branch nor leave a block. -/
theorem Straight.opcode_notMem {called : CallSite → Prop} {instr : Instr}
    (straight : Straight called instr) : instr.opcode ∉ [.sel, .join, .rtn] := by
  cases straight with
  | operation computes comment =>
    intro member
    simp only [List.mem_cons, List.not_mem_nil, or_false] at member
    rcases member with rfl | rfl | rfl <;> cases computes
  | _ => simp

theorem Fixed.straight {instr : Instr} (fixed : Fixed instr) (called : CallSite → Prop) :
    Straight called instr := by
  cases fixed with
  | number value comment => exact .number value comment
  | operation computes comment => exact .operation computes comment

namespace Expr

theorem forall_mem_flatten {options : Options} {params : List String} {exprs : List Expr}
    {parts : List (List Instr)}
    (compiled : List.Forall₂ (fun expr part => expr.code options params = .ok part) exprs parts)
    {holds : Instr → Prop}
    (each : ∀ expr ∈ exprs, ∀ {code : List Instr}, expr.code options params = .ok code →
      ∀ instr ∈ code, holds instr) : ∀ instr ∈ parts.flatten, holds instr := by
  intro instr member
  obtain ⟨part, isPart, inPart⟩ := List.mem_flatten.mp member
  obtain ⟨expr, isExpr, partOk⟩ := exists_of_mem_right compiled isPart
  exact each expr isExpr partOk instr inPart

theorem straight_of_code {options : Options} {params : List String} {expr : Expr} :
    ∀ {code : List Instr}, expr.code options params = .ok code →
      ∀ instr ∈ code, Straight (· ∈ expr.calls) instr := by
  induction expr using Expr.induct with
  | literal value =>
    intro code compiled instr member
    cases value <;> simp only [Expr.code, Except.ok.injEq] at compiled <;> subst compiled <;>
      rw [List.mem_singleton] at member <;> subst member
    · exact .number _ _
    · exact .text _ _
  | ident name =>
    intro code compiled instr member
    simp only [Expr.code, Except.ok.injEq] at compiled
    subst compiled
    rw [List.mem_singleton] at member
    subst member
    exact .load name _
  | binary op lhs rhs ihLeft ihRight =>
    intro code compiled instr member
    obtain ⟨tail, left, right, known, leftOk, rightOk, rfl⟩ := code_binary_eq_ok.mp compiled
    have operand : instr ∈ left ∨ instr ∈ right ∨ instr ∈ tail := by
      split at member <;> simp only [List.mem_append] at member <;> tauto
    rcases operand with inLeft | inRight | inTail
    · exact (ihLeft leftOk instr inLeft).mono fun site isCall => by simp [calls, isCall]
    · exact (ihRight rightOk instr inRight).mono fun site isCall => by simp [calls, isCall]
    · exact (BinaryOp.fixed_of_tail? known instr inTail).straight _
  | call func args ih =>
    intro code compiled instr member
    obtain ⟨argCode, argsOk, shape⟩ := code_call_eq_ok compiled
    obtain ⟨parts, partCodes, rfl⟩ := codes_eq_ok.mp argsOk
    have arguments := forall_mem_flatten partCodes fun arg isArg argCode argOk instr member =>
      (ih arg isArg argOk instr member).mono fun site isCall =>
        show site ∈ (call func args).calls from
          List.mem_cons_of_mem _ (mem_callsOfAll.mpr ⟨arg, isArg, isCall⟩)
    have isCall : (⟨func, args.length⟩ : CallSite) ∈ (call func args).calls := by simp [calls]
    rcases shape with ⟨primitive, found, -, rfl⟩ | ⟨-, rfl⟩
    · rcases List.mem_append.mp member with inArgs | isLast
      · exact arguments instr inArgs
      · rw [List.mem_singleton] at isLast
        subst isLast
        exact .operation (Primitive.isOperation_of_find? found) none
    · rcases List.mem_append.mp member with inArgs | isLast
      · exact arguments instr inArgs
      · simp only [applyNamed, List.mem_cons, List.not_mem_nil, or_false] at isLast
        rcases isLast with rfl | rfl
        · split
          · exact .load func _
          · exact .closure isCall _
        · exact .apply isCall none
  | composite kind elems ih =>
    intro code compiled instr member
    obtain ⟨-, elemCode, elemsOk, rfl⟩ := code_composite_eq_ok compiled
    obtain ⟨parts, partCodes, rfl⟩ := codes_eq_ok.mp elemsOk
    have elements := forall_mem_flatten partCodes fun elem isElem elemCode elemOk instr member =>
      (ih elem isElem elemOk instr member).mono fun site isCall =>
        show site ∈ (composite kind elems).calls from mem_callsOfAll.mpr ⟨elem, isElem, isCall⟩
    rcases List.mem_append.mp member with inElems | isLast
    · exact elements instr inElems
    · exact (fixed_of_chainElements _ instr isLast).straight _
  | paren inner ih =>
    intro code compiled instr member
    rw [Expr.code] at compiled
    exact ih compiled instr member

end Expr

/-! ## What code refers to -/

/-- Some instruction loads a name with the given opcode. -/
def Loads (opcode : Opcode) (name : String) (code : List Instr) : Prop :=
  ∃ instr ∈ code, instr.opcode = opcode ∧ instr.reference? = some name

namespace Loads

variable {opcode : Opcode} {name : String}

@[simp] theorem append_iff {first second : List Instr} :
    Loads opcode name (first ++ second) ↔ Loads opcode name first ∨ Loads opcode name second := by
  simp only [Loads, List.mem_append, or_and_right, exists_or]

@[simp] theorem flatten_iff {parts : List (List Instr)} :
    Loads opcode name parts.flatten ↔ ∃ part ∈ parts, Loads opcode name part := by
  simp only [Loads, List.mem_flatten]
  constructor
  · rintro ⟨instr, ⟨part, isPart, member⟩, loads⟩
    exact ⟨part, isPart, instr, member, loads⟩
  · rintro ⟨part, isPart, instr, member, loads⟩
    exact ⟨instr, ⟨part, isPart, member⟩, loads⟩

theorem not_of_fixed {code : List Instr} (fixed : ∀ instr ∈ code, Fixed instr) :
    ¬ Loads opcode name code := by
  rintro ⟨instr, member, -, refers⟩
  rw [(fixed instr member).reference?_eq_none] at refers
  cases refers

end Loads

namespace Expr

/-- The names that an expression calls, primitives apart. -/
def callees (expr : Expr) : List String :=
  (expr.calls.map CallSite.func).filter (Primitive.find? · = none)

@[simp] theorem callees_literal (value : Literal) : (literal value).callees = [] := by
  simp [callees, calls]

@[simp] theorem callees_ident (name : String) : (ident name).callees = [] := by
  simp [callees, calls]

@[simp] theorem callees_binary (op : BinaryOp) (lhs rhs : Expr) :
    (binary op lhs rhs).callees = lhs.callees ++ rhs.callees := by
  simp [callees, calls]

theorem mem_callees_call {func name : String} {args : List Expr} :
    name ∈ (call func args).callees ↔
      (∃ arg ∈ args, name ∈ arg.callees) ∨ func = name ∧ Primitive.find? func = none := by
  simp only [callees, calls, List.mem_filter, List.mem_map, List.mem_cons, mem_callsOfAll,
    decide_eq_true_eq]
  constructor
  · rintro ⟨⟨site, rfl | ⟨arg, isArg, isCall⟩, rfl⟩, noPrimitive⟩
    · exact .inr ⟨rfl, noPrimitive⟩
    · exact .inl ⟨arg, isArg, ⟨site, isCall, rfl⟩, noPrimitive⟩
  · rintro (⟨arg, isArg, ⟨site, isCall, named⟩, noPrimitive⟩ | ⟨rfl, noPrimitive⟩)
    · exact ⟨⟨site, .inr ⟨arg, isArg, isCall⟩, named⟩, noPrimitive⟩
    · exact ⟨⟨_, .inl rfl, rfl⟩, noPrimitive⟩

theorem mem_callees_composite {kind : CompositeKind} {elems : List Expr} {name : String} :
    name ∈ (composite kind elems).callees ↔ ∃ elem ∈ elems, name ∈ elem.callees := by
  simp only [callees, calls, List.mem_filter, List.mem_map, mem_callsOfAll]
  constructor
  · rintro ⟨⟨site, ⟨elem, isElem, isCall⟩, named⟩, noPrimitive⟩
    exact ⟨elem, isElem, ⟨site, isCall, named⟩, noPrimitive⟩
  · rintro ⟨elem, isElem, ⟨site, isCall, named⟩, noPrimitive⟩
    exact ⟨⟨site, ⟨elem, isElem, isCall⟩, named⟩, noPrimitive⟩

/-- A call outside of functions makes a closure of what it calls. -/
theorem loads_applyNamed {opcode : Opcode} {func name : String} (argCount : Nat) :
    Loads opcode name (applyNamed [] func argCount) ↔ opcode = .ldf ∧ func = name := by
  have unfolded : applyNamed [] func argCount =
      [(Instr.ldf func).commented func, .ap argCount] := by simp [applyNamed]
  have refers : ((Instr.ldf func).commented func).reference? = some func := rfl
  have isClosure : ((Instr.ldf func).commented func).opcode = .ldf := rfl
  have noName : (Instr.ap argCount).reference? = none := rfl
  simp [unfolded, Loads, refers, isClosure, noName, eq_comm (a := opcode)]

theorem loads_flatten_iff {options : Options} {params : List String} {exprs : List Expr}
    {parts : List (List Instr)}
    (compiled : List.Forall₂ (fun expr part => expr.code options params = .ok part) exprs parts)
    {opcode : Opcode} {name : String} {mentions : Expr → Prop}
    (each : ∀ expr ∈ exprs, ∀ {code : List Instr}, expr.code options params = .ok code →
      (Loads opcode name code ↔ mentions expr)) :
    Loads opcode name parts.flatten ↔ ∃ expr ∈ exprs, mentions expr := by
  rw [Loads.flatten_iff]
  constructor
  · rintro ⟨part, isPart, loads⟩
    obtain ⟨expr, isExpr, partOk⟩ := exists_of_mem_right compiled isPart
    exact ⟨expr, isExpr, (each expr isExpr partOk).mp loads⟩
  · rintro ⟨expr, isExpr, mentioned⟩
    obtain ⟨part, isPart, partOk⟩ := exists_of_mem_left compiled isExpr
    exact ⟨part, isPart, (each expr isExpr partOk).mpr mentioned⟩

/-- Outside of functions, the variables that the code of an expression loads are its identifiers,
and the closures are what it calls. -/
theorem loads_iff {options : Options} {expr : Expr} {name : String} :
    ∀ {code : List Instr}, expr.code options [] = .ok code →
      (Loads .ld name code ↔ name ∈ expr.idents) ∧ (Loads .ldf name code ↔ name ∈ expr.callees) := by
  induction expr using Expr.induct with
  | literal value =>
    intro code compiled
    cases value <;> simp only [Expr.code, Except.ok.injEq] at compiled <;> subst compiled <;>
      simp [Loads, Instr.ldc, Instr.ldcText, idents]
  | ident other =>
    intro code compiled
    simp only [Expr.code, Except.ok.injEq] at compiled
    subst compiled
    have refers : ((Instr.ld other).commented other).reference? = some other := rfl
    have isLoad : ((Instr.ld other).commented other).opcode = .ld := rfl
    simp [Loads, refers, isLoad, idents, eq_comm (a := other)]
  | binary op lhs rhs ihLeft ihRight =>
    intro code compiled
    obtain ⟨tail, left, right, known, leftOk, rightOk, rfl⟩ := code_binary_eq_ok.mp compiled
    have noTail : ∀ opcode, ¬ Loads opcode name tail := fun opcode =>
      Loads.not_of_fixed (BinaryOp.fixed_of_tail? known)
    obtain ⟨leftReads, leftCalls⟩ := ihLeft leftOk
    obtain ⟨rightReads, rightCalls⟩ := ihRight rightOk
    -- the order of the operands is of no account
    have operands : ∀ opcode, Loads opcode name
        (if op.swapsOperands then right ++ left else left ++ right) ↔
        Loads opcode name left ∨ Loads opcode name right := by
      intro opcode
      split
      · rw [Loads.append_iff, or_comm]
      · rw [Loads.append_iff]
    simp only [Loads.append_iff, operands, noTail, or_false, leftReads, leftCalls, rightReads,
      rightCalls, idents, callees_binary, List.mem_append, true_and]
  | call func args ih =>
    intro code compiled
    obtain ⟨argCode, argsOk, shape⟩ := code_call_eq_ok compiled
    obtain ⟨parts, partCodes, rfl⟩ := codes_eq_ok.mp argsOk
    have reads := loads_flatten_iff partCodes fun arg isArg argCode argOk => (ih arg isArg argOk).1
    have called := loads_flatten_iff partCodes fun arg isArg argCode argOk => (ih arg isArg argOk).2
    simp only [idents, mem_identsOfAll, mem_callees_call]
    rcases shape with ⟨primitive, found, -, rfl⟩ | ⟨noPrimitive, rfl⟩
    · have noLoad : ∀ opcode, ¬ Loads opcode name [.plain primitive.opcode] := fun opcode =>
        Loads.not_of_fixed (by simpa using .plain (Primitive.isOperation_of_find? found))
      simp [noLoad, reads, called, found]
    · simp [loads_applyNamed, reads, called, noPrimitive]
  | composite kind elems ih =>
    intro code compiled
    obtain ⟨-, elemCode, elemsOk, rfl⟩ := code_composite_eq_ok compiled
    obtain ⟨parts, partCodes, rfl⟩ := codes_eq_ok.mp elemsOk
    have reads := loads_flatten_iff partCodes fun elem isElem elemCode elemOk =>
      (ih elem isElem elemOk).1
    have called := loads_flatten_iff partCodes fun elem isElem elemCode elemOk =>
      (ih elem isElem elemOk).2
    have noChain : ∀ opcode, ¬ Loads opcode name (chainElements elems.length) := fun opcode =>
      Loads.not_of_fixed (fixed_of_chainElements _)
    simp only [Loads.append_iff, noChain, or_false, reads, called, idents, mem_identsOfAll,
      mem_callees_composite, true_and]
  | paren inner ih =>
    intro code compiled
    rw [Expr.code] at compiled
    exact ih compiled

end Expr

end Secd
