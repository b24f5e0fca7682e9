import Secd.Proofs.Resolution

namespace Secd

open Results

/-! # Code of expressions in a listing

`Emits depth context exprs out` says by rules, one for each kind of expression, that `out` is the
linked code of `exprs` one after the other, comments apart. It speaks of the source alone: a name in
scope is loaded from its address, the name of a constant gives the code of the expression that the
constant stands for. What linking makes of generated code has this form (`emits_of_settles`), so
properties of listings are proved by induction over these rules.
-/

/-- The operands of an operator in the order in which they are evaluated. -/
def BinaryOp.pushed {α : Type} (op : BinaryOp) (lhs rhs : α) : List α :=
  if op.swapsOperands then [rhs, lhs] else [lhs, rhs]

/-- The linked code of expressions by rules. At most `depth` constants are opened inside each other.
-/
inductive Emits (scope : Scope) (definitions : List (String × Expr)) :
    Nat → Context → List Expr → List Instr → Prop where
  | nil (depth : Nat) (context : Context) : Emits scope definitions depth context [] []
  | number {depth : Nat} {context : Context} (value : Int64) {rest : List Expr} {out : List Instr}
      (next : Emits scope definitions depth context rest out) :
    Emits scope definitions depth context (.literal (.int value) :: rest) (.ldc value :: out)
  | text {depth : Nat} {context : Context} (source : String) {rest : List Expr} {out : List Instr}
      (next : Emits scope definitions depth context rest out) :
    Emits scope definitions depth context (.literal (.text source) :: rest) (.ldcText source :: out)
  | bound {depth : Nat} {name : String} {address : Address} {rest : List Expr} {out : List Instr}
      (found : scope.address? name = some address)
      (next : Emits scope definitions depth .function rest out) :
    Emits scope definitions depth .function (.ident name :: rest) (.ldAddress address :: out)
  | inline {depth : Nat} {context : Context} {name : String} {value : Expr} {rest : List Expr}
      {code out : List Instr} (unbound : context = .function → scope.address? name = none)
      (defined : definitions.lookup name = some value)
      (inside : Emits scope definitions depth .constant [value] code)
      (next : Emits scope definitions (depth + 1) context rest out) :
    Emits scope definitions (depth + 1) context (.ident name :: rest) (code ++ out)
  | binary {depth : Nat} {context : Context} {op : BinaryOp} {lhs rhs : Expr} {rest : List Expr}
      {tail code out : List Instr} (known : op.tail? = some tail)
      (operands : Emits scope definitions depth context (op.pushed lhs rhs) code)
      (next : Emits scope definitions depth context rest out) :
    Emits scope definitions depth context (.binary op lhs rhs :: rest) (code ++ (tail ++ out))
  | primitive {depth : Nat} {context : Context} {func : String} {primitive : Primitive}
      {args rest : List Expr} {code out : List Instr} (found : Primitive.find? func = some primitive)
      (arguments : Emits scope definitions depth context args code)
      (next : Emits scope definitions depth context rest out) :
    Emits scope definitions depth context (.call func args :: rest)
      (code ++ .plain primitive.opcode :: out)
  | call {depth : Nat} {context : Context} {func : String} {args rest : List Expr}
      {code callee out : List Instr} (noPrimitive : Primitive.find? func = none)
      (arguments : Emits scope definitions depth context args code)
      (load : Emits scope definitions depth context [.ident func] callee)
      (next : Emits scope definitions depth context rest out) :
    Emits scope definitions depth context (.call func args :: rest)
      (code ++ (callee ++ .ap args.length :: out))
  | callBound {depth : Nat} {func : String} {address : Address} {args rest : List Expr}
      {code out : List Instr} (noPrimitive : Primitive.find? func = none)
      (arguments : Emits scope definitions depth .constant args code)
      (undefined : definitions.lookup func = none) (found : scope.address? func = some address)
      (next : Emits scope definitions depth .constant rest out) :
    Emits scope definitions depth .constant (.call func args :: rest)
      (code ++ .ldAddress address :: .ap args.length :: out)
  | list {depth : Nat} {context : Context} {elems rest : List Expr} {code out : List Instr}
      (elements : Emits scope definitions depth context elems code)
      (next : Emits scope definitions depth context rest out) :
    Emits scope definitions depth context (.composite .array elems :: rest)
      (code ++ ((chainElements elems.length).map Instr.uncommented ++ out))
  | paren {depth : Nat} {context : Context} {inner : Expr} {rest : List Expr} {out : List Instr}
      (next : Emits scope definitions depth context (inner :: rest) out) :
    Emits scope definitions depth context (.paren inner :: rest) out

/-! ## Settled code is emitted code -/

section

variable {options : Options} {scope : Scope} {definitions : List (String × Expr)}
  {constants : Constants} {blocks : List PlacedBlock}

/-- The code of an expression, whatever comes after it. -/
def EmitsHead (scope : Scope) (definitions : List (String × Expr)) (depth : Nat) (context : Context)
    (expr : Expr) (code : List Instr) : Prop :=
  ∀ {rest : List Expr} {out : List Instr}, Emits scope definitions depth context rest out →
    Emits scope definitions depth context (expr :: rest) (code ++ out)

/-- What becomes of the load of a name. -/
theorem emits_of_reference (defines : Defines options definitions constants) {depth : Nat}
    (ofConstants : ∀ {smaller : Nat} {value : Expr} {code out : List Instr}, smaller < depth →
      value.code options [] = .ok code →
      Settles scope constants blocks smaller .constant (code.map Instr.uncommented) out →
      Emits scope definitions smaller .constant [value] out)
    {context : Context} {instr : Instr} {name : String} {rest out : List Instr}
    (refers : instr.reference? = some name)
    (settles : Settles scope constants blocks depth context (instr :: rest) out) :
    ∃ load after, out = load ++ after ∧ Settles scope constants blocks depth context rest after ∧
      (EmitsHead scope definitions depth context (.ident name) load ∨
        ∃ address, context = .constant ∧ definitions.lookup name = none ∧
          scope.address? name = some address ∧ instr.opcode = .ldf ∧
          load = [.ldAddress address]) := by
  cases settles with
  | keep noName _ _ =>
    rw [refers] at noName
    cases noName
  | branch _ _ _ => cases refers
  | @bound _ _ _ other address _ after otherRefers visible found next =>
    rw [refers] at otherRefers
    cases otherRefers
    refine ⟨[.ldAddress address], after, rfl, next, ?_⟩
    cases context with
    | function => exact .inl fun later => .bound found later
    | constant =>
      -- a constant reads no variables, so this one is called
      obtain ⟨undefined, isClosure⟩ := visible rfl
      exact .inr ⟨address, rfl, (defines.body?_eq_none_iff name).mp undefined, found, isClosure, rfl⟩
  | @inline smaller _ _ other body code _ after otherRefers unbound hasBody inside next =>
    rw [refers] at otherRefers
    cases otherRefers
    refine ⟨code, after, rfl, next, .inl fun later => ?_⟩
    cases defined : definitions.lookup name with
    | none =>
      rw [defines.absent name defined] at hasBody
      cases hasBody
    | some value =>
      obtain ⟨valueCode, compiled, otherBody, hasOther, same⟩ := defines.present name value defined
      rw [hasBody] at hasOther
      cases hasOther
      rw [same] at inside
      exact .inline unbound defined (ofConstants (by omega) compiled inside) later

/-- Expressions one after the other, when each of them is settled code. -/
theorem emits_of_codes {depth : Nat} {context : Context} {params : List String} {exprs : List Expr}
    (each : ∀ expr ∈ exprs, ∀ {code out : List Instr}, expr.code options params = .ok code →
      Settles scope constants blocks depth context (code.map Instr.uncommented) out →
      EmitsHead scope definitions depth context expr out) :
    ∀ {code out : List Instr}, Expr.codes options params exprs = .ok code →
      Settles scope constants blocks depth context (code.map Instr.uncommented) out →
      Emits scope definitions depth context exprs out := by
  induction exprs with
  | nil =>
    intro code out compiled settles
    cases compiled
    cases settles
    exact .nil depth context
  | cons expr rest ih =>
    intro code out compiled settles
    obtain ⟨head, headOk, tail, tailOk, rfl⟩ := by
      simpa only [Expr.codes, bind_eq_ok, pure_eq_ok] using compiled
    rw [List.map_append] at settles
    obtain ⟨before, after, rfl, headSettles, tailSettles⟩ := settles.append
    exact each expr List.mem_cons_self headOk headSettles
      (ih (fun other member => each other (List.mem_cons_of_mem _ member)) tailOk tailSettles)

theorem Fixed.takesBlocks_eq_false {instr : Instr} (fixed : Fixed instr) :
    instr.opcode.takesBlocks = false := by
  cases fixed with
  | number value comment => rfl
  | @operation opcode computes comment => cases opcode <;> first | rfl | cases computes

/-- Linking keeps instructions that mention no name. -/
theorem Settles.eq_of_fixed {depth : Nat} {context : Context} {code out : List Instr}
    (fixed : ∀ instr ∈ code, Fixed instr)
    (settles : Settles scope constants blocks depth context (code.map Instr.uncommented) out) :
    out = code.map Instr.uncommented := by
  refine settles.eq_of_keep fun instr member => ?_
  obtain ⟨original, isOriginal, rfl⟩ := List.mem_map.mp member
  exact ⟨(fixed original isOriginal).reference?_eq_none,
    (fixed original isOriginal).takesBlocks_eq_false⟩

theorem BinaryOp.uncommented_tail? {op : BinaryOp} {tail : List Instr}
    (known : op.tail? = some tail) : tail.map Instr.uncommented = tail := by
  cases op <;> cases known <;> rfl

/-- What linking makes of the code of an expression is code by the rules. -/
theorem emitsHead_of_settles (defines : Defines options definitions constants) {depth : Nat}
    (ofConstants : ∀ {smaller : Nat} {value : Expr} {code out : List Instr}, smaller < depth →
      value.code options [] = .ok code →
      Settles scope constants blocks smaller .constant (code.map Instr.uncommented) out →
      Emits scope definitions smaller .constant [value] out)
    {context : Context} {params : List String} (noParams : context = .constant → params = [])
    (expr : Expr) : ∀ {code out : List Instr}, expr.code options params = .ok code →
      Settles scope constants blocks depth context (code.map Instr.uncommented) out →
      EmitsHead scope definitions depth context expr out := by
  induction expr using Expr.induct with
  | literal value =>
    intro code out compiled settles
    cases value with
    | int value =>
      simp only [Expr.code, Except.ok.injEq] at compiled
      subst compiled
      obtain ⟨nothing, rfl, ended⟩ := settles.keep_inv rfl rfl
      cases ended
      exact fun next => .number value next
    | text source =>
      simp only [Expr.code, Except.ok.injEq] at compiled
      subst compiled
      obtain ⟨nothing, rfl, ended⟩ := settles.keep_inv rfl rfl
      cases ended
      exact fun next => .text source next
  | ident name =>
    intro code out compiled settles
    simp only [Expr.code, Except.ok.injEq] at compiled
    subst compiled
    have refers : ((Instr.ld name).commented name).uncommented.reference? = some name := rfl
    obtain ⟨load, after, rfl, nothing, head | ⟨address, -, -, -, isClosure, -⟩⟩ :=
      emits_of_reference defines ofConstants refers settles
    · cases nothing
      rwa [List.append_nil]
    · cases isClosure
  | binary op lhs rhs ihLeft ihRight =>
    intro code out compiled settles rest restOut next
    obtain ⟨tail, left, right, known, leftOk, rightOk, rfl⟩ := Expr.code_binary_eq_ok.mp compiled
    rw [List.map_append] at settles
    obtain ⟨operands, after, rfl, ofOperands, ofTail⟩ := settles.append
    rw [Settles.eq_of_fixed (BinaryOp.fixed_of_tail? known) ofTail,
      BinaryOp.uncommented_tail? known, List.append_assoc]
    -- what is left are the operands, in the order in which they are evaluated
    refine .binary known ?_ next
    unfold BinaryOp.pushed
    split at ofOperands
    · rename_i swaps
      rw [List.map_append] at ofOperands
      obtain ⟨rightOut, leftOut, rfl, ofRight, ofLeft⟩ := ofOperands.append
      rw [if_pos swaps, ← List.append_nil leftOut]
      exact ihRight rightOk ofRight (ihLeft leftOk ofLeft (.nil depth context))
    · rename_i keepsOrder
      rw [List.map_append] at ofOperands
      obtain ⟨leftOut, rightOut, rfl, ofLeft, ofRight⟩ := ofOperands.append
      rw [if_neg keepsOrder, ← List.append_nil rightOut]
      exact ihLeft leftOk ofLeft (ihRight rightOk ofRight (.nil depth context))
  | call func args ih =>
    intro code out compiled settles rest restOut next
    obtain ⟨argCode, argsOk, shape⟩ := Expr.code_call_eq_ok compiled
    rcases shape with ⟨primitive, found, -, rfl⟩ | ⟨noPrimitive, rfl⟩
    · rw [List.map_append] at settles
      obtain ⟨argOut, after, rfl, ofArgs, ofLast⟩ := settles.append
      have fixed : ∀ instr ∈ [Instr.plain primitive.opcode], Fixed instr := by
        simpa using .plain (Primitive.isOperation_of_find? found)
      rw [Settles.eq_of_fixed fixed ofLast, List.append_assoc]
      exact .primitive found (emits_of_codes ih argsOk ofArgs) next
    · rw [List.map_append] at settles
      obtain ⟨argOut, after, rfl, ofArgs, ofCall⟩ := settles.append
      have arguments := emits_of_codes ih argsOk ofArgs
      have refers : (if func ∈ params then Instr.ld func else Instr.ldf func).uncommented.reference? =
          some func := by split <;> rfl
      obtain ⟨load, last, rfl, ofLast, head⟩ :=
        emits_of_reference defines ofConstants refers ofCall
      obtain ⟨nothing, rfl, ended⟩ := ofLast.keep_inv rfl rfl
      cases ended
      rw [List.append_assoc, List.append_assoc]
      -- what is called is loaded like any name, unless a constant calls a variable
      rcases head with isIdent | ⟨address, rfl, undefined, found, -, rfl⟩
      · have callee := isIdent (.nil depth context)
        rw [List.append_nil] at callee
        exact .call noPrimitive arguments callee next
      · exact .callBound noPrimitive arguments undefined found next
  | composite kind elems ih =>
    intro code out compiled settles rest restOut next
    obtain ⟨rfl, elemCode, elemsOk, rfl⟩ := Expr.code_composite_eq_ok compiled
    rw [List.map_append] at settles
    obtain ⟨elemOut, after, rfl, ofElems, ofChain⟩ := settles.append
    rw [Settles.eq_of_fixed (fixed_of_chainElements _) ofChain, List.append_assoc]
    exact .list (emits_of_codes ih elemsOk ofElems) next
  | paren inner ih =>
    intro code out compiled settles rest restOut next
    rw [Expr.code] at compiled
    exact .paren (ih compiled settles next)

theorem emits_of_settles (defines : Defines options definitions constants) (depth : Nat) :
    ∀ {context : Context} {params : List String}, (context = .constant → params = []) →
    ∀ {expr : Expr} {code out : List Instr}, expr.code options params = .ok code →
      Settles scope constants blocks depth context (code.map Instr.uncommented) out →
      Emits scope definitions depth context [expr] out := by
  induction depth using Nat.strongRecOn with
  | ind depth ih =>
    -- the expression of a constant may be larger than what mentions it, but is opened deeper
    intro context params noParams expr code out compiled settles
    have single := emitsHead_of_settles defines
      (fun smaller isCompiled isSettled => ih _ smaller (fun _ => rfl) isCompiled isSettled)
      noParams expr compiled settles (.nil depth context)
    rwa [List.append_nil] at single

end

/-! ## What the instructions can be -/

/-- The instructions that the linked code of an expression is made of. -/
inductive Computes (scope : Scope) : Instr → Prop where
  | number (value : Int64) : Computes scope (.ldc value)
  | text (source : String) : Computes scope (.ldcText source)
  | load {name : String} {address : Address} (found : scope.address? name = some address) :
    Computes scope (.ldAddress address)
  | apply (argCount : Nat) : Computes scope (.ap argCount)
  | operation {opcode : Opcode} (computes : opcode.isOperation) : Computes scope (.plain opcode)

theorem computes_of_fixed {code : List Instr} (fixed : ∀ instr ∈ code, Fixed instr) (scope : Scope) :
    ∀ instr ∈ code.map Instr.uncommented, Computes scope instr := by
  intro instr member
  obtain ⟨original, isOriginal, rfl⟩ := List.mem_map.mp member
  cases fixed original isOriginal with
  | number value comment => exact .number value
  | operation isOperation comment => exact .operation isOperation

theorem Emits.computes {scope : Scope} {definitions : List (String × Expr)} {depth : Nat}
    {context : Context} {exprs : List Expr} {out : List Instr}
    (emits : Emits scope definitions depth context exprs out) :
    ∀ instr ∈ out, Computes scope instr := by
  induction emits with
  | nil => simp
  | number value _ ih => exact List.forall_mem_cons.mpr ⟨.number value, ih⟩
  | text source _ ih => exact List.forall_mem_cons.mpr ⟨.text source, ih⟩
  | bound found _ ih => exact List.forall_mem_cons.mpr ⟨.load found, ih⟩
  | inline _ _ _ _ ihInside ihNext => exact List.forall_mem_append.mpr ⟨ihInside, ihNext⟩
  | binary known _ _ ihOperands ihNext =>
    have ofTail := computes_of_fixed (BinaryOp.fixed_of_tail? known) scope
    rw [BinaryOp.uncommented_tail? known] at ofTail
    exact List.forall_mem_append.mpr ⟨ihOperands, List.forall_mem_append.mpr ⟨ofTail, ihNext⟩⟩
  | primitive found _ _ ihArguments ihNext =>
    exact List.forall_mem_append.mpr ⟨ihArguments, List.forall_mem_cons.mpr
      ⟨.operation (Primitive.isOperation_of_find? found), ihNext⟩⟩
  | call _ _ _ _ ihArguments ihLoad ihNext =>
    exact List.forall_mem_append.mpr ⟨ihArguments, List.forall_mem_append.mpr
      ⟨ihLoad, List.forall_mem_cons.mpr ⟨.apply _, ihNext⟩⟩⟩
  | callBound _ _ _ found _ ihArguments ihNext =>
    exact List.forall_mem_append.mpr ⟨ihArguments, List.forall_mem_cons.mpr
      ⟨.load found, List.forall_mem_cons.mpr ⟨.apply _, ihNext⟩⟩⟩
  | list _ _ ihElements ihNext =>
    exact List.forall_mem_append.mpr ⟨ihElements, List.forall_mem_append.mpr
      ⟨computes_of_fixed (fixed_of_chainElements _) scope, ihNext⟩⟩
  | paren _ ih => exact ih

end Secd
