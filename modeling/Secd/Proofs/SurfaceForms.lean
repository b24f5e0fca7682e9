import Secd.Compile
import Secd.Proofs.Variants

namespace Secd

open Results

/-! # Surface forms

Some forms of the source language are there for the writer only: what they stand for can be written
with others. `Desugars` relates a tree to one in which any number of such forms, anywhere and inside
each other, are replaced by what they stand for. Such trees have the same code or the same fault
(`Expr.Desugars.code_eq`, `Stmt.DesugarsBody.bodyCode_eq`), to the comment and to the name of every
arm, so the two programs are compiled alike (`compile_desugared`).

The returns are the only forms for which their place counts: they stand for something else only at
the end of a function body.
-/

/-! ## Expressions -/

/-- The second expression is the first with some of the forms in it replaced. -/
inductive Expr.Desugars : Expr → Expr → Prop where
  -- a form that stays, with what is inside it replaced
  | refl (expr : Expr) : Desugars expr expr
  | binary {op : BinaryOp} {lhs rhs left right : Expr} (ofLeft : Desugars lhs left)
      (ofRight : Desugars rhs right) : Desugars (.binary op lhs rhs) (.binary op left right)
  | call {func : String} {args others : List Expr} (each : List.Forall₂ Desugars args others) :
    Desugars (.call func args) (.call func others)
  | composite {kind : CompositeKind} {elems others : List Expr}
      (each : List.Forall₂ Desugars elems others) :
    Desugars (.composite kind elems) (.composite kind others)
  | paren {inner other : Expr} (ofInner : Desugars inner other) :
    Desugars (.paren inner) (.paren other)
  -- a form that is replaced
  | unparen {inner other : Expr} (ofInner : Desugars inner other) : Desugars (.paren inner) other
  | single {elem other : Expr} (ofElem : Desugars elem other) :
    Desugars (.composite .array [elem]) other
  /-- The array of the later elements is a form again, which may be replaced in its turn. -/
  | chain {head tail elem : Expr} {rest : List Expr} (ofElem : Desugars elem head)
      (several : rest ≠ []) (ofRest : Desugars (.composite .array rest) tail) :
    Desugars (.composite .array (elem :: rest)) (.call "CONS" [head, tail])
  | less {lhs rhs left right : Expr} (ofLeft : Desugars lhs left) (ofRight : Desugars rhs right) :
    Desugars (.binary .lt lhs rhs) (.binary .gt right left)
  | lessEq {lhs rhs left right : Expr} (ofLeft : Desugars lhs left)
      (ofRight : Desugars rhs right) :
    Desugars (.binary .ltEq lhs rhs) (.binary .gtEq right left)
  | unequal {lhs rhs left right : Expr} (ofLeft : Desugars lhs left)
      (ofRight : Desugars rhs right) :
    Desugars (.binary .notEq lhs rhs) (.binary .eq (.binary .eq left right) (.int 0))

namespace Expr

variable {options : Options} {params : List String}

/-- An array with one element is its element. -/
theorem code_array_single (elem : Expr) :
    (composite .array [elem]).code options params = elem.code options params := by
  have noPairs : chainElements [elem].length = [] := rfl
  simp only [code, codes, noPairs, ok_bind, List.append_nil, bind_pure]

/-- A longer array is the pair of its first element and the array of the others. -/
theorem code_array_cons (elem : Expr) {rest : List Expr} (several : rest ≠ []) :
    (composite .array (elem :: rest)).code options params =
      (call "CONS" [elem, composite .array rest]).code options params := by
  have isCons : Primitive.find? "CONS" = some ⟨.cons, 2⟩ := by decide
  have arity : Primitive.checkArity options ⟨.cons, 2⟩ 2 = .ok () := by simp [Primitive.checkArity]
  obtain ⟨count, counted⟩ : ∃ count, rest.length = count + 1 :=
    Nat.exists_eq_succ_of_ne_zero (by simpa using several)
  simp only [code, isCons, codes, List.length_cons, List.length_nil, arity, counted, ok_bind,
    bind_assoc, pure_bind, chainElements]
  simp [List.replicate_succ']

theorem code_less (lhs rhs : Expr) :
    (binary .lt lhs rhs).code options params = (binary .gt rhs lhs).code options params := by
  simp [code, BinaryOp.tail, BinaryOp.tail?, BinaryOp.operands, BinaryOp.swapsOperands]

theorem code_lessEq (lhs rhs : Expr) :
    (binary .ltEq lhs rhs).code options params = (binary .gtEq rhs lhs).code options params := by
  simp [code, BinaryOp.tail, BinaryOp.tail?, BinaryOp.operands, BinaryOp.swapsOperands]

theorem code_unequal (lhs rhs : Expr) :
    (binary .notEq lhs rhs).code options params =
      (binary .eq (binary .eq lhs rhs) (int 0)).code options params := by
  simp only [code, int, BinaryOp.tail, BinaryOp.tail?, BinaryOp.operands, BinaryOp.swapsOperands,
    Bool.false_eq_true, if_false, ok_bind, bind_assoc, pure_bind, List.append_assoc,
    List.cons_append, List.nil_append]

theorem code_call_congr (func : String) {args others : List Expr}
    (lengths : args.length = others.length)
    (same : codes options params args = codes options params others) :
    (call func args).code options params = (call func others).code options params := by
  simp only [code, lengths, same]

mutual

/-- Replacing forms changes neither the code of an expression nor its fault. -/
theorem Desugars.code_eq {expr other : Expr} : expr.Desugars other →
    expr.code options params = other.code options params
  | .refl _ => rfl
  | .binary ofLeft ofRight => by
    rw [code, code, ofLeft.code_eq, ofRight.code_eq]
  | .call each => code_call_congr _ each.length_eq (codes_eq_of_desugars each)
  | @Desugars.composite kind _ _ each => by
    cases kind with
    | array => simp only [code, each.length_eq, codes_eq_of_desugars each]
    | struct name => simp only [code]
    | map => simp only [code]
  | .paren ofInner => by
    rw [code, code, ofInner.code_eq]
  | .unparen ofInner => by
    rw [code, ofInner.code_eq]
  | .single ofElem => by
    rw [code_array_single, ofElem.code_eq]
  | .chain ofElem several ofRest => by
    rw [code_array_cons _ several]
    refine code_call_congr _ rfl ?_
    simp only [codes, ofElem.code_eq, ofRest.code_eq]
  | .less ofLeft ofRight => by
    rw [code_less, code, code, ofLeft.code_eq, ofRight.code_eq]
  | .lessEq ofLeft ofRight => by
    rw [code_lessEq, code, code, ofLeft.code_eq, ofRight.code_eq]
  | .unequal ofLeft ofRight => by
    rw [code_unequal]
    simp only [code, ofLeft.code_eq, ofRight.code_eq]

theorem codes_eq_of_desugars {exprs others : List Expr} :
    List.Forall₂ Desugars exprs others →
    codes options params exprs = codes options params others
  | .nil => rfl
  | .cons head rest => by
    rw [codes, codes, head.code_eq, codes_eq_of_desugars rest]

end

end Expr

/-! ## Statements -/

namespace Stmt

section

variable {options : Options} {params : List String} {related : Expr → Expr → Prop}
  (same : ∀ value other, related value other →
    value.code options params = other.code options params)

include same

/-- Statements that differ only in expressions of the same code have the same code. -/
theorem Alike.codes_eq {stmts others : List Stmt} (alike : Alike related stmts others) :
    ∀ (block : String) (position : Nat),
      codes options params block position stmts = codes options params block position others := by
  induction alike with
  | nil => exact fun _ _ => rfl
  | expr isRelated _ ih =>
    intro block position
    simp only [codes, Stmt.code, same _ _ isRelated, ih]
  | ifElse isRelated _ _ _ ihThen ihElse ihNext =>
    intro block position
    simp only [codes, Stmt.code, elseCode_eq, same _ _ isRelated, ihThen, ihElse, ihNext]
  | ret _ _ _ | assign _ _ | loop _ _ =>
    -- the fault tells what kind of statement it is, and nothing of what is inside it
    intro block position
    simp only [codes, Stmt.code]
    rfl

theorem Alike.returnCode_eq {values others : List Expr}
    (areRelated : List.Forall₂ related values others) :
    returnCode options params values = returnCode options params others := by
  cases areRelated with
  | nil => rfl
  | cons head tail =>
    cases tail with
    | nil => rw [returnCode, returnCode, same _ _ head]
    | cons _ tail => simp only [returnCode, List.length_cons, tail.length_eq]

theorem Alike.bodyCode_eq {stmts others : List Stmt} (alike : Alike related stmts others) :
    ∀ (block : String) (position : Nat),
      bodyCode options params block position stmts =
        bodyCode options params block position others := by
  induction alike with
  | nil => exact fun _ _ => rfl
  | expr isRelated _ ih =>
    intro block position
    simp only [bodyCode, Stmt.code, same _ _ isRelated, ih]
  | ifElse isRelated thenAlike elseAlike _ _ _ ih =>
    intro block position
    simp only [bodyCode, Stmt.code, elseCode_eq, same _ _ isRelated, thenAlike.codes_eq same,
      elseAlike.codes_eq same, ih]
  | ret areRelated next _ =>
    intro block position
    cases next with
    | nil => exact Alike.returnCode_eq same areRelated
    | _ => rfl
  | assign _ _ | loop _ _ => exact fun _ _ => rfl

end

/-- A body that does not end in a return is a run of statements. -/
theorem bodyCode_eq_codes {options : Options} {params : List String} {body : List Stmt}
    (noReturn : ∀ values, body.getLast? ≠ some (.ret values)) (block : String) (position : Nat) :
    bodyCode options params block position body = codes options params block position body := by
  rcases List.eq_nil_or_concat body with rfl | ⟨init, last, rfl⟩
  · rfl
  · have notLast : ∀ values, last ≠ .ret values := by simpa using noReturn
    rw [List.concat_eq_append, bodyCode_append, codes_append]
    cases last with
    | ret values => exact absurd rfl (notLast values)
    | _ => rfl

/-- The second function body is the first with some of the forms in it replaced. -/
inductive DesugarsBody : List Stmt → List Stmt → Prop where
  | alike {body other : List Stmt} (ofBody : Alike Expr.Desugars body other) :
    DesugarsBody body other
  | value {init others : List Stmt} {value other : Expr} (ofInit : Alike Expr.Desugars init others)
      (ofValue : value.Desugars other) :
    DesugarsBody (init ++ [.ret [value]]) (others ++ [.expr other])
  | nothing {init others : List Stmt} (ofInit : Alike Expr.Desugars init others)
      (noReturn : ∀ values, init.getLast? ≠ some (.ret values)) :
    DesugarsBody (init ++ [.ret []]) others

theorem DesugarsBody.bodyCode_eq {options : Options} {params : List String}
    {body other : List Stmt} (desugars : DesugarsBody body other) (block : String)
    (position : Nat) :
    bodyCode options params block position body =
      bodyCode options params block position other := by
  have same : ∀ value other : Expr, value.Desugars other →
      value.code options params = other.code options params := fun _ _ desugars => desugars.code_eq
  cases desugars with
  | alike ofBody => exact ofBody.bodyCode_eq same block position
  | value ofInit ofValue =>
    rw [bodyCode_append, bodyCode_append, ofInit.codes_eq same]
    simp only [bodyCode, returnCode, Stmt.code, ofValue.code_eq, bind_assoc, pure_bind, ok_bind,
      Fragment.append_empty]
  | nothing ofInit noReturn =>
    rw [← ofInit.bodyCode_eq same, bodyCode_eq_codes noReturn, bodyCode_append]
    simp only [bodyCode, returnCode, ok_bind, Fragment.append_empty, bind_pure]

end Stmt

/-! ## Programs -/

/-- The second declaration is the first with some of the forms in it replaced. -/
inductive Decl.Desugars : Decl → Decl → Prop where
  | function {name : String} {params : List String} {body other : List Stmt}
      (ofBody : Stmt.DesugarsBody body other) :
    Desugars (.function ⟨name, params, body⟩) (.function ⟨name, params, other⟩)
  | ordinals (names : List String) :
    Desugars (.consts ⟨names, .ordinals⟩) (.consts ⟨names, .ordinals⟩)
  | exprs {names : List String} {values others : List Expr}
      (each : List.Forall₂ Expr.Desugars values others) :
    Desugars (.consts ⟨names, .exprs values⟩) (.consts ⟨names, .exprs others⟩)

/-- The second program is the first with some of the forms in it replaced. -/
structure Program.Desugars (program other : Program) : Prop where
  name : program.name = other.name
  decls : List.Forall₂ Decl.Desugars program.decls other.decls

theorem Decl.Desugars.declare_eq {options : Options} {decl other : Decl}
    (desugars : decl.Desugars other) (object : ObjectProgram) :
    object.declare options decl = object.declare options other := by
  cases desugars with
  | function ofBody =>
    simp only [ObjectProgram.declare, ObjectProgram.declareFunction, FunctionDecl.code,
      ofBody.bodyCode_eq]
  | ordinals names => rfl
  | @exprs names values others each =>
    have entries := forall₂_zip names each
    simp only [ObjectProgram.declare, ObjectProgram.declareConsts, each.length_eq]
    rw [foldlM_eq_foldlM (entries.imp fun first second related => ?_) object]
    intro state
    simp only [ObjectProgram.declareExpr, related.1, related.2.code_eq]

theorem Program.Desugars.object_eq {options : Options} {program other : Program}
    (desugars : program.Desugars other) : program.object options = other.object options := by
  rw [Program.object, Program.object, desugars.name]
  exact foldlM_eq_foldlM (desugars.decls.imp fun _ _ ofDecl => ofDecl.declare_eq) _

/-- Replacing surface forms, as many as one likes and wherever they stand, does not change what a
program is compiled to, nor the fault for which it is refused. -/
theorem compile_desugared {program other : Program} (desugars : program.Desugars other)
    (options : Options) : compile options program = compile options other := by
  rw [compile, compile, desugars.object_eq]

/-- Surface forms inside each other: in a constant, in a condition, in an arm and at the end of
bodies. -/
def convenient : Program where
  name := "p"
  decls := [
    .consts ⟨["ROW"], .exprs [.paren (.list [.int 1, .list [.int 2], .int 3])]⟩,
    .function ⟨"main", ["n"], [
      .ifElse (.binary .lt (.paren (.ident "n")) (.int 3))
        [.expr (.binary .notEq (.ident "n") (.int 0))] none,
      .ret [.paren (.ident "ROW")]]⟩,
    .function ⟨"idle", [], [.expr (.binary .ltEq (.int 0) (.int 1)), .ret []]⟩]

/-- The same program without them. -/
def austere : Program where
  name := "p"
  decls := [
    .consts ⟨["ROW"], .exprs [.call "CONS" [.int 1, .call "CONS" [.int 2, .int 3]]]⟩,
    .function ⟨"main", ["n"], [
      .ifElse (.binary .gt (.int 3) (.ident "n"))
        [.expr (.binary .eq (.binary .eq (.ident "n") (.int 0)) (.int 0))] (some []),
      .expr (.ident "ROW")]⟩,
    .function ⟨"idle", [], [.expr (.binary .gtEq (.int 1) (.int 0))]⟩]

theorem compile_desugared_convenient :
    convenient.Desugars austere ∧
      ∃ listing, compile {} convenient = .ok listing ∧ compile {} austere = .ok listing := by
  have desugars : convenient.Desugars austere := by
    refine ⟨rfl, .cons (.exprs (.cons (.unparen ?_) .nil)) (.cons (.function ?_)
      (.cons (.function ?_) .nil))⟩
    · exact .chain (.refl _) (by simp) (.chain (.single (.refl _)) (by simp) (.single (.refl _)))
    · exact .value
        (.ifElse (.less (.unparen (.refl _)) (.refl _)) (.expr (.unequal (.refl _) (.refl _)) .nil)
          .nil .nil)
        (.unparen (.refl _))
    · exact .nothing (.expr (.lessEq (.refl _) (.refl _)) .nil) (by simp)
  obtain ⟨listing, compiled, -⟩ :=
    exists_ok_of_any (compile {} convenient) (fun _ => true) (by decide)
  exact ⟨desugars, listing, compiled, compile_desugared desugars {} ▸ compiled⟩

-- an empty return after a return is one return too many
example : (Stmt.bodyCode {} [] "main" 0 [.ret [.int 1]]).isOk = true ∧
    (Stmt.bodyCode {} [] "main" 0 [.ret [.int 1], .ret []]).isOk = false := by decide

end Secd
