import Secd.Proofs.Acceptance
import Secd.Proofs.Lockstep

namespace Secd

open Results

/-! # Constants and their initializers

A constant that is mentioned in a function stands for the code of its initializer as it is outside
of functions, expanded and then closed where it is mentioned. The initializer itself, written in
that place, is code of the function: its names are looked up in the frames first. The two become
the same (`Site.Parallel.agree_constant`) unless a frame hides the constant or a constant that the
initializer mentions. So a program in which the one is replaced by the other is linked to the same
code (`constant_eq_initializer`).
-/

/-! ## Code in and outside of functions -/

/-- The same instruction, or the load of a parameter in the place of a closure of it. -/
def Instr.Rebinds (params : List String) (instr other : Instr) : Prop :=
  other.uncommented = instr.uncommented ∨
    ∃ func ∈ params, instr.uncommented = .ldf func ∧ other.uncommented = .ld func

theorem Instr.Rebinds.reference?_eq {params : List String} {instr other : Instr}
    (rebinds : instr.Rebinds params other) : other.reference? = instr.reference? := by
  have bare : ∀ instr : Instr, instr.uncommented.reference? = instr.reference? := fun _ => rfl
  rcases rebinds with same | ⟨func, -, isClosure, isLoad⟩
  · rw [← bare other, same, bare]
  · rw [← bare other, isLoad, ← bare instr, isClosure]
    rfl

namespace Expr

variable {options : Options} {params : List String}

theorem forall₂_rebinds_refl (code : List Instr) : List.Forall₂ (Instr.Rebinds params) code code :=
  List.forall₂_same.mpr fun _ _ => .inl rfl

theorem agree_codes_rebinds {exprs : List Expr}
    (each : ∀ expr ∈ exprs, Agree (List.Forall₂ (Instr.Rebinds params)) (expr.code options [])
      (expr.code options params)) :
    Agree (List.Forall₂ (Instr.Rebinds params)) (codes options [] exprs)
      (codes options params exprs) := by
  induction exprs with
  | nil => exact .ok .nil
  | cons expr rest ih =>
    simp only [codes]
    exact (each expr List.mem_cons_self).bind fun _ _ head =>
      (ih fun other member => each other (List.mem_cons_of_mem _ member)).bind
        fun _ _ tail => .ok (List.rel_append head tail)

theorem rebinds_applyNamed (func : String) (argCount : Nat) :
    List.Forall₂ (Instr.Rebinds params) (applyNamed [] func argCount)
      (applyNamed params func argCount) := by
  refine .cons ?_ (forall₂_rebinds_refl _)
  by_cases isParam : func ∈ params
  · exact .inr ⟨func, isParam, by simp; rfl, by simp [isParam]; rfl⟩
  · exact .inl (by simp [isParam])

/-- Whether an expression has code does not depend on parameters. -/
theorem agree_code_rebinds (expr : Expr) :
    Agree (List.Forall₂ (Instr.Rebinds params)) (expr.code options [])
      (expr.code options params) := by
  induction expr using Expr.induct with
  | literal value => cases value <;> exact .ok (forall₂_rebinds_refl _)
  | ident name => exact .ok (forall₂_rebinds_refl _)
  | binary op lhs rhs ihLeft ihRight =>
    simp only [code]
    refine Agree.bind_same _ fun tail => Agree.bind ?_
      fun _ _ operands => .ok (List.rel_append operands (forall₂_rebinds_refl tail))
    unfold BinaryOp.operands
    split
    · exact ihRight.bind fun _ _ right => ihLeft.bind fun _ _ left =>
        .ok (List.rel_append right left)
    · exact ihLeft.bind fun _ _ left => ihRight.bind fun _ _ right =>
        .ok (List.rel_append left right)
  | call func args ih =>
    simp only [code]
    split
    · exact Agree.bind_same _ fun _ => (agree_codes_rebinds ih).bind fun _ _ arguments =>
        .ok (List.rel_append arguments (forall₂_rebinds_refl _))
    · exact (agree_codes_rebinds ih).bind fun _ _ arguments =>
        .ok (List.rel_append arguments (rebinds_applyNamed func args.length))
  | composite kind elems ih =>
    cases kind with
    | array =>
      simp only [code]
      exact (agree_codes_rebinds ih).bind fun _ _ elements =>
        .ok (List.rel_append elements (forall₂_rebinds_refl _))
    | _ => exact .error _ _
  | paren inner ih =>
    simp only [code]
    exact ih

end Expr

/-! ## Expanded code and code in a function -/

namespace Site.Parallel

variable {called : CallSite → Prop} {paired : String → String → Prop} {site other : Site}
  {params : List String} {constants : Constants}

/-- An instruction that expansion keeps. -/
theorem agree_kept (parallel : site.Parallel called paired other)
    (bound : ∀ func ∈ params, site.scope.Binds func)
    (expanded : constants.expandAll = .ok site.constants) {instr : Instr}
    (kept : ∀ name, instr.reference? = some name →
      constants.body? name = none ∧ instr.opcode = .ldf)
    (straight : Straight called instr) {copy : Instr} (rebinds : instr.Rebinds params copy) :
    Agree (List.Forall₂ (Instr.Matches paired)) ([instr].mapM site.resolveClosure)
      (other.resolve copy) := by
  have copyRefers := rebinds.reference?_eq
  simp only [List.mapM_cons, List.mapM_nil, pure_bind]
  cases refers : instr.reference? with
  | none =>
    have noBlocks := straight.takesBlocks_eq_false refers
    rw [refers] at copyRefers
    simp only [resolve, copyRefers, site.resolveClosure_of_takesBlocks noBlocks]
    rcases rebinds with same | ⟨func, -, isClosure, -⟩
    · exact .ok (.cons (.same noBlocks same) .nil)
    · have impossible : instr.uncommented.reference? = some func := by
        rw [isClosure]
        rfl
      cases refers.symm.trans impossible
  | some name =>
    obtain ⟨undefined, isClosure⟩ := kept name refers
    rw [refers] at copyRefers
    cases found : site.scope.address? name with
    | some address =>
      obtain ⟨call, comment, -, rfl⟩ := straight.eq_of_closure isClosure
      cases refers
      simp only [resolve, copyRefers, parallel.scope, found, resolveClosure, Instr.symbol?]
      exact .ok (.cons (.same rfl rfl) .nil)
    | none =>
      rcases rebinds with same | ⟨func, isParam, isFunc, -⟩
      · have unknown := Constants.body?_eq_none_of_expandAll expanded undefined
        have isCopy : copy.opcode = .ldf := (Instr.mk.inj same).1.trans isClosure
        simp only [resolve, copyRefers, parallel.scope, found, parallel.constants, unknown, isCopy,
          if_true]
        exact (parallel.agree_resolveClosure straight same).bind
          fun _ _ isMatch => .ok (.cons isMatch .nil)
      · -- a parameter is in scope
        have isName : instr.uncommented.reference? = some func := by
          rw [isFunc]
          rfl
        cases refers.symm.trans isName
        exact absurd (bound name isParam) (Scope.address?_eq_none_iff.mp found)

/-- A constant whose expansion is put into the place of an instruction. -/
theorem agree_inlined (parallel : site.Parallel called paired other)
    (expanded : constants.expandAll = .ok site.constants) {instr : Instr} {name : String}
    (refers : instr.reference? = some name) (unbound : ¬ site.scope.Binds name)
    {body inner : List Instr} (defined : constants.body? name = some body)
    (inside : Expansion constants body inner) {copy : Instr}
    (rebinds : instr.Rebinds params copy) :
    Agree (List.Forall₂ (Instr.Matches paired)) ((instr.splice inner).mapM site.resolveClosure)
      (other.resolve copy) := by
  have copyRefers := rebinds.reference?_eq.trans refers
  have found := Scope.address?_eq_none_iff.mpr unbound
  obtain ⟨result, known, expansion⟩ := Constants.body?_of_expandAll expanded defined
  cases inside.unique expansion
  simp only [resolve, copyRefers, parallel.scope, found, parallel.constants, known]
  rw [← bind_pure ((instr.splice inner).mapM site.resolveClosure)]
  refine (parallel.agree_closures ?_ ?_).bind fun _ _ areMatches => .ok ?_
  · intro spliced member
    obtain ⟨original, isOriginal, rfl⟩ := List.mem_map.mp member
    exact (parallel.straight name inner known original isOriginal).recommented (by simp)
  · exact List.forall₂_map_left_iff.mpr (List.forall₂_same.mpr fun _ _ => rfl)
  · exact List.forall₂_map_right_iff.mpr
      (areMatches.imp fun _ _ isMatch => isMatch.recommented rfl rfl)

/-- The expansion of code outside of functions, closed at a site, and the code itself in a function
there. -/
theorem agree_expansion (parallel : site.Parallel called paired other)
    (bound : ∀ func ∈ params, site.scope.Binds func)
    (expanded : constants.expandAll = .ok site.constants) {code result : List Instr}
    (expansion : Expansion constants code result) :
    (∀ instr ∈ code, Straight called instr) →
    (∀ instr ∈ code, ∀ name, instr.reference? = some name → (constants.body? name).isSome →
      ¬ site.scope.Binds name) →
    ∀ {otherCode : List Instr}, List.Forall₂ (Instr.Rebinds params) code otherCode →
      Agree (List.Forall₂ (Instr.Matches paired)) (result.mapM site.resolveClosure)
        (other.resolveAll otherCode) := by
  have step : ∀ (first : List Instr) {rest : List Instr} {copy : Instr} {copies : List Instr},
      Agree (List.Forall₂ (Instr.Matches paired)) (first.mapM site.resolveClosure)
        (other.resolve copy) →
      Agree (List.Forall₂ (Instr.Matches paired)) (rest.mapM site.resolveClosure)
        (other.resolveAll copies) →
      Agree (List.Forall₂ (Instr.Matches paired)) ((first ++ rest).mapM site.resolveClosure)
        (other.resolveAll (copy :: copies)) := by
    intro first rest copy copies ofFirst ofRest
    rw [List.mapM_append, ← List.singleton_append, resolveAll_append, resolveAll_singleton]
    exact ofFirst.bind fun _ _ head => ofRest.bind fun _ _ tail => .ok (List.rel_append head tail)
  -- only the outermost constants are looked up at the site; what is inside them is in the table
  induction expansion with
  | nil =>
    intro _ _ otherCode rebinds
    cases rebinds
    exact .ok .nil
  | @keep instr rest result kept _ ih =>
    intro straight unbound otherCode rebinds
    cases rebinds with
    | cons head tail =>
      refine step [instr] ?_ (ih ?_ ?_ tail)
      · exact parallel.agree_kept bound expanded kept (straight instr List.mem_cons_self) head
      · exact fun other member => straight other (List.mem_cons_of_mem _ member)
      · exact fun other member => unbound other (List.mem_cons_of_mem _ member)
  | @inline instr name body inner rest result refers defined inside _ _ ihNext =>
    intro straight unbound otherCode rebinds
    cases rebinds with
    | cons head tail =>
      refine step _ ?_ (ihNext ?_ ?_ tail)
      · exact parallel.agree_inlined expanded refers
          (unbound instr List.mem_cons_self name refers (by rw [defined]; rfl)) defined inside head
      · exact fun other member => straight other (List.mem_cons_of_mem _ member)
      · exact fun other member => unbound other (List.mem_cons_of_mem _ member)

end Site.Parallel

/-! ## A constant is its initializer -/

/-- A name that code refers to is mentioned by the expression it comes from. -/
theorem Defines.mem_of_reference? {options : Options} {definitions : List (String × Expr)}
    {constants : Constants} (defines : Defines options definitions constants) {name : String}
    {value : Expr} (defined : definitions.lookup name = some value) {body : List Instr}
    (hasBody : constants.body? name = some body) {instr : Instr} (member : instr ∈ body)
    {mentioned : String} (refers : instr.reference? = some mentioned) :
    mentioned ∈ value.idents ++ value.callees := by
  obtain ⟨other, alsoDefined, mentions⟩ := defines.loads_iff hasBody
  rw [defined] at alsoDefined
  cases alsoDefined
  rw [List.mem_append, ← (mentions mentioned).1, ← (mentions mentioned).2]
  rcases Instr.opcode_of_reference? refers with isLoad | isClosure
  · exact .inl ⟨instr, member, isLoad, refers⟩
  · exact .inr ⟨instr, member, isClosure, refers⟩

/-- The load of a constant, and the code of its initializer in its place. -/
theorem Site.Parallel.agree_constant {options : Options} {program : Program}
    {object : ObjectProgram} {functions : List CompiledFunction}
    (assembled : Assembled options program.functions program.constants object functions)
    {paired : String → String → Prop} {site other : Site}
    (parallel : site.Parallel (· ∈ program.calls) paired other)
    (expanded : object.constants.expandAll = .ok site.constants) {params : List String}
    (bound : ∀ func ∈ params, site.scope.Binds func) {name : String} {value : Expr}
    (defined : program.constants.lookup name = some value) (unbound : ¬ site.scope.Binds name)
    (mentions : ∀ mentioned ∈ value.idents ++ value.callees,
      (program.constants.lookup mentioned).isSome → ¬ site.scope.Binds mentioned)
    {code : List Instr} (compiled : value.code options params = .ok code) :
    Agree (List.Forall₂ (Instr.Matches paired))
      (site.resolveAll [(Instr.ld name).commented name]) (other.resolveAll code) := by
  obtain ⟨outside, outsideOk, body, hasBody, same⟩ := assembled.constants.present name value defined
  -- the constant has the code of its initializer as it is outside of functions
  have rebinds : List.Forall₂ (Instr.Rebinds params) body code := by
    refine forall₂_trans ?_ (forall₂_of_map_eq same)
      (Agree.of_ok (Expr.agree_code_rebinds value) outsideOk compiled)
    rintro first second third sameFirst (sameSecond | ⟨func, isParam, isClosure, isLoad⟩)
    · exact .inl (sameSecond.trans sameFirst.symm)
    · exact .inr ⟨func, isParam, sameFirst.trans isClosure, isLoad⟩
  obtain ⟨result, known, expansion⟩ := Constants.body?_of_expandAll expanded hasBody
  have agree := parallel.agree_expansion bound expanded expansion
    (assembled.straight name body hasBody)
    (fun instr member mentioned refers isConstant => mentions mentioned
      (assembled.constants.mem_of_reference? defined hasBody member refers)
      ((assembled.constants.isSome_iff mentioned).mp isConstant)) rebinds
  have refers : ((Instr.ld name).commented name).reference? = some name := rfl
  rw [resolveAll_singleton]
  simp only [resolve, refers, Scope.address?_eq_none_iff.mpr unbound, known]
  rw [← bind_pure (other.resolveAll code)]
  exact agree.bind fun _ _ areMatches => .ok (List.forall₂_map_left_iff.mpr
    (areMatches.imp fun _ _ isMatch => isMatch.recommented rfl rfl))

namespace ProgramContext

variable {options : Options} {context : ProgramContext} {name : String} {value : Expr}

/-- In the function with the hole, the load of the constant is exchanged for the code of its
initializer. -/
def Exchanged (options : Options) (context : ProgramContext) (name : String) (value : Expr)
    (decl : FunctionDecl) (code other : List Instr) : Prop :=
  decl = context.decl (.ident name) ∧
    Expr.Exchanged options context.params (.ident name) (.paren value) code other

/-- No frame that the function with the hole finds hides the constant or a constant that the
initializer mentions. -/
def Visible (options : Options) (context : ProgramContext) (name : String) (value : Expr) : Prop :=
  ∀ main ∈ (context.fill (.ident name)).functions, main.name = options.entry →
    ¬ (framesOf (context.fill (.ident name)).functions main (context.decl (.ident name))).Binds
        name ∧
      ∀ mentioned ∈ value.idents ++ value.callees,
        ((context.fill (.ident name)).constants.lookup mentioned).isSome →
        ¬ (framesOf (context.fill (.ident name)).functions main
          (context.decl (.ident name))).Binds mentioned

theorem exchanges {object : ObjectProgram} {functions : List CompiledFunction}
    (assembled : Assembled options (context.fill (.ident name)).functions
      (context.fill (.ident name)).constants object functions)
    (defined : (context.fill (.ident name)).constants.lookup name = some value)
    (visible : context.Visible options name value) :
    Exchanges options (context.fill (.ident name)) object
      (context.Exchanged options name value) := by
  rintro main isMain isEntry _ isDecl code otherCode ⟨rfl, isCode, isOther⟩ paired site other
    parallel expanded sameScope
  obtain ⟨unbound, mentions⟩ := visible main isMain isEntry
  rw [← sameScope] at unbound mentions
  -- in the entry function a declaration may hide a parameter, but the name is in scope
  have bound : ∀ func ∈ context.params, site.scope.Binds func := by
    intro func isParam
    rw [sameScope]
    refine Scope.binds_of_mem_params (fun sameName => ?_) isParam
    exact List.inj_on_of_nodup_map assembled.nodup isDecl isMain sameName
  cases isCode
  rw [Expr.code] at isOther
  exact parallel.agree_constant assembled expanded bound defined unbound mentions isOther

/-- The functions of both programs correspond to each other. -/
theorem parallel_functions {object otherObject : ObjectProgram}
    {functions others : List CompiledFunction}
    (assembled : Assembled options (context.fill (.ident name)).functions
      (context.fill (.ident name)).constants object functions)
    (otherAssembled : Assembled options (context.fill (.paren value)).functions
      (context.fill (.paren value)).constants otherObject others) {first second : List Instr}
    (exchanged : Expr.Exchanged options context.params (.ident name) (.paren value) first second) :
    List.Forall₂ (CompiledFunction.Parallel (context.Exchanged options name value)) functions
      others := by
  have decls := context.forall₂_functions (.ident name) (.paren value)
  rw [← assembled.decls, ← otherAssembled.decls, List.forall₂_map_left_iff,
    List.forall₂_map_right_iff] at decls
  refine List.forall₂_iff_zip.mpr ⟨decls.length_eq, fun {function other} inBoth => ?_⟩
  obtain ⟨isFunction, isOther⟩ := List.of_mem_zip inBoth
  have functionOk := assembled.code function isFunction
  have otherOk := otherAssembled.code other isOther
  rcases (List.forall₂_iff_zip.mp decls).2 inBoth with same | ⟨isDecl, isOtherDecl⟩
  · rw [same, functionOk] at otherOk
    refine ⟨by rw [same], by rw [same], ?_⟩
    rw [← Except.ok.inj otherOk]
    exact FunctionDecl.varies_of_code functionOk _
  · rw [isDecl] at functionOk
    rw [isOtherDecl] at otherOk
    refine ⟨by rw [isDecl, isOtherDecl]; rfl, by rw [isDecl, isOtherDecl]; rfl, ?_⟩
    exact ((agree_code exchanged).of_ok functionOk otherOk).mono
      fun _ _ isExchanged => ⟨isDecl, isExchanged⟩

/-- A constant without code for its initializer is refused, whatever stands in the hole. -/
theorem code_of_object {filled : Expr} {object : ObjectProgram}
    (defined : (name, value) ∈ (context.fill filled).constants)
    (generated : (context.fill filled).object options = .ok object) :
    ∃ code, value.code options [] = .ok code := by
  obtain ⟨functions, assembled⟩ := Program.assembled_of_object generated
  obtain ⟨code, compiled, -⟩ :=
    assembled.constants.present name value (assembled.lookup_of_mem defined)
  exact ⟨code, compiled⟩

theorem agree_compile (dotFree : (context.fill (.ident name)).DotFree)
    (defined : (name, value) ∈ (context.fill (.ident name)).constants)
    (visible : context.Visible options name value) {outside : List Instr}
    (outsideOk : value.code options [] = .ok outside) :
    Agree Listing.SameCode (compile options (context.fill (.ident name)))
      (compile options (context.fill (.paren value))) := by
  obtain ⟨code, compiled⟩ := ((Expr.agree_code_rebinds value).exists_iff).mp ⟨outside, outsideOk⟩
  have exchanged : Expr.Exchanged options context.params (.ident name) (.paren value)
      [(Instr.ld name).commented name] code := ⟨rfl, by rw [Expr.code]; exact compiled⟩
  refine (agree_object exchanged dotFree.functions).bind_of_ok
    fun object otherObject generated otherGenerated parallel => ?_
  obtain ⟨functions, assembled⟩ := Program.assembled_of_object generated
  obtain ⟨others, otherAssembled⟩ := Program.assembled_of_object otherGenerated
  have inStep : InStep options (context.Exchanged options name value) (context.fill (.ident name))
      (context.fill (.paren value)) object otherObject functions others :=
    { assembled, otherAssembled, dotFree, name := parallel.name, constants := parallel.constants
      parallel := parallel_functions assembled otherAssembled exchanged
      exchanges := exchanges assembled (assembled.lookup_of_mem defined) visible }
  exact inStep.agree_link

end ProgramContext

/-- Where a constant is mentioned in a function, its initializer can be written in its place: the
program can be compiled with the one exactly where it can be compiled with the other, and the
listings differ in nothing but comments and the names of arms. -/
theorem constant_eq_initializer {options : Options} {context : ProgramContext} {name : String}
    {value : Expr} (dotFree : (context.fill (.ident name)).DotFree)
    (defined : (name, value) ∈ (context.fill (.ident name)).constants)
    (visible : context.Visible options name value) :
    ((∃ listing, compile options (context.fill (.ident name)) = .ok listing) ↔
      ∃ listing, compile options (context.fill (.paren value)) = .ok listing) ∧
    ∀ listing other, compile options (context.fill (.ident name)) = .ok listing →
      compile options (context.fill (.paren value)) = .ok other → listing.SameCode other := by
  cases outside : value.code options [] with
  | ok code =>
    have agree := ProgramContext.agree_compile dotFree defined visible outside
    exact ⟨agree.exists_iff, fun _ _ => agree.of_ok⟩
  | error error =>
    -- neither program gets as far as linking
    have refused : ∀ filled listing, compile options (context.fill filled) ≠ .ok listing := by
      intro filled listing compiled
      obtain ⟨object, generated, -⟩ := bind_eq_ok.mp compiled
      rw [context.constants_fill filled] at defined
      obtain ⟨code, compiled⟩ := ProgramContext.code_of_object defined generated
      rw [outside] at compiled
      cases compiled
    exact ⟨⟨fun ⟨listing, compiled⟩ => absurd compiled (refused _ listing),
      fun ⟨listing, compiled⟩ => absurd compiled (refused _ listing)⟩,
      fun listing _ compiled => absurd compiled (refused _ listing)⟩

/-- A function with a constant in an arm; the initializer of the constant calls what is a parameter
of the function and mentions another constant. -/
def scaled : ProgramContext where
  title := "scaled"
  before := [.consts ⟨["UNIT", "STEP"], .exprs [.int 3, .call "scale" [.ident "UNIT"]]⟩]
  name := "grow"
  params := ["scale", "n"]
  body := .inThen [] (.ident "n") (.inExpr [] (.left .add .hole (.ident "n")) [])
    (some [.expr (.int 0)]) []
  after := [
    .function ⟨"double", ["x"], [.retOne (.binary .add (.ident "x") (.ident "x"))]⟩,
    .function ⟨"main", ["n"], [.expr (.call "grow" [.ident "double", .ident "n"])]⟩]

theorem constant_eq_initializer_scaled :
    ∃ listing other, compile {} (scaled.fill (.ident "STEP")) = .ok listing ∧
      compile {} (scaled.fill (.paren (.call "scale" [.ident "UNIT"]))) = .ok other ∧
      listing.SameCode other := by
  have visible : scaled.Visible {} "STEP" (.call "scale" [.ident "UNIT"]) := by
    intro main isMain isEntry
    simp only [scaled, ProgramContext.fill, Program.functions, List.cons_append, List.nil_append,
      List.filterMap_cons, List.filterMap_nil, List.mem_cons, List.not_mem_nil, or_false] at isMain
    rcases isMain with rfl | rfl | rfl
    · exact absurd isEntry (by decide)
    · exact absurd isEntry (by decide)
    · simp [scaled, ProgramContext.fill, ProgramContext.decl, Program.functions, Program.constants,
        ConstGroup.definitions, framesOf, declarations, functionsExcept, Scope.Binds, Expr.idents,
        Expr.identsOfAll, Expr.mem_callees_call]
  have defined : ("STEP", .call "scale" [.ident "UNIT"]) ∈
      (scaled.fill (.ident "STEP")).constants := by
    simp [scaled, ProgramContext.fill, Program.constants, ConstGroup.definitions]
  obtain ⟨condition, same⟩ := constant_eq_initializer ⟨by decide, by decide⟩ defined visible
  obtain ⟨listing, compiled, -⟩ :=
    exists_ok_of_any (compile {} (scaled.fill (.ident "STEP"))) (fun _ => true) (by decide)
  obtain ⟨other, alsoCompiled⟩ := condition.mp ⟨listing, compiled⟩
  exact ⟨listing, other, compiled, alsoCompiled, same listing other compiled alsoCompiled⟩

end Secd
