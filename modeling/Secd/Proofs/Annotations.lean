import Secd.Proofs.Generation
import Secd.Proofs.Parameters

namespace Secd

open Results

/-! # What comments say of addresses

The comment of a load is written where its code is generated; its address is found when the block
is linked, and in between the load may have been copied into other constants and from there into the
block. That the two agree is kept along the way by `Instr.Labelled`: a load by name has this name as
its comment. Linking makes of such a load one whose comment names the slot that the address leads to
(`Site.addressed_of_resolve`), and the first slot of that name on the way outward
(`Scope.isNearest_of_address?`).

`annotations_truthful` says so of every load of a listing, and of the closures of the preamble.
-/

/-! ## Loads by name -/

/-- A load of a variable is a load by name, and a load by name has this name as its comment. An
empty comment is none, so nothing is said of the empty name. -/
structure Instr.Labelled (instr : Instr) : Prop where
  symbolic : instr.opcode = .ld → ∃ name, instr.reference? = some name
  comment : ∀ name, instr.reference? = some name → name ≠ "" → instr.comment = some name

namespace Instr.Labelled

variable {instr : Instr}

/-- Instructions that load neither a variable nor a closure. -/
theorem of_opcode (opcode : Opcode) (isOpcode : instr.opcode = opcode)
    (noLoad : opcode ≠ .ld ∧ opcode ≠ .ldf) : instr.Labelled where
  symbolic := fun isLoad => absurd (isOpcode.symm.trans isLoad) noLoad.1
  comment := by
    intro name refers
    rcases opcode_of_reference? refers with isLoad | isClosure
    · exact absurd (isOpcode.symm.trans isLoad) noLoad.1
    · exact absurd (isOpcode.symm.trans isClosure) noLoad.2

theorem of_fixed (fixed : Fixed instr) : instr.Labelled := by
  cases fixed with
  | number value comment => exact of_opcode .ldc rfl (by decide)
  | operation computes comment =>
    refine of_opcode _ rfl ⟨?_, ?_⟩
    · rintro rfl
      cases computes
    · rintro rfl
      cases computes

theorem load (name : String) : ((Instr.ld name).commented name).Labelled where
  symbolic := fun _ => ⟨name, rfl⟩
  comment := by
    rintro _ ⟨rfl⟩ nonempty
    rw [commented_of_ne_empty _ nonempty]

theorem closure (name : String) : ((Instr.ldf name).commented name).Labelled where
  symbolic := by
    intro isLoad
    cases isLoad
  comment := by
    rintro _ ⟨rfl⟩ nonempty
    rw [commented_of_ne_empty _ nonempty]

theorem orCommented (labelled : instr.Labelled) (comment : Option String) :
    (instr.orCommented comment).Labelled where
  symbolic := labelled.symbolic
  comment := by
    intro name refers nonempty
    have own := labelled.comment name refers nonempty
    simp [Instr.orCommented, own]

end Instr.Labelled

/-! ## Generated code -/

theorem Expr.labelled_of_code {options : Options} {params : List String} {expr : Expr} :
    ∀ {code : List Instr}, expr.code options params = .ok code →
      ∀ instr ∈ code, instr.Labelled := by
  induction expr using Expr.induct with
  | literal value =>
    intro code compiled instr member
    cases value <;> simp only [Expr.code, Except.ok.injEq] at compiled <;> subst compiled <;>
      rw [List.mem_singleton] at member <;> subst member <;> exact .of_opcode .ldc rfl (by decide)
  | ident name =>
    intro code compiled instr member
    simp only [Expr.code, Except.ok.injEq] at compiled
    subst compiled
    rw [List.mem_singleton.mp member]
    exact .load name
  | binary op lhs rhs ihLeft ihRight =>
    intro code compiled instr member
    obtain ⟨tail, left, right, known, leftOk, rightOk, rfl⟩ := code_binary_eq_ok.mp compiled
    have operand : instr ∈ left ∨ instr ∈ right ∨ instr ∈ tail := by
      split at member <;> simp only [List.mem_append] at member <;> tauto
    rcases operand with inLeft | inRight | inTail
    · exact ihLeft leftOk instr inLeft
    · exact ihRight rightOk instr inRight
    · exact .of_fixed (BinaryOp.fixed_of_tail? known instr inTail)
  | call func args ih =>
    intro code compiled instr member
    obtain ⟨argCode, argsOk, shape⟩ := code_call_eq_ok compiled
    obtain ⟨parts, partCodes, rfl⟩ := codes_eq_ok.mp argsOk
    have arguments := forall_mem_flatten partCodes ih
    rcases shape with ⟨primitive, found, -, rfl⟩ | ⟨-, rfl⟩
    · rcases List.mem_append.mp member with inArgs | isLast
      · exact arguments instr inArgs
      · rw [List.mem_singleton.mp isLast]
        exact .of_fixed (.plain (Primitive.isOperation_of_find? found))
    · rcases List.mem_append.mp member with inArgs | isLast
      · exact arguments instr inArgs
      · simp only [applyNamed, List.mem_cons, List.not_mem_nil, or_false] at isLast
        rcases isLast with rfl | rfl
        · split
          · exact .load func
          · exact .closure func
        · exact .of_opcode .ap rfl (by decide)
  | composite kind elems ih =>
    intro code compiled instr member
    obtain ⟨-, elemCode, elemsOk, rfl⟩ := code_composite_eq_ok compiled
    obtain ⟨parts, partCodes, rfl⟩ := codes_eq_ok.mp elemsOk
    rcases List.mem_append.mp member with inElems | isLast
    · exact forall_mem_flatten partCodes ih instr inElems
    · exact .of_fixed (fixed_of_chainElements _ instr isLast)
  | paren inner ih =>
    intro code compiled instr member
    rw [Expr.code] at compiled
    exact ih compiled instr member

/-- What holds of the code of their expressions, of branches and of `JOIN` holds of the code of
statements and of its arms. -/
theorem Yields.forall_mem {options : Options} {params : List String} {block : String}
    {position : Nat} {stmts : List Stmt} {fragment : Fragment} {holds : Instr → Prop}
    (yields : Yields options params block position stmts fragment)
    (ofBranch : ∀ block position, holds (branch block position)) (ofJoin : holds (.plain .join)) :
    (∀ expr ∈ Stmt.exprsOfAll stmts, ∀ {code : List Instr}, expr.code options params = .ok code →
      ∀ instr ∈ code, holds instr) →
    (∀ instr ∈ fragment.instrs, holds instr) ∧
      ∀ scope base, ∀ arm ∈ fragment.arms.place scope base, ∀ instr ∈ arm.instrs, holds instr := by
  induction yields with
  | nil block position => simp [Forest.place]
  | expr compiled _ ih
  | ret compiled _ ih =>
    intro ofCode
    obtain ⟨ofTail, ofArms⟩ := ih fun expr member => ofCode expr (List.mem_cons_of_mem _ member)
    exact ⟨List.forall_mem_append.mpr ⟨ofCode _ List.mem_cons_self compiled, ofTail⟩, ofArms⟩
  | retNothing _ ih => exact ih
  | ifElse compiled _ _ _ ihThen ihElse ihNext =>
    intro ofCode
    simp only [Stmt.exprsOfAll, Stmt.exprs, Stmt.exprsOfArm_eq, List.cons_append,
      List.append_assoc] at ofCode
    obtain ⟨ofThen, ofThenArms⟩ := ihThen fun expr member => ofCode expr (by simp [member])
    obtain ⟨ofElse, ofElseArms⟩ := ihElse fun expr member => ofCode expr (by simp [member])
    obtain ⟨ofTail, ofTailArms⟩ := ihNext fun expr member => ofCode expr (by simp [member])
    have ofArm : ∀ {code : List Instr}, (∀ instr ∈ code, holds instr) →
        ∀ instr ∈ code ++ [Instr.plain .join], holds instr := by
      intro code ofCode
      simpa [or_imp, forall_and] using ⟨ofCode, ofJoin⟩
    constructor
    · rw [Fragment.instrs_append, conditional_instrs]
      refine List.forall_mem_append.mpr ⟨List.forall_mem_append.mpr
        ⟨ofCode _ List.mem_cons_self compiled, ?_⟩, ofTail⟩
      simpa using ofBranch _ _
    · intro scope base arm isArm
      simp only [Fragment.arms_append, conditional_arms, Forest.node_append, Forest.nil_append,
        Forest.place, List.mem_cons, List.mem_append] at isArm
      rcases isArm with rfl | inThen | rfl | inElse | inTail
      · exact ofArm ofThen
      · exact ofThenArms _ _ arm inThen
      · exact ofArm ofElse
      · exact ofElseArms _ _ arm inElse
      · exact ofTailArms _ _ arm inTail

theorem CompiledFunction.labelled {options : Options} {function : CompiledFunction}
    (compiled : function.decl.code options = .ok function.code) (id : Nat) :
    ∀ block ∈ function.blocks id, ∀ instr ∈ block.instrs, instr.Labelled := by
  obtain ⟨body, yields, instrs, arms⟩ := FunctionDecl.yields_of_code compiled
  obtain ⟨ofBody, ofArms⟩ := yields.forall_mem (fun _ _ => .of_opcode .sel rfl (by decide))
    (.of_opcode .join rfl (by decide)) fun _ _ => Expr.labelled_of_code
  refine List.forall_mem_cons.mpr ⟨?_, ?_⟩
  · show ∀ instr ∈ function.code.instrs, instr.Labelled
    rw [instrs]
    refine List.forall_mem_append.mpr ⟨ofBody, fun instr isLast => ?_⟩
    rw [List.mem_singleton.mp isLast]
    exact .of_opcode .rtn rfl (by decide)
  · rw [arms]
    exact ofArms id (id + 1)

/-! ## Constants -/

theorem Constants.mem_of_body?_insertAll {entries : List (String × List Instr)} :
    ∀ {constants : Constants} {name : String} {body : List Instr},
      (constants.insertAll entries).body? name = some body →
      (name, body) ∈ entries ∨ constants.body? name = some body := by
  induction entries with
  | nil => exact fun found => .inr found
  | cons entry rest ih =>
    intro constants name body found
    rcases ih found with inRest | before
    · exact .inl (List.mem_cons_of_mem _ inRest)
    · rw [body?_insert] at before
      split at before
      · rename_i isName
        cases before
        exact .inl (isName ▸ List.mem_cons_self)
      · exact .inr before

theorem ConstGroup.labelled_entries (options : Options) (group : ConstGroup) :
    ∀ entry ∈ group.entries options, ∀ instr ∈ entry.2, instr.Labelled := by
  intro entry member
  unfold entries at member
  cases isValue : group.values with
  | ordinals =>
    simp only [isValue] at member
    obtain ⟨⟨name, ordinal⟩, -, rfl⟩ := List.mem_map.mp member
    intro instr isInstr
    rw [List.mem_singleton.mp isInstr]
    exact .of_opcode .ldc rfl (by decide)
  | exprs values =>
    simp only [isValue] at member
    obtain ⟨⟨name, value⟩, -, rfl⟩ := List.mem_map.mp member
    intro instr isInstr
    obtain ⟨original, isOriginal, rfl⟩ := List.mem_map.mp isInstr
    cases compiled : value.code options [] with
    | error _ => simp [compiled, Except.toOption] at isOriginal
    | ok code =>
      simp only [compiled, Except.toOption, Option.getD_some] at isOriginal
      exact (Expr.labelled_of_code compiled original isOriginal).orCommented _

theorem Program.labelled_constants {options : Options} {program : Program}
    (dotFree : program.DotFree) {object : ObjectProgram}
    (generated : program.object options = .ok object) :
    ∀ name body, object.constants.body? name = some body → ∀ instr ∈ body, instr.Labelled := by
  intro name body hasBody
  rw [(Program.constants_of_object dotFree.functions generated).2] at hasBody
  rcases Constants.mem_of_body?_insertAll hasBody with isEntry | nothing
  · obtain ⟨decl, isDecl, inGroup⟩ := List.mem_flatMap.mp isEntry
    cases decl with
    | function _ => cases inGroup
    | consts group => exact group.labelled_entries options (name, body) inGroup
  · cases nothing

/-- What is left of a constant when it is expanded: no load of a variable, and closures with their
names as comments. -/
theorem Program.labelled_of_expandAll {options : Options} {program : Program}
    (dotFree : program.DotFree) {object : ObjectProgram}
    (generated : program.object options = .ok object) {table : Constants}
    (expanded : object.constants.expandAll = .ok table) :
    ∀ name result, table.body? name = some result →
      ∀ instr ∈ result, instr.Labelled ∧ instr.opcode ≠ .ld := by
  intro name result known instr member
  obtain ⟨body, hasBody, expansion⟩ := Constants.exists_of_expandAll expanded known
  have ofConstants := Program.labelled_constants dotFree generated
  have labelled := expansion.forall_mem Instr.Labelled
    (fun _ comment each => each.orCommented comment) ofConstants (ofConstants name body hasBody) instr
    member
  -- a load of a variable in a constant would have been replaced or refused
  refine ⟨labelled, fun isLoad => ?_⟩
  obtain ⟨read, refers⟩ := labelled.symbolic isLoad
  rw [(expansion.reference_of_mem instr member read refers).2] at isLoad
  cases isLoad

/-! ## Linked loads -/

/-- The instruction loads the variable that its comment names. -/
def Instr.Addressed (scope : Scope) (instr : Instr) : Prop :=
  ∃ name address, scope.address? name = some address ∧
    instr.uncommented = .ldAddress address ∧ (name ≠ "" → instr.comment = some name)

namespace Site

variable {site : Site} {instr out : Instr}

theorem addressed_loadVariable (labelled : instr.Labelled) {name : String} {address : Address}
    (refers : instr.reference? = some name) (found : site.scope.address? name = some address) :
    (loadVariable instr address).Addressed site.scope :=
  ⟨name, address, found, rfl, labelled.comment name refers⟩

/-- A closure is kept or becomes a load of the variable of that name. -/
theorem resolveClosure_cases (resolved : site.resolveClosure instr = .ok out) :
    out = instr ∨ ∃ name address, instr.reference? = some name ∧
      site.scope.address? name = some address ∧ out = loadVariable instr address := by
  unfold resolveClosure at resolved
  split at resolved
  · rename_i name isClosure isSymbol
    split at resolved
    · rename_i address found
      cases resolved
      exact .inr ⟨name, address, by simp [Instr.reference?, isClosure, isSymbol], found, rfl⟩
    · split at resolved
      · cases resolved
      · cases resolved
        exact .inl rfl
  · cases resolved
    exact .inl rfl

theorem addressed_of_resolveClosure (labelled : instr.Labelled) (noLoad : instr.opcode ≠ .ld)
    (resolved : site.resolveClosure instr = .ok out) (isLoad : out.opcode = .ld) :
    out.Addressed site.scope := by
  rcases resolveClosure_cases resolved with rfl | ⟨name, address, refers, found, rfl⟩
  · exact absurd isLoad noLoad
  · exact addressed_loadVariable labelled refers found

/-- Every load that linking leaves in a block has an address and the name that it belongs to. -/
theorem addressed_of_resolve (labelled : instr.Labelled)
    (ofTable : ∀ name body, site.constants.body? name = some body →
      ∀ spliced ∈ body, spliced.Labelled ∧ spliced.opcode ≠ .ld)
    {outs : List Instr} (resolved : site.resolve instr = .ok outs) :
    ∀ out ∈ outs, out.opcode = .ld → out.Addressed site.scope := by
  intro out member isLoad
  unfold resolve at resolved
  split at resolved
  · rename_i noName
    cases resolved
    rw [List.mem_singleton.mp member] at isLoad
    obtain ⟨name, refers⟩ := labelled.symbolic isLoad
    rw [noName] at refers
    cases refers
  · rename_i name refers
    split at resolved
    · rename_i address found
      cases resolved
      rw [List.mem_singleton.mp member]
      exact addressed_loadVariable labelled refers found
    · split at resolved
      · -- the comment of the reference does not replace one that is there
        rename_i body hasBody
        obtain ⟨closures, closuresOk, rfl⟩ := by
          simpa only [bind_eq_ok, pure_eq_ok] using resolved
        obtain ⟨closure, isClosure, rfl⟩ := List.mem_map.mp member
        obtain ⟨spliced, isSpliced, closed⟩ :=
          exists_of_mem_right (mapM_eq_ok.mp closuresOk) isClosure
        obtain ⟨ofSpliced, noLoad⟩ := ofTable name body hasBody spliced isSpliced
        obtain ⟨read, address, found, loads, comment⟩ :=
          addressed_of_resolveClosure ofSpliced noLoad closed isLoad
        refine ⟨read, address, found, loads, fun nonempty => ?_⟩
        simp [Instr.orCommented, comment nonempty]
      · split at resolved
        · rename_i isClosure
          obtain ⟨closure, closed, rfl⟩ := by
            simpa only [bind_eq_ok, pure_eq_ok] using resolved
          rw [List.mem_singleton.mp member] at isLoad ⊢
          exact addressed_of_resolveClosure labelled (by simp [isClosure]) closed isLoad
        · cases resolved

end Site

/-- Where comments are kept, placing a block leaves its loads as they are. -/
theorem LinksBlock.addressed {options : Options} (keeps : options.comments = true)
    {object : ObjectProgram} {table : Constants} {blocks : List PlacedBlock} {site : Scope × Block}
    {placed : PlacedBlock} (links : LinksBlock options object table blocks site placed)
    (ofBlock : ∀ instr ∈ site.2.instrs, instr.Labelled)
    (ofTable : ∀ name body, table.body? name = some body →
      ∀ spliced ∈ body, spliced.Labelled ∧ spliced.opcode ≠ .ld) :
    ∀ instr ∈ placed.instrs, instr.opcode = .ld → instr.Addressed site.1 := by
  obtain ⟨-, middle, resolved, patched⟩ := links
  obtain ⟨parts, partsOk, rfl⟩ := by
    simpa only [Site.resolveAll, bind_eq_ok, pure_eq_ok] using resolved
  intro instr member isLoad
  obtain ⟨loose, isLoose, patchedTo⟩ := exists_of_mem_right (mapM_eq_ok.mp patched) member
  obtain ⟨args, argsOk, rfl⟩ := Instr.patch_eq_ok.mp patchedTo
  obtain ⟨part, isPart, inPart⟩ := List.mem_flatten.mp isLoose
  obtain ⟨source, isSource, resolvedTo⟩ := exists_of_mem_right (mapM_eq_ok.mp partsOk) isPart
  obtain ⟨name, address, found, loads, comment⟩ :=
    Site.addressed_of_resolve (ofBlock source isSource) ofTable resolvedTo loose inPart isLoad
  have noBlocks : loose.opcode.takesBlocks = false := by
    rw [show loose.opcode = .ld from isLoad]
    rfl
  simp only [Instr.patchArgs, noBlocks, Bool.false_eq_true, if_false, Except.ok.injEq] at argsOk
  subst argsOk
  refine ⟨name, address, found, loads, fun nonempty => ?_⟩
  simpa [keeps] using comment nonempty

/-! ## The nearest slot of a name -/

/-- The slot has this name, and neither a nearer frame nor an earlier slot of its frame has it. -/
structure Scope.IsNearest (scope : Scope) (name : String) (depth index : Nat) : Prop where
  slot : ∃ frame, scope[depth]? = some frame ∧ frame[index]? = some name ∧
    name ∉ frame.take index
  nearer : ∀ frame ∈ scope.take depth, name ∉ frame

theorem Scope.isNearest_of_address? {name : String} : ∀ {scope : Scope} {address : Address},
    scope.address? name = some address → scope.IsNearest name address.depth address.index
  | frame :: outer, address, found => by
    cases inFrame : frame.idxOf? name with
    | some index =>
      rw [Scope.address?_cons_of_some outer inFrame] at found
      cases found
      obtain ⟨bound, isName, first⟩ := List.idxOf?_eq_some_iff.mp inFrame
      have atIndex := List.getElem?_eq_some_iff.mpr ⟨bound, isName⟩
      refine ⟨⟨frame, rfl, atIndex, fun earlier => ?_⟩, by simp⟩
      obtain ⟨before, beforeBound, sameName⟩ := List.mem_take_iff_getElem.mp earlier
      exact first before (Nat.lt_of_lt_of_le beforeBound (Nat.min_le_left _ _)) sameName
    | none =>
      rw [Scope.address?_cons_of_none outer inFrame, Option.map_eq_some_iff] at found
      obtain ⟨further, isFurther, rfl⟩ := found
      obtain ⟨slot, nearer⟩ := isNearest_of_address? isFurther
      refine ⟨slot, ?_⟩
      exact List.forall_mem_cons.mpr ⟨List.idxOf?_eq_none_iff.mp inFrame, nearer⟩

/-! ## Listings -/

/-- No function and no parameter has the empty name. -/
structure Program.Named (program : Program) : Prop where
  functions : ∀ decl ∈ program.functions, decl.name ≠ ""
  params : ∀ decl ∈ program.functions, ∀ param ∈ decl.params, param ≠ ""

theorem Program.Named.of_mem_framesOf {program : Program} (named : program.Named)
    {main decl : FunctionDecl} (isMain : main ∈ program.functions)
    (isDecl : decl ∈ program.functions) :
    ∀ frame ∈ framesOf program.functions main decl, ∀ name ∈ frame, name ≠ "" := by
  have declared : ∀ name ∈ declarations program.functions main.name, name ≠ "" := by
    intro name member
    obtain ⟨other, isOther, rfl⟩ := List.mem_map.mp member
    exact named.functions other (List.mem_filter.mp isOther).1
  have ofMain := named.params main isMain
  have ofDecl := named.params decl isDecl
  intro frame member
  unfold framesOf at member
  split at member <;> simp only [List.mem_cons, List.not_mem_nil, or_false] at member
  · rcases member with rfl | rfl <;> assumption
  · rcases member with rfl | rfl | rfl <;> assumption

namespace Image

variable {options : Options} {program : Program} {listing : Listing} {main : Routine}
  {others : List Routine} {depth : Nat}

/-- The loads in the blocks of a function, in the scope of that function. -/
theorem addressed (image : Image options program listing main others depth)
    (keeps : options.comments = true) {object : ObjectProgram}
    (generated : program.object options = .ok object) {functions : List CompiledFunction} {id : Nat}
    {entry : CompiledFunction} {table : Constants}
    (linked : Linked options program object functions id entry table listing) {routine : Routine}
    (isRoutine : routine ∈ main :: others) {block : PlacedBlock}
    (isBlock : block ∈ routine.blocks) :
    ∀ instr ∈ block.instrs, instr.opcode = .ld →
      instr.Addressed (framesOf program.functions main.decl routine.decl) := by
  obtain ⟨site, isSite, links⟩ :=
    exists_of_mem_right linked.blocks (image.mem_blocks isRoutine isBlock)
  obtain ⟨⟨number, function⟩, isNumbered, inFunction⟩ := List.mem_flatMap.mp isSite
  obtain ⟨source, isSource, rfl⟩ := List.mem_map.mp inFunction
  have isFunction : function ∈ functions :=
    linked.order_perm.mem_iff.mp (List.mem_map_of_mem (f := Prod.snd) isNumbered)
  have compiled := linked.assembled.code function isFunction
  -- the name of the block tells which function it belongs to
  have sameDecl : function.decl = routine.decl := by
    have isDecl := linked.assembled.mem_sources isFunction
    have underFunction : Under function.decl.name block.name := by
      refine CompiledFunction.under_of_mem_names compiled ?_
      rw [links.1, ← function.map_name_blocks number]
      exact List.mem_map_of_mem isSource
    refine List.inj_on_of_nodup_map image.nodupFunctions isDecl (image.decl_mem isRoutine) ?_
    exact eq_of_under (linked.dotFree.functions _ isDecl)
      (linked.dotFree.functions _ (image.decl_mem isRoutine)) underFunction
      (image.under_of_mem isRoutine isBlock)
  have sameMain : entry.decl = main.decl := by
    refine List.inj_on_of_nodup_map image.nodupFunctions linked.main_mem image.isFunction ?_
    rw [linked.isEntry, image.isEntry]
  have ofBlock := links.addressed keeps (CompiledFunction.labelled compiled number source isSource)
    (Program.labelled_of_expandAll linked.dotFree generated linked.expanded)
  rwa [sameDecl, sameMain] at ofBlock

end Image

/-! ## The preamble -/

/-- The closure of a function, with a comment that names it. -/
def Routine.load (routine : Routine) : Instr :=
  (Instr.ldfOffset routine.body.offset).commented ("load " ++ routine.decl.name)

/-- The instructions at address zero with their comments. -/
def annotatedStart (main : Routine) (others : List Routine) : List Instr :=
  if others.isEmpty then [main.load, .ap 0, .plain .rtn]
  else (Instr.dum others.length).commented "top-level declarations" :: others.map Routine.load ++
    [main.load, .rap others.length, .plain .rtn]

/-- Instructions are the same if they are so without comments and have the same comments. -/
theorem eq_of_comments {first second : List Instr}
    (sameCode : first.map Instr.uncommented = second.map Instr.uncommented)
    (sameComments : first.map Instr.comment = second.map Instr.comment) : first = second := by
  induction first generalizing second with
  | nil => simpa using sameCode.symm
  | cons instr rest ih =>
    obtain ⟨other, others, rfl, sameInstr, sameRest⟩ := List.map_eq_cons_iff.mp sameCode.symm
    simp only [List.map_cons, List.cons.injEq] at sameComments
    rw [ih sameRest.symm sameComments.2]
    obtain ⟨opcode, args, comment⟩ := instr
    obtain ⟨otherOpcode, otherArgs, otherComment⟩ := other
    simp only [Instr.uncommented, Instr.mk.injEq, and_true] at sameInstr sameComments
    rw [sameInstr.1, sameInstr.2, sameComments.1]

theorem Routine.load_eq (routine : Routine) :
    routine.load = ⟨.ldf, [.offset routine.body.offset], some ("load " ++ routine.decl.name)⟩ :=
  Instr.commented_of_ne_empty _ (by simp)

namespace Image

variable {options : Options} {program : Program} {listing : Listing} {main : Routine}
  {others : List Routine} {depth : Nat}

theorem preamble_eq (image : Image options program listing main others depth)
    (keeps : options.comments = true)
    (patched : (Secd.preamble options.entry (declarations program.functions options.entry)).mapM
      (Instr.patch options listing.blocks "preamble") = .ok listing.preamble) :
    listing.preamble = annotatedStart main others := by
  -- the code is known from the image, and patching leaves comments alone
  refine eq_of_comments ?_ ?_
  · rw [image.start]
    unfold startCode annotatedStart
    cases others with
    | nil => rfl
    | cons other rest =>
      simp [Function.comp_def, Routine.load_eq, Instr.uncommented, Instr.commented, Instr.ldfOffset,
        Instr.dum, Instr.rap, Instr.plain]
  · have kept : listing.preamble.map Instr.comment =
        (Secd.preamble options.entry (declarations program.functions options.entry)).map
          Instr.comment := by
      refine map_eq_map_of_forall₂ (mapM_eq_ok.mp patched) fun instr result patchedTo => ?_
      obtain ⟨args, -, rfl⟩ := Instr.patch_eq_ok.mp patchedTo
      simp [keeps]
    rw [kept, ← image.isEntry, image.declarations_eq]
    unfold Secd.preamble annotatedStart
    cases others with
    | nil => rfl
    | cons other rest =>
      simp [Function.comp_def, Routine.load, Instr.commented, Instr.rap, Instr.plain]

/-- Every closure of the preamble is that of a function, and its comment says of which. -/
theorem target_of_mem_annotatedStart (image : Image options program listing main others depth)
    {instr : Instr} (member : instr ∈ annotatedStart main others)
    (isClosure : instr.opcode = .ldf) :
    ∃ decl ∈ program.functions, ∃ offset, listing.offset? decl.name = some offset ∧
      instr = ⟨.ldf, [.offset offset], some ("load " ++ decl.name)⟩ := by
  have isLoad : ∃ routine ∈ main :: others, instr = routine.load := by
    unfold annotatedStart at member
    split at member
    · simp only [List.mem_cons, List.not_mem_nil, or_false] at member
      rcases member with rfl | rfl | rfl
      · exact ⟨main, List.mem_cons_self, rfl⟩
      · cases isClosure
      · cases isClosure
    · simp only [List.cons_append, List.mem_cons, List.mem_append, List.mem_map, List.not_mem_nil,
        or_false] at member
      rcases member with rfl | ⟨routine, isOther, rfl⟩ | rfl | rfl | rfl
      · cases isClosure
      · exact ⟨routine, List.mem_cons_of_mem _ isOther, rfl⟩
      · exact ⟨main, List.mem_cons_self, rfl⟩
      · cases isClosure
      · cases isClosure
  obtain ⟨routine, isRoutine, rfl⟩ := isLoad
  exact ⟨routine.decl, image.decl_mem isRoutine, routine.body.offset, image.offset?_eq isRoutine,
    routine.load_eq⟩

end Image

/-- Where comments are kept they are true: the comment of every load names the slot that is loaded,
which is the first of that name from the nearest frame outward. The preamble opens a frame for the
functions other than the entry function, makes their closures in declaration order and then that of
the entry function, and the comment of each closure names the function at whose offset its code
is. -/
theorem annotations_truthful {options : Options} {program : Program} {listing : Listing}
    (named : program.Named) (countable : program.Countable) (dotFree : program.DotFree)
    (keeps : options.comments = true) (compiled : compile options program = .ok listing) :
    ∃ main others depth, Image options program listing main others depth ∧
      (∀ routine ∈ main :: others, ∀ block ∈ routine.blocks, ∀ instr ∈ block.instrs,
        instr.opcode = .ld → ∃ name depth index, instr.comment = some name ∧
          instr.LoadsSlot depth index ∧
          (framesOf program.functions main.decl routine.decl).IsNearest name depth index) ∧
      listing.preamble = annotatedStart main others ∧
      (Int64.ofNat others.length).toInt = others.length ∧
      ∀ instr ∈ listing.preamble, instr.opcode = .ldf →
        ∃ decl ∈ program.functions, ∃ offset, listing.offset? decl.name = some offset ∧
          instr = ⟨.ldf, [.offset offset], some ("load " ++ decl.name)⟩ := by
  obtain ⟨object, generated, isLinked⟩ := bind_eq_ok.mp compiled
  obtain ⟨functions, id, entry, table, linked⟩ := Linked.of_link dotFree generated isLinked
  obtain ⟨main, others, depth, image⟩ := Image.of_compile dotFree compiled
  have start := image.preamble_eq keeps linked.preamble
  refine ⟨main, others, depth, image, ?_, start, ?_, ?_⟩
  · intro routine isRoutine block isBlock instr member isLoad
    obtain ⟨name, address, found, loads, comment⟩ :=
      image.addressed keeps generated linked isRoutine isBlock instr member isLoad
    obtain ⟨depthSmall, indexSmall⟩ :=
      countable.addressable image.isFunction (image.decl_mem isRoutine) name address found
    -- whatever is found has the name of a function or of a parameter, so it has a comment
    have nearest := Scope.isNearest_of_address? found
    obtain ⟨frame, isFrame, isName, -⟩ := nearest.slot
    have nonempty : name ≠ "" := named.of_mem_framesOf image.isFunction (image.decl_mem isRoutine)
      frame (List.mem_of_getElem? isFrame) name (List.mem_of_getElem? isName)
    exact ⟨name, address.depth, address.index, comment nonempty,
      Instr.loadsSlot_of_ldAddress loads depthSmall indexSmall, nearest⟩
  · exact Int64.toInt_ofNat_of_lt (image.length_others_lt countable)
  · intro instr member
    rw [start] at member
    exact image.target_of_mem_annotatedStart member

/-- A constant that calls a function, mentioned in an arm and in the function itself. -/
def splicedCall : Program where
  name := "spliced"
  decls := [
    .consts ⟨["K"], .exprs [.call "next" [.int 1]]⟩,
    .function ⟨"next", ["n"], [.ifElse (.ident "n") [.expr (.ident "K")] none]⟩,
    .function ⟨"main", ["n"], [.ifElse (.ident "n") [.expr (.ident "K")]
      (some [.expr (.ident "n")])]⟩]

theorem splicedCall_truthful :
    ∃ listing, compile {} splicedCall = .ok listing ∧
      (⟨.ld, [.count 1, .count 0], some "next"⟩ : Instr) ∈ listing.instructions ∧
      ∃ main others depth, Image {} splicedCall listing main others depth ∧
        ∀ routine ∈ main :: others, ∀ block ∈ routine.blocks, ∀ instr ∈ block.instrs,
          instr.opcode = .ld → ∃ name depth index, instr.comment = some name ∧
            instr.LoadsSlot depth index ∧
            (framesOf splicedCall.functions main.decl routine.decl).IsNearest name depth index := by
  obtain ⟨listing, compiled, holds⟩ := exists_ok_of_any (compile {} splicedCall)
    (fun listing =>
      (⟨.ld, [.count 1, .count 0], some "next"⟩ : Instr) ∈ listing.instructions) (by decide)
  obtain ⟨main, others, depth, image, loads, -⟩ := annotations_truthful ⟨by decide, by decide⟩
    ⟨by decide, by decide, by decide⟩ ⟨by decide, by decide⟩ rfl compiled
  exact ⟨listing, compiled, of_decide_eq_true holds, main, others, depth, image, loads⟩

end Secd
