import Secd.Proofs.Acceptance
import Secd.Proofs.Annotations
import Secd.Proofs.DeclarationOrder
import Secd.Proofs.Inlining
import Secd.Proofs.ShiftedLayout

namespace Secd

open Results

/-! # Unrelated declarations

A declaration at the end of a program, of names that the program does not mention, changes nothing
in what is there. Everything that code of the program refers to is mentioned by one of its
expressions (`Assembled.mentioned_of_block`, `Assembled.mentioned_of_constant`), and such names mean
the same as before (`Site.SameOn`): a new slot comes behind the others, new constants are not
referred to. So names of blocks are resolved as before. A group of constants leaves the whole
listing as it is; a function makes the preamble longer and comes last, and all other blocks move
back together (`compile_extended`).
-/

/-! ## Names that a program mentions -/

/-- The names that the expressions of a program read or call, primitives apart. -/
def Program.mentioned (program : Program) : List String :=
  program.exprs.flatMap fun expr => expr.idents ++ expr.callees

/-- Code refers to names that its expression mentions. -/
theorem Expr.refersWithin_of_code {options : Options} {params : List String} {expr : Expr}
    {code : List Instr} (compiled : expr.code options params = .ok code) :
    ∀ instr ∈ code, instr.RefersWithin (· ∈ expr.idents ++ expr.callees) := by
  intro instr member name refers
  -- outside of functions it refers to the same names
  have agree : Agree (List.Forall₂ (Instr.Rebinds params)) (expr.code options [])
    (expr.code options params) := expr.agree_code_rebinds
  obtain ⟨outside, outsideOk⟩ := agree.exists_iff.mpr ⟨code, compiled⟩
  obtain ⟨other, isOther, rebinds⟩ :=
    exists_of_mem_right (agree.of_ok outsideOk compiled) member
  rw [rebinds.reference?_eq] at refers
  rw [List.mem_append, ← (loads_iff outsideOk).1, ← (loads_iff outsideOk).2]
  exact (Instr.opcode_of_reference? refers).imp (fun isLoad => ⟨other, isOther, isLoad, refers⟩)
    fun isClosure => ⟨other, isOther, isClosure, refers⟩

namespace Assembled

variable {options : Options} {program : Program} {object : ObjectProgram}
  {functions : List CompiledFunction}

theorem mentioned_of_block
    (assembled : Assembled options program.functions program.constants object functions) :
    ∀ block ∈ object.blocks, ∀ instr ∈ block.instrs,
      instr.RefersWithin (· ∈ program.mentioned) := by
  intro block isBlock
  rw [assembled.blocks] at isBlock
  obtain ⟨⟨id, function⟩, isNumbered, inFunction⟩ := List.mem_flatMap.mp isBlock
  have isFunction := CompiledFunction.mem_of_mem_number isNumbered
  obtain ⟨body, yields, instrs, arms⟩ :=
    FunctionDecl.yields_of_code (assembled.code function isFunction)
  have ofCode : ∀ expr ∈ Stmt.exprsOfAll function.decl.body, ∀ {code : List Instr},
      expr.code options function.decl.params = .ok code →
      ∀ instr ∈ code, instr.RefersWithin (· ∈ program.mentioned) := by
    intro expr isExpr code compiled instr member name refers
    refine List.mem_flatMap.mpr ⟨expr, List.mem_append_left _ ?_,
      Expr.refersWithin_of_code compiled instr member name refers⟩
    exact List.mem_flatMap.mpr ⟨function.decl, assembled.mem_sources isFunction, isExpr⟩
  have ofBranch : ∀ block position, (branch block position).RefersWithin (· ∈ program.mentioned) :=
    fun _ _ _ refers => by cases refers
  obtain ⟨ofBody, ofArms⟩ := yields.forall_mem ofBranch (fun _ refers => by cases refers) ofCode
  rcases List.mem_cons.mp inFunction with rfl | inArms
  · intro instr isInstr
    rw [instrs, List.mem_append, List.mem_singleton] at isInstr
    rcases isInstr with inBody | rfl
    · exact ofBody instr inBody
    · intro name refers
      cases refers
  · rw [arms] at inArms
    exact ofArms id (id + 1) block inArms

theorem mentioned_of_constant
    (assembled : Assembled options program.functions program.constants object functions) :
    ∀ constant body, object.constants.body? constant = some body →
      ∀ instr ∈ body, instr.RefersWithin (· ∈ program.mentioned) := by
  intro constant body hasBody instr member name refers
  obtain ⟨value, defined, -⟩ := assembled.constants.loads_iff hasBody
  obtain ⟨before, after, split, -⟩ := List.lookup_eq_some_iff.mp defined
  have isValue : value ∈ program.constants.map Prod.snd := by simp [split]
  exact List.mem_flatMap.mpr ⟨value, List.mem_append_right _ isValue,
    assembled.constants.mem_of_reference? defined hasBody member refers⟩

end Assembled

/-! ## Places where names mean the same -/

namespace Site

/-- The names that count mean the same at both places, and so they do inside constants. -/
structure SameOn (counts : String → Prop) (site other : Site) : Prop where
  address : ∀ name, counts name → other.scope.address? name = site.scope.address? name
  body : ∀ name, counts name → other.constants.body? name = site.constants.body? name
  functions : ∀ name, counts name →
    (other.program.function? name).isSome = (site.program.function? name).isSome
  inside : ∀ name body, site.constants.body? name = some body →
    ∀ instr ∈ body, instr.RefersWithin counts

theorem resolveClosure_of_noName (site : Site) {instr : Instr} (noName : instr.reference? = none) :
    site.resolveClosure instr = .ok instr := by
  unfold resolveClosure
  split
  · rename_i isClosure isSymbol
    simp [Instr.reference?, isClosure, isSymbol] at noName
  · rfl

namespace SameOn

variable {counts : String → Prop} {site other : Site}

theorem agree_resolveClosure (same : site.SameOn counts other) {instr : Instr}
    (ofInstr : instr.RefersWithin counts) :
    Agree Eq (site.resolveClosure instr) (other.resolveClosure instr) := by
  cases refers : instr.reference? with
  | none =>
    rw [site.resolveClosure_of_noName refers, other.resolveClosure_of_noName refers]
    exact .ok rfl
  | some name =>
    have isKnown := ofInstr name refers
    rcases Instr.opcode_of_reference? refers with isLoad | isClosure
    · have noBlocks : instr.opcode.takesBlocks = false := by
        rw [isLoad]
        rfl
      rw [site.resolveClosure_of_takesBlocks noBlocks, other.resolveClosure_of_takesBlocks noBlocks]
      exact .ok rfl
    · have isSymbol : instr.symbol? = some name := by
        simpa [Instr.reference?, isClosure] using refers
      simp only [resolveClosure, isClosure, isSymbol, same.address name isKnown,
        same.functions name isKnown]
      cases site.scope.address? name with
      | some address => exact .ok rfl
      | none =>
        by_cases isFunction : (site.program.function? name).isSome
        · simp only [if_pos isFunction]
          exact .error _ _
        · simp only [if_neg isFunction]
          exact .ok rfl

theorem agree_resolve (same : site.SameOn counts other) {instr : Instr}
    (ofInstr : instr.RefersWithin counts) :
    Agree Eq (site.resolve instr) (other.resolve instr) := by
  cases refers : instr.reference? with
  | none =>
    simp only [resolve, refers]
    exact .ok rfl
  | some name =>
    have isKnown := ofInstr name refers
    simp only [resolve, refers, same.address name isKnown, same.body name isKnown]
    cases site.scope.address? name with
    | some address => exact .ok rfl
    | none =>
      cases known : site.constants.body? name with
      | some body =>
        have closures : Agree (List.Forall₂ Eq) (body.mapM site.resolveClosure)
            (body.mapM other.resolveClosure) := .mapM (List.forall₂_same.mpr fun spliced member =>
          same.agree_resolveClosure (same.inside name body known spliced member))
        refine closures.bind fun _ _ equal => .ok ?_
        rw [List.forall₂_eq_eq_eq] at equal
        rw [equal]
      | none =>
        by_cases isClosure : instr.opcode = .ldf
        · simp only [if_pos isClosure]
          exact (same.agree_resolveClosure ofInstr).bind fun _ _ equal => .ok (by rw [equal])
        · simp only [if_neg isClosure]
          exact .error _ _

/-- Code in which all names count is resolved to the same. -/
theorem agree_resolveAll (same : site.SameOn counts other) {instrs : List Instr}
    (ofInstrs : ∀ instr ∈ instrs, instr.RefersWithin counts) :
    Agree Eq (site.resolveAll instrs) (other.resolveAll instrs) := by
  have parts : Agree (List.Forall₂ Eq) (instrs.mapM site.resolve) (instrs.mapM other.resolve) :=
    .mapM (List.forall₂_same.mpr fun instr member => same.agree_resolve (ofInstrs instr member))
  refine parts.bind fun _ _ equal => .ok ?_
  rw [List.forall₂_eq_eq_eq] at equal
  rw [equal]

end SameOn

end Site

/-! ## Tables of constants -/

namespace Constants

theorem body?_insertAll_of_notMem {entries : List (String × List Instr)} :
    ∀ {constants : Constants} {name : String}, name ∉ entries.map Prod.fst →
      (constants.insertAll entries).body? name = constants.body? name := by
  induction entries with
  | nil => exact fun _ => rfl
  | cons entry rest ih =>
    intro constants name absent
    rw [List.map_cons, List.mem_cons, not_or] at absent
    exact (ih absent.2).trans (by rw [body?_insert, if_neg absent.1])

variable {constants other : Constants} {counts : String → Prop}

/-- Code in which all names count has the same expansion where these names stand for the same. -/
theorem expansion_of_same (same : ∀ name, counts name → other.body? name = constants.body? name)
    (inside : ∀ name body, constants.body? name = some body →
      ∀ instr ∈ body, instr.RefersWithin counts) {code result : List Instr}
    (expansion : Expansion constants code result) :
    (∀ instr ∈ code, instr.RefersWithin counts) → Expansion other code result := by
  induction expansion with
  | nil => exact fun _ => .nil
  | keep kept _ ih =>
    intro ofCode
    obtain ⟨ofInstr, ofRest⟩ := List.forall_mem_cons.mp ofCode
    refine .keep (fun name refers => ?_) (ih ofRest)
    rw [same name (ofInstr name refers)]
    exact kept name refers
  | inline refers defined _ _ ihInside ihNext =>
    intro ofCode
    obtain ⟨ofInstr, ofRest⟩ := List.forall_mem_cons.mp ofCode
    exact .inline refers ((same _ (ofInstr _ refers)).trans defined) (ihInside (inside _ _ defined))
      (ihNext ofRest)

/-- So constants whose names count have the same entries in both tables. -/
theorem body?_eq_of_same (same : ∀ name, counts name → other.body? name = constants.body? name)
    (inside : ∀ name body, constants.body? name = some body →
      ∀ instr ∈ body, instr.RefersWithin counts) {table otherTable : Constants}
    (expanded : constants.expandAll = .ok table) (otherExpanded : other.expandAll = .ok otherTable)
    {name : String} (isKnown : counts name) : otherTable.body? name = table.body? name := by
  cases defined : constants.body? name with
  | none =>
    rw [body?_eq_none_of_expandAll expanded defined,
      body?_eq_none_of_expandAll otherExpanded ((same name isKnown).trans defined)]
  | some body =>
    obtain ⟨result, known, expansion⟩ := body?_of_expandAll expanded defined
    obtain ⟨otherResult, otherKnown, otherExpansion⟩ :=
      body?_of_expandAll otherExpanded ((same name isKnown).trans defined)
    rw [known, otherKnown, (expansion_of_same same inside expansion
      (inside name body defined)).unique otherExpansion]

end Constants

/-! ## Slots behind the others -/

theorem idxOf?_append_of_notMem {first second : List String} {name : String}
    (absent : name ∉ second) : (first ++ second).idxOf? name = first.idxOf? name := by
  have notFound : second.findIdx? (· == name) = none := List.idxOf?_eq_none_iff.mpr absent
  rw [List.idxOf?, List.findIdx?_append, notFound, Option.map_none, Option.or_none]

theorem declarations_append (first second : List FunctionDecl) (entry : String) :
    declarations (first ++ second) entry =
      declarations first entry ++ declarations second entry := by
  simp [declarations, functionsExcept]

/-- Further functions do not change the addresses of other names. -/
theorem address?_framesOf_append {first second : List FunctionDecl} {name : String}
    (absent : name ∉ second.map FunctionDecl.name) (main decl : FunctionDecl) :
    (framesOf (first ++ second) main decl).address? name =
      (framesOf first main decl).address? name := by
  have noSlot : name ∉ declarations second main.name := fun member =>
    absent (List.map_subset _ (List.filter_subset_self _) member)
  have sameSlot : (declarations first main.name ++ declarations second main.name).idxOf? name =
      (declarations first main.name).idxOf? name := idxOf?_append_of_notMem noSlot
  unfold framesOf
  split <;> simp only [Scope.address?, declarations_append, sameSlot]

/-- With one more name the preamble is longer by its closure, and by `DUM` if it is the first. -/
theorem length_preamble_append_singleton (entry : String) (declared : List String) (name : String) :
    (preamble entry (declared ++ [name])).length =
      (preamble entry declared).length + if declared = [] then 2 else 1 := by
  cases declared <;> simp [preamble]

theorem CompiledFunction.others_append (entry : String) (first second : List CompiledFunction) :
    others entry (first ++ second) = others entry first ++
      (number (0 + (blocksOf 0 first).length) second).filter (·.2.decl.name ≠ entry) := by
  rw [others, number_append, List.filter_append]
  rfl

/-! ## One more declaration -/

namespace Decl

/-- The names that a declaration gives a meaning. -/
def names : Decl → List String
  | .function decl => [decl.name]
  | .consts group => group.names

def functions : Decl → List FunctionDecl
  | .function decl => [decl]
  | .consts _ => []

theorem map_name_functions_subset (last : Decl) :
    last.functions.map FunctionDecl.name ⊆ last.names := by
  cases last with
  | function _ => exact List.Subset.refl _
  | consts _ => exact List.nil_subset _

theorem map_fst_entries_subset (options : Options) (title : String) (last : Decl) :
    (Program.entries options ⟨title, [last]⟩).map Prod.fst ⊆ last.names := by
  rw [Program.map_fst_entries]
  cases last with
  | function _ => simp [Program.constants]
  | consts group =>
    simp only [Program.constants, List.flatMap_cons, List.flatMap_nil, List.append_nil, names,
      ConstGroup.definitions]
    cases group.values with
    | ordinals => simp [List.map_map, Function.comp_def]
    | exprs values =>
      intro name member
      obtain ⟨⟨_, value⟩, inZip, rfl⟩ := List.mem_map.mp member
      exact (List.of_mem_zip inZip).1

end Decl

namespace Program

/-- The program with one more declaration at its end. -/
def extended (program : Program) (last : Decl) : Program :=
  { program with decls := program.decls ++ [last] }

@[simp] theorem functions_extended (program : Program) (last : Decl) :
    (program.extended last).functions = program.functions ++ last.functions := by
  cases last <;> simp [extended, functions, Decl.functions]

theorem DotFree.of_extended {program : Program} {last : Decl}
    (dotFree : (program.extended last).DotFree) : program.DotFree where
  functions := fun decl member => dotFree.functions decl (by simp [member])
  calls := by
    intro site member
    refine dotFree.calls site ?_
    obtain ⟨expr, isExpr, isCall⟩ := List.mem_flatMap.mp member
    refine List.mem_flatMap.mpr ⟨expr, ?_, isCall⟩
    have constants := constants_append program.name program.decls [last]
    rcases List.mem_append.mp isExpr with inFunction | inConstant
    · refine List.mem_append_left _ ?_
      rw [functions_extended, List.flatMap_append]
      exact List.mem_append_left _ inFunction
    · refine List.mem_append_right _ ?_
      rw [extended, constants, List.map_append]
      exact List.mem_append_left _ inConstant

end Program

/-- A longer list of functions is compiled to the same code and more. -/
theorem Assembled.exists_added {options : Options} {sources more : List FunctionDecl}
    {definitions otherDefinitions : List (String × Expr)} {object otherObject : ObjectProgram}
    {functions all : List CompiledFunction}
    (assembled : Assembled options sources definitions object functions)
    (otherAssembled : Assembled options (sources ++ more) otherDefinitions otherObject all) :
    ∃ added, all = functions ++ added ∧ added.map CompiledFunction.decl = more := by
  obtain ⟨first, added, rfl, sameDecls, addedDecls⟩ :=
    List.map_eq_append_iff.mp otherAssembled.decls
  refine ⟨added, ?_, addedDecls⟩
  have same : first = functions := CompiledFunction.eq_of_map_decl assembled.code
    (fun function member => otherAssembled.code function (List.mem_append_left _ member))
    (sameDecls.trans assembled.decls.symm)
  rw [same]

/-- What a closure or a branch holds when names are resolved are names of blocks. -/
theorem Site.symbolic_of_sifted {site : Site} {constants : Constants} {called : CallSite → Prop}
    {arm : String → Prop} {instr : Instr}
    (sifted : Patchable arm instr ∨ site.Leftover constants called instr) : instr.Symbolic := by
  intro takesBlocks operand member
  rcases sifted with
    (noBlocks | ⟨thenName, elseName, comment, -, -, rfl⟩) | ⟨call, comment, -, rfl, -⟩
  · rw [noBlocks] at takesBlocks
    cases takesBlocks
  · simp only [List.mem_cons, List.not_mem_nil, or_false] at member
    exact member.elim (fun isThen => ⟨_, isThen⟩) fun isElse => ⟨_, isElse⟩
  · exact ⟨_, List.mem_singleton.mp member⟩

/-! ## Linking both -/

/-- A linked program, and the same with one more declaration, of names that are not mentioned. -/
structure Extends (options : Options) (program : Program) (last : Decl)
    (object otherObject : ObjectProgram) (functions added : List CompiledFunction) (id : Nat)
    (main : CompiledFunction) (table otherTable : Constants) (listing other : Listing) : Prop where
  linked : Linked options program object functions id main table listing
  otherLinked : Linked options (program.extended last) otherObject (functions ++ added) id main
    otherTable other
  decls : added.map CompiledFunction.decl = last.functions
  constants : otherObject.constants =
    object.constants.insertAll (Program.entries options ⟨program.name, [last]⟩)
  unrelated : ∀ name ∈ last.names, name ∉ program.mentioned

namespace Extends

variable {options : Options} {program : Program} {last : Decl} {object otherObject : ObjectProgram}
  {functions added : List CompiledFunction} {id : Nat} {main : CompiledFunction}
  {table otherTable : Constants} {listing other : Listing}

theorem of_link (dotFree : (program.extended last).DotFree)
    (unrelated : ∀ name ∈ last.names, name ∉ program.mentioned)
    (generated : program.object options = .ok object)
    (otherGenerated : (program.extended last).object options = .ok otherObject)
    (isLinked : object.link options = .ok listing)
    (otherIsLinked : otherObject.link options = .ok other) :
    ∃ functions added id main table otherTable,
      Extends options program last object otherObject functions added id main table otherTable
        listing other := by
  obtain ⟨functions, id, main, table, linked⟩ :=
    Linked.of_link dotFree.of_extended generated isLinked
  obtain ⟨all, otherId, otherMain, otherTable, otherLinked⟩ :=
    Linked.of_link dotFree otherGenerated otherIsLinked
  obtain ⟨added, rfl, decls⟩ := linked.assembled.exists_added
    (by simpa using otherLinked.assembled)
  -- the entry function is found by its name
  have isMain : (id, main) ∈ CompiledFunction.number 0 (functions ++ added) := by
    rw [CompiledFunction.number_append]
    exact List.mem_append_left _ linked.isMain
  obtain ⟨rfl, rfl⟩ := Prod.mk.inj (otherLinked.assembled.eq_of_name isMain otherLinked.isMain
    (linked.isEntry.trans otherLinked.isEntry.symm))
  refine ⟨functions, added, id, main, table, otherTable, linked, otherLinked, decls, ?_, unrelated⟩
  rw [(Program.constants_of_object dotFree.functions otherGenerated).2,
    (Program.constants_of_object linked.dotFree.functions generated).2, Program.extended,
    Program.entries_append, Constants.ofList_append]

/-- Names that the program mentions mean the same in both. -/
theorem sameOn (both : Extends options program last object otherObject functions added id main table
    otherTable listing other) (block : String) (decl : FunctionDecl) :
    Site.SameOn (· ∈ program.mentioned)
      ⟨object, table, block, framesOf program.functions main.decl decl⟩
      ⟨otherObject, otherTable, block,
        framesOf (program.extended last).functions main.decl decl⟩ := by
  have notNew : ∀ name ∈ program.mentioned, name ∉ last.names :=
    fun name mentioned isNew => both.unrelated name isNew mentioned
  have noFunction : ∀ name ∈ program.mentioned, name ∉ last.functions.map FunctionDecl.name :=
    fun name mentioned isNew => notNew name mentioned (last.map_name_functions_subset isNew)
  have ofConstants := both.linked.assembled.mentioned_of_constant
  constructor
  · intro name mentioned
    simp only [Program.functions_extended]
    exact address?_framesOf_append (noFunction name mentioned) main.decl decl
  · intro name mentioned
    have sameBody : ∀ name ∈ program.mentioned,
        otherObject.constants.body? name = object.constants.body? name := by
      intro name mentioned
      rw [both.constants]
      exact Constants.body?_insertAll_of_notMem fun isNew =>
        notNew name mentioned (last.map_fst_entries_subset options program.name isNew)
    exact Constants.body?_eq_of_same sameBody ofConstants both.linked.expanded
      both.otherLinked.expanded mentioned
  · intro name mentioned
    rw [Bool.eq_iff_iff, both.linked.assembled.isSome_function?_iff both.linked.dotFree.functions,
      both.otherLinked.assembled.isSome_function?_iff both.otherLinked.dotFree.functions,
      Program.functions_extended]
    constructor
    · rintro ⟨decl, isDecl, rfl⟩
      rcases List.mem_append.mp isDecl with isOld | isNew
      · exact ⟨decl, isOld, rfl⟩
      · exact absurd (List.mem_map_of_mem isNew) (noFunction _ mentioned)
    · rintro ⟨decl, isDecl, rfl⟩
      exact ⟨decl, List.mem_append_left _ isDecl, rfl⟩
  · exact fun name body known instr member read refers =>
      (Constants.refersWithin_of_expandAll both.linked.expanded ofConstants name body known instr
        member read refers).1

/-- The blocks of one function, in the scopes of both programs. -/
theorem forall₂_sites (functions others : List FunctionDecl) (main : FunctionDecl)
    (order : List (Nat × CompiledFunction)) :
    List.Forall₂ (fun site otherSite => ∃ decl, site.1 = framesOf functions main decl ∧
        otherSite = (framesOf others main decl, site.2))
      (order.flatMap (CompiledFunction.sites functions main))
      (order.flatMap (CompiledFunction.sites others main)) := by
  refine List.rel_flatMap (R := Eq) (List.forall₂_same.mpr fun _ _ => rfl) ?_
  rintro function _ rfl
  rw [CompiledFunction.sites, CompiledFunction.sites, List.forall₂_map_left_iff,
    List.forall₂_map_right_iff, List.forall₂_same]
  exact fun _ _ => ⟨function.2.decl, rfl, rfl⟩

/-- A block that stands in both programs is patched from the same instructions. -/
theorem madeAlike (both : Extends options program last object otherObject functions added id main
    table otherTable listing other) {site otherSite : Scope × Block} {decl : FunctionDecl}
    (isSite : site ∈ ((id, main) :: CompiledFunction.others options.entry functions).flatMap
      (CompiledFunction.sites program.functions main.decl))
    (isScope : site.1 = framesOf program.functions main.decl decl)
    (isOther : otherSite =
      (framesOf (program.extended last).functions main.decl decl, site.2))
    {block otherBlock : PlacedBlock}
    (links : LinksBlock options object table listing.blocks site block)
    (otherLinks : LinksBlock options otherObject otherTable other.blocks otherSite otherBlock) :
    MadeAlike options listing.blocks other.blocks block otherBlock := by
  obtain ⟨scope, source⟩ := site
  subst isScope isOther
  obtain ⟨named, middle, resolved, patched⟩ := links
  obtain ⟨otherNamed, otherMiddle, otherResolved, otherPatched⟩ := otherLinks
  have assembled := both.linked.assembled
  obtain ⟨-, -, isBlock, -⟩ :=
    (assembled.mem_sites_iff both.linked.isMain both.linked.isEntry _).mp isSite
  obtain rfl := ((both.sameOn source.name decl).agree_resolveAll
    (assembled.mentioned_of_block source isBlock)).of_ok resolved otherResolved
  refine ⟨⟨source.name, middle⟩, ?_, ⟨named, patched⟩, otherNamed, otherPatched⟩
  have sifts := Site.sifts_resolveAll
    ⟨object, table, source.name, framesOf program.functions main.decl decl⟩ assembled.straight
    both.linked.expanded
    (assembled.blockInstr_of_mem_sites both.linked.isMain both.linked.isEntry _ isSite)
  rw [resolved] at sifts
  exact fun instr member => Site.symbolic_of_sifted (sifts.1 instr member)

/-- All blocks stand in the longer program, further back by the growth of the preamble. -/
theorem blocks_eq (both : Extends options program last object otherObject functions added id main
    table otherTable listing other) {later : List (Nat × CompiledFunction)}
    (order : CompiledFunction.others options.entry (functions ++ added) =
      CompiledFunction.others options.entry functions ++ later) {distance : Nat}
    (start : other.preamble.length = listing.preamble.length + distance) :
    ∃ rest, other.blocks = listing.blocks.map (PlacedBlock.shifted distance) ++ rest ∧
      rest.length = (later.flatMap
        (CompiledFunction.sites (program.extended last).functions main.decl)).length := by
  have linksAll := both.otherLinked.blocks
  rw [order, ← List.cons_append, List.flatMap_append] at linksAll
  obtain ⟨first, rest, split, links, restLinks⟩ := forall₂_append linksAll
  refine ⟨rest, ?_, restLinks.length_eq.symm⟩
  rw [split]
  congr 1
  have contiguous := both.otherLinked.contiguous
  have nodup := both.otherLinked.nodup_names
  rw [split] at contiguous nodup
  rw [start] at contiguous
  -- from a block over its two sites to the other block
  have sites := (forall₂_imp_of_mem both.linked.blocks fun _ isSite _ links =>
    And.intro isSite links).flip
  have alike : List.Forall₂ (MadeAlike options listing.blocks other.blocks) listing.blocks
      first := by
    refine forall₂_trans ?_ (forall₂_trans (T := fun block otherSite => ∀ otherBlock,
      LinksBlock options otherObject otherTable other.blocks otherSite otherBlock →
        MadeAlike options listing.blocks other.blocks block otherBlock) ?_ sites
        (forall₂_sites _ _ _ _)) links
    · exact fun _ _ otherBlock each => each otherBlock
    · rintro block site otherSite ⟨isSite, links⟩ ⟨decl, isScope, isOther⟩ otherBlock otherLinks
      exact both.madeAlike isSite isScope isOther links otherLinks
  rw [split] at alike
  exact shifted_of_madeAlike alike both.linked.contiguous contiguous nodup

/-- Where the declaration is no function, the listing is the same. -/
theorem eq_of_noFunction (both : Extends options program last object otherObject functions added id
    main table otherTable listing other) (noFunction : last.functions = [])
    (name : other.name = listing.name) : other = listing := by
  have nothing : added = [] := List.map_eq_nil_iff.mp (both.decls.trans noFunction)
  have sameFunctions : (program.extended last).functions = program.functions := by
    rw [Program.functions_extended, noFunction, List.append_nil]
  have preamble := both.otherLinked.preamble
  rw [sameFunctions] at preamble
  have start : other.preamble.length = listing.preamble.length + 0 :=
    (mapM_eq_ok.mp preamble).length_eq.symm.trans (mapM_eq_ok.mp both.linked.preamble).length_eq
  have order : CompiledFunction.others options.entry (functions ++ added) =
      CompiledFunction.others options.entry functions ++ [] := by simp [nothing]
  obtain ⟨rest, blocks, restLength⟩ := both.blocks_eq order start
  have sameBlocks : other.blocks = listing.blocks := by
    rw [blocks, List.length_eq_zero_iff.mp restLength, List.append_nil, List.map_id''
      PlacedBlock.shifted_zero]
  rw [sameBlocks, both.linked.preamble, Except.ok.injEq] at preamble
  calc
    other = ⟨other.name, other.preamble, other.blocks⟩ := rfl
    _ = listing := by rw [name, ← preamble, sameBlocks]

/-- A function is no second entry function, because names of functions are unique. -/
theorem eq_singleton (both : Extends options program last object otherObject functions added id
    main table otherTable listing other) {decl : FunctionDecl}
    (isFunction : last.functions = [decl]) :
    ∃ function, added = [function] ∧ function.decl = decl ∧ decl.name ≠ options.entry := by
  obtain ⟨function, nothing, rfl, isDecl, rest⟩ :=
    List.map_eq_cons_iff.mp (both.decls.trans isFunction)
  rw [List.map_eq_nil_iff.mp rest]
  refine ⟨function, rfl, isDecl, ?_⟩
  have nodup := both.otherLinked.assembled.nodup
  rw [Program.functions_extended, isFunction, List.map_append, List.nodup_append] at nodup
  rw [← both.linked.isEntry]
  exact (nodup.2.2 _ (List.mem_map_of_mem both.linked.main_mem) _ List.mem_cons_self).symm

/-- The preamble grows by the closure of a function. -/
theorem length_preamble (both : Extends options program last object otherObject functions added id
    main table otherTable listing other) {decl : FunctionDecl}
    (isFunction : last.functions = [decl])
    (notEntry : decl.name ≠ options.entry) :
    other.preamble.length = listing.preamble.length +
      if declarations program.functions options.entry = [] then 2 else 1 := by
  have declared : declarations (program.extended last).functions options.entry =
      declarations program.functions options.entry ++ [decl.name] := by
    rw [Program.functions_extended, isFunction, declarations_append]
    simp [declarations, functionsExcept, notEntry]
  have length := (mapM_eq_ok.mp both.otherLinked.preamble).length_eq
  rw [declared, length_preamble_append_singleton,
    (mapM_eq_ok.mp both.linked.preamble).length_eq] at length
  exact length.symm

/-- A function comes last, with the code that it has among the functions of the longer program. -/
theorem exists_routine (both : Extends options program last object otherObject functions added id
    main table otherTable listing other) {decl : FunctionDecl}
    (isFunction : last.functions = [decl]) :
    ∃ (routine : Routine) (depth : Nat), routine.decl = decl ∧
      routine.Realised (framesOf (program.extended last).functions main.decl decl)
        (program.extended last).constants depth ∧
      other.blocks = listing.blocks.map (PlacedBlock.shifted
        (if declarations program.functions options.entry = [] then 2 else 1)) ++
          routine.blocks := by
  obtain ⟨function, rfl, rfl, notEntry⟩ := both.eq_singleton isFunction
  have order := CompiledFunction.others_append options.entry functions [function]
  obtain ⟨rest, blocks, restLength⟩ :=
    both.blocks_eq order (both.length_preamble isFunction notEntry)
  obtain ⟨depth, settled⟩ := both.otherLinked.settles
  rw [order, ← List.cons_append, List.flatMap_append] at settled
  obtain ⟨first, segment, split, -, ofSegment⟩ := forall₂_append settled
  -- what is left behind the other blocks is as long as the function
  obtain ⟨-, rfl⟩ := List.append_inj' (split.symm.trans blocks)
    (ofSegment.length_eq.symm.trans restLength.symm)
  simp only [CompiledFunction.number, List.filter_cons, List.filter_nil, decide_not, notEntry,
    decide_false, Bool.not_false, if_true, List.flatMap_cons, List.flatMap_nil, List.append_nil]
    at ofSegment
  have within : segment ⊆ other.blocks := by
    rw [split]
    exact List.subset_append_right _ _
  have member : function ∈ functions ++ [function] := List.mem_append_right _ List.mem_cons_self
  obtain ⟨routine, isDecl, rfl, realised⟩ :=
    both.otherLinked.exists_routine member within ofSegment
  exact ⟨routine, depth, isDecl, realised, blocks⟩

end Extends

/-! ## Whole programs -/

/-- A listing has the name of its program. -/
theorem name_of_compile {options : Options} {program : Program}
    (dotFree : ∀ decl ∈ program.functions, DotFree decl.name) {listing : Listing}
    (compiled : compile options program = .ok listing) : listing.name = program.name := by
  obtain ⟨object, generated, linked⟩ := bind_eq_ok.mp compiled
  rw [ObjectProgram.link_eq_resolveNames, bind_eq_ok] at linked
  obtain ⟨⟨declared, loose⟩, -, finished⟩ := linked
  obtain ⟨_, -, _, -, rfl⟩ := by
    simpa only [ObjectProgram.finish, bind_eq_ok, pure_eq_ok] using finished
  exact (Program.constants_of_object dotFree generated).1

/-- A declaration at the end, of names that the program does not mention, leaves what is there. A
group of constants makes no difference. A function comes after all else; the blocks before it are
the blocks of the listing without it, all further back by one instruction, or by two where there was
only the entry function. -/
theorem compile_extended {options : Options} {program : Program} {last : Decl}
    {listing other : Listing} (unrelated : ∀ name ∈ last.names, name ∉ program.mentioned)
    (dotFree : (program.extended last).DotFree) (compiled : compile options program = .ok listing)
    (otherCompiled : compile options (program.extended last) = .ok other) :
    match last with
    | .consts _ => other = listing
    | .function decl => other.name = listing.name ∧
      ∃ (routine : Routine) (main : FunctionDecl) (depth : Nat),
        routine.decl = decl ∧ main ∈ program.functions ∧ main.name = options.entry ∧
        routine.Realised (framesOf (program.extended last).functions main decl)
          (program.extended last).constants depth ∧
        other.blocks = listing.blocks.map (PlacedBlock.shifted
          (if declarations program.functions options.entry = [] then 2 else 1)) ++
            routine.blocks := by
  have name : other.name = listing.name :=
    (name_of_compile dotFree.functions otherCompiled).trans
      (name_of_compile dotFree.of_extended.functions compiled).symm
  obtain ⟨object, generated, isLinked⟩ := bind_eq_ok.mp compiled
  obtain ⟨otherObject, otherGenerated, otherIsLinked⟩ := bind_eq_ok.mp otherCompiled
  obtain ⟨functions, added, id, main, table, otherTable, both⟩ :=
    Extends.of_link dotFree unrelated generated otherGenerated isLinked otherIsLinked
  cases last with
  | consts group => exact both.eq_of_noFunction rfl name
  | function decl =>
    have isFunction : (Decl.function decl).functions = [decl] := rfl
    obtain ⟨routine, depth, isDecl, realised, blocks⟩ := both.exists_routine isFunction
    exact ⟨name, routine, main.decl, depth, isDecl, both.linked.main_mem, both.linked.isEntry,
      realised, blocks⟩

/-- The entry function alone, with a branch and a constant. -/
def halving : Program where
  name := "halving"
  decls := [
    .consts ⟨["HALF"], .exprs [.int 2]⟩,
    .function ⟨"main", ["n"],
      [.ifElse (.ident "n") [.expr (.binary .div (.ident "n") (.ident "HALF"))] none]⟩]

def double : FunctionDecl := ⟨"double", ["x"], [.retOne (.binary .add (.ident "x") (.ident "x"))]⟩

theorem compile_extended_halving : ∃ listing other,
    compile {} halving = .ok listing ∧
    compile {} (halving.extended (.consts ⟨["RED", "BLUE"], .ordinals⟩)) = .ok listing ∧
    compile {} (halving.extended (.function double)) = .ok other ∧
    ∃ routine : Routine, routine.decl = double ∧
      other.blocks = listing.blocks.map (PlacedBlock.shifted 2) ++ routine.blocks := by
  obtain ⟨listing, compiled, -⟩ := exists_ok_of_any (compile {} halving) (fun _ => true) (by decide)
  obtain ⟨wider, widerCompiled, -⟩ := exists_ok_of_any
    (compile {} (halving.extended (.consts ⟨["RED", "BLUE"], .ordinals⟩))) (fun _ => true)
    (by decide)
  obtain ⟨other, otherCompiled, -⟩ := exists_ok_of_any
    (compile {} (halving.extended (.function double))) (fun _ => true) (by decide)
  obtain rfl : wider = listing :=
    compile_extended (by decide) ⟨by decide, by decide⟩ compiled widerCompiled
  obtain ⟨-, routine, _, _, isDecl, -, -, -, blocks⟩ :=
    compile_extended (by decide) ⟨by decide, by decide⟩ compiled otherCompiled
  exact ⟨wider, other, compiled, widerCompiled, otherCompiled, routine, isDecl, blocks⟩

end Secd
