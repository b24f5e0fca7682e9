import Mathlib.Logic.Equiv.Basic
import Secd.Proofs.Acceptance
import Secd.Proofs.Lockstep
import Secd.Proofs.Renaming

namespace Secd

open Results

/-! # Names carry no meaning

A program and its renaming are linked in step: a name is found in a frame, among the constants or
among the functions exactly where its new name is (`Site.Renamed`), so that each instruction becomes
the same instruction or is refused in both. Constants are expanded in another order, that of the new
names, but whether they can be expanded depends on who mentions whom
(`Program.constantsClosed_rename_iff`), and what they are expanded to is the renamed expansion
(`Expansion.renamed`). In the end names have given way to addresses and offsets, and these are the
same (`compile_rename`).
-/

/-! ## Constants that mention each other -/

theorem lookup_map_of_injective {α β : Type} {rename : String → String}
    (injective : Function.Injective rename) (change : α → β) (entries : List (String × α))
    (name : String) :
    (entries.map fun entry => (rename entry.1, change entry.2)).lookup (rename name) =
      (entries.lookup name).map change := by
  induction entries with
  | nil => rfl
  | cons entry rest ih =>
    obtain ⟨other, value⟩ := entry
    by_cases same : name = other
    · simp [same]
    · have test : (name == other) = false := beq_eq_false_iff_ne.mpr same
      have otherTest : (rename name == rename other) = false :=
        beq_eq_false_iff_ne.mpr (injective.ne same)
      simp [List.lookup_cons, test, otherTest, ih]

namespace Program

variable (naming : Renaming) (program : Program)

theorem lookup_constants_rename (name : String) :
    (program.rename naming).constants.lookup (naming name) =
      (program.constants.lookup name).map (Expr.rename naming) := by
  rw [constants_rename]
  exact lookup_map_of_injective naming.injective (Expr.rename naming) program.constants name

/-- Every constant of the renamed program comes from a constant. -/
theorem exists_of_lookup_rename {name : String} {value : Expr}
    (defined : (program.rename naming).constants.lookup name = some value) :
    ∃ original originalValue, name = naming original ∧ value = originalValue.rename naming ∧
      program.constants.lookup original = some originalValue := by
  obtain ⟨before, after, split, -⟩ := List.lookup_eq_some_iff.mp defined
  have member : (name, value) ∈ (program.rename naming).constants := by simp [split]
  rw [constants_rename] at member
  obtain ⟨⟨original, originalValue⟩, -, same⟩ := List.mem_map.mp member
  obtain ⟨rfl, rfl⟩ := Prod.mk.inj same
  rw [lookup_constants_rename, Option.map_eq_some_iff] at defined
  obtain ⟨found, isFound, same⟩ := defined
  exact ⟨original, found, rfl, same.symm, isFound⟩

theorem constantRefers_rename_iff {first second : String} :
    (program.rename naming).ConstantRefers (naming first) (naming second) ↔
      program.ConstantRefers first second := by
  have mentions : ∀ value : Expr,
      (naming second ∈ (value.rename naming).idents ++ (value.rename naming).callees ↔
        second ∈ value.idents ++ value.callees) := by
    intro value
    rw [Expr.idents_rename, Expr.callees_rename, ← List.map_append]
    exact List.mem_map_of_injective naming.injective
  simp only [ConstantRefers, lookup_constants_rename, Option.isSome_map, Option.map_eq_some_iff]
  constructor
  · rintro ⟨_, ⟨value, defined, rfl⟩, mentioned, isConstant⟩
    exact ⟨value, defined, (mentions value).mp mentioned, isConstant⟩
  · rintro ⟨value, defined, mentioned, isConstant⟩
    exact ⟨_, ⟨value, defined, rfl⟩, (mentions value).mpr mentioned, isConstant⟩

/-- Only constants of the program refer to each other in the renamed program. -/
theorem exists_of_constantRefers_rename {first second : String}
    (refers : (program.rename naming).ConstantRefers first second) :
    ∃ original next, first = naming original ∧ second = naming next ∧
      program.ConstantRefers original next := by
  obtain ⟨value, defined, mentioned, isConstant⟩ := refers
  obtain ⟨original, -, rfl, -, -⟩ := program.exists_of_lookup_rename naming defined
  obtain ⟨other, isOther⟩ := Option.isSome_iff_exists.mp isConstant
  obtain ⟨next, -, rfl, -, -⟩ := program.exists_of_lookup_rename naming isOther
  exact ⟨original, next, rfl, rfl, (program.constantRefers_rename_iff naming).mp
    ⟨value, defined, mentioned, isConstant⟩⟩

theorem exists_of_transGen_rename {first second : String}
    (path : Relation.TransGen (program.rename naming).ConstantRefers first second) :
    ∃ original next, first = naming original ∧ second = naming next ∧
      Relation.TransGen program.ConstantRefers original next := by
  induction path with
  | single refers =>
    obtain ⟨original, next, rfl, rfl, step⟩ := program.exists_of_constantRefers_rename naming refers
    exact ⟨original, next, rfl, rfl, .single step⟩
  | tail _ refers ih =>
    obtain ⟨original, middle, rfl, rfl, earlier⟩ := ih
    obtain ⟨alsoMiddle, next, same, rfl, step⟩ :=
      program.exists_of_constantRefers_rename naming refers
    cases naming.injective same
    exact ⟨original, next, rfl, rfl, earlier.tail step⟩

/-- Constants are closed whatever they are called. -/
theorem constantsClosed_rename_iff :
    (program.rename naming).ConstantsClosed ↔ program.ConstantsClosed := by
  constructor
  · rintro ⟨acyclic, reads⟩
    refine ⟨fun name cycle => acyclic (naming name) ?_, fun name value defined read isRead => ?_⟩
    · exact cycle.lift naming fun _ _ => (program.constantRefers_rename_iff naming).mpr
    · have found := reads (naming name) (value.rename naming)
        (by rw [lookup_constants_rename, defined]; rfl) (naming read)
        (by rw [Expr.idents_rename]; exact List.mem_map_of_mem isRead)
      rwa [lookup_constants_rename, Option.isSome_map] at found
  · rintro ⟨acyclic, reads⟩
    refine ⟨fun name cycle => ?_, fun name value defined read isRead => ?_⟩
    · obtain ⟨original, next, rfl, same, path⟩ := program.exists_of_transGen_rename naming cycle
      cases naming.injective same
      exact acyclic original path
    · obtain ⟨original, originalValue, rfl, rfl, found⟩ :=
        program.exists_of_lookup_rename naming defined
      rw [Expr.idents_rename] at isRead
      obtain ⟨originalRead, isOriginal, rfl⟩ := List.mem_map.mp isRead
      rw [lookup_constants_rename, Option.isSome_map]
      exact reads original originalValue found originalRead isOriginal

end Program

/-! ## Expansions -/

namespace Instr.Renamed

variable {naming : Renaming} {paired : String → String → Prop} {instr other : Instr}

theorem opcode_eq (renamed : Renamed naming paired instr other) : other.opcode = instr.opcode := by
  cases renamed with
  | same _ _ bare => exact (Instr.mk.inj bare).1
  | _ => rfl

/-- The other instruction refers to the new name. -/
theorem reference?_eq (renamed : Renamed naming paired instr other) :
    other.reference? = instr.reference?.map naming := by
  cases renamed with
  | same noReference _ bare =>
    have sameReference : other.reference? = instr.reference? := by
      obtain ⟨sameOpcode, sameArgs, -⟩ := Instr.mk.inj bare
      simp only [reference?, symbol?, sameOpcode, sameArgs]
    rw [sameReference, noReference, Option.map_none]
  | load isLoad name _ _ => rcases isLoad with rfl | rfl <;> rfl
  | branch _ _ _ _ => rfl

/-- Branches lead to arms, so that it is enough to know which arms correspond to each other. -/
theorem mono_arm {called : CallSite → Prop} {arm : String → Prop} {known : String → String → Prop}
    (renamed : Renamed naming paired instr other) (ofBlock : BlockInstr called arm instr)
    (pairs : ∀ name otherName, arm name → paired name otherName → known name otherName) :
    Renamed naming known instr other := by
  cases renamed with
  | same noReference noBlocks bare => exact .same noReference noBlocks bare
  | load isLoad name _ _ => exact .load isLoad name _ _
  | branch thenPaired elsePaired _ _ =>
    cases ofBlock with
    | straight isStraight => cases isStraight
    | branch isThen isElse _ =>
      exact .branch (pairs _ _ isThen thenPaired) (pairs _ _ isElse elsePaired) _ _

end Instr.Renamed

/-- A table of the same constants under their new names. -/
def Constants.Renamed (naming : Renaming) (paired : String → String → Prop)
    (constants others : Constants) : Prop :=
  ∀ name, Option.Rel (RenamedCode naming paired) (constants.body? name)
    (others.body? (naming name))

section

variable {naming : Renaming} {paired : String → String → Prop} {constants others : Constants}

theorem Constants.Renamed.exists_body (renamed : constants.Renamed naming paired others)
    {name : String} {body : List Instr} (defined : constants.body? name = some body) :
    ∃ other, others.body? (naming name) = some other ∧ RenamedCode naming paired body other := by
  have related := renamed name
  rw [defined] at related
  cases found : others.body? (naming name) with
  | none =>
    rw [found] at related
    cases related
  | some other =>
    rw [found] at related
    cases related with
    | some ofBody => exact ⟨other, rfl, ofBody⟩

theorem Constants.Renamed.body?_eq_none (renamed : constants.Renamed naming paired others)
    {name : String} (undefined : constants.body? name = none) :
    others.body? (naming name) = none := by
  have related := renamed name
  rw [undefined] at related
  cases found : others.body? (naming name) with
  | none => rfl
  | some other =>
    rw [found] at related
    cases related

/-- The expansion of renamed code is the renamed expansion. -/
theorem Expansion.renamed (tables : constants.Renamed naming paired others)
    {code result : List Instr} (expansion : Expansion constants code result) :
    ∀ {otherCode otherResult : List Instr}, RenamedCode naming paired code otherCode →
      Expansion others otherCode otherResult → RenamedCode naming paired result otherResult := by
  induction expansion with
  | nil =>
    intro otherCode otherResult ofCode otherExpansion
    cases ofCode
    cases otherExpansion
    exact .nil
  | @keep instr _ _ kept _ ih =>
    intro otherCode otherResult ofCode otherExpansion
    cases ofCode with
    | @cons _ otherInstr _ _ head tail =>
      cases otherExpansion with
      | keep _ otherNext => exact .cons head (ih tail otherNext)
      | inline otherRefers otherDefined _ _ =>
        -- the name is no constant, so neither is its new name
        rw [head.reference?_eq, Option.map_eq_some_iff] at otherRefers
        obtain ⟨name, refers, rfl⟩ := otherRefers
        rw [tables.body?_eq_none (kept name refers).1] at otherDefined
        cases otherDefined
  | @inline instr name _ _ _ _ refers defined _ _ ihInside ihNext =>
    intro otherCode otherResult ofCode otherExpansion
    obtain ⟨otherBody, isOtherBody, ofBody⟩ := tables.exists_body defined
    cases ofCode with
    | @cons _ otherInstr _ _ head tail =>
      have otherRefers : otherInstr.reference? = some (naming name) := by
        rw [head.reference?_eq, refers, Option.map_some]
      cases otherExpansion with
      | keep kept _ =>
        rw [(kept _ otherRefers).1] at isOtherBody
        cases isOtherBody
      | inline alsoRefers otherDefined otherInside otherNext =>
        cases otherRefers.symm.trans alsoRefers
        cases isOtherBody.symm.trans otherDefined
        refine List.rel_append ?_ (ihNext tail otherNext)
        exact List.rel_map (fun _ _ renamed => renamed.recommented rfl rfl)
          (ihInside ofBody otherInside)

/-- Tables of renamed constants have renamed expansions. -/
theorem Constants.Renamed.expandAll (renamed : constants.Renamed naming paired others)
    {table otherTable : Constants} (expanded : constants.expandAll = .ok table)
    (otherExpanded : others.expandAll = .ok otherTable) :
    table.Renamed naming paired otherTable := by
  intro name
  cases defined : constants.body? name with
  | none =>
    rw [body?_eq_none_of_expandAll expanded defined,
      body?_eq_none_of_expandAll otherExpanded (renamed.body?_eq_none defined)]
    exact .none
  | some body =>
    obtain ⟨other, otherDefined, ofBody⟩ := renamed.exists_body defined
    obtain ⟨result, isResult, expansion⟩ := body?_of_expandAll expanded defined
    obtain ⟨otherResult, isOtherResult, otherExpansion⟩ :=
      body?_of_expandAll otherExpanded otherDefined
    rw [isResult, isOtherResult]
    exact .some (expansion.renamed renamed ofBody otherExpansion)

end

/-! ## Resolving names -/

theorem Scope.address?_map (naming : Renaming) (scope : Scope) (name : String) :
    address? (scope.map (List.map naming)) (naming name) = address? scope name := by
  have slot : ∀ frame : List String,
      (frame.map naming).idxOf? (naming name) = frame.idxOf? name := by
    intro frame
    rw [List.idxOf?, List.idxOf?, List.findIdx?_map]
    congr 1
    funext other
    rw [Function.comp_apply, Bool.eq_iff_iff, beq_iff_eq, beq_iff_eq, naming.injective.eq_iff]
  induction scope with
  | nil => rfl
  | cons frame outer ih => simp only [List.map_cons, address?, slot, ih]

/-- Two places where a name means the same as its new name. -/
structure Site.Renamed (naming : Renaming) (called : CallSite → Prop)
    (paired : String → String → Prop) (site other : Site) : Prop where
  constants : site.constants.Renamed naming paired other.constants
  scope : other.scope = site.scope.map (List.map naming)
  functions : ∀ name,
    (other.program.function? (naming name)).isSome = (site.program.function? name).isSome
  straight : ∀ name body, site.constants.body? name = some body →
    ∀ instr ∈ body, Straight called instr
  /-- Constants are fully expanded. -/
  closures : ∀ name body, site.constants.body? name = some body →
    ∀ instr ∈ body, ∀ read, instr.reference? = some read → instr.opcode = .ldf
  /-- What is called and is no function names no block in either program. -/
  calls : ∀ call, called call → site.program.function? call.func = none →
    paired call.func (naming call.func)

namespace Site.Renamed

variable {naming : Renaming} {called : CallSite → Prop} {paired : String → String → Prop}
  {site other : Site}

theorem agree_resolveClosure (sites : site.Renamed naming called paired other)
    {instr otherInstr : Instr} (renamed : instr.Renamed naming paired otherInstr)
    (straight : Straight called instr)
    (closure : ∀ name, instr.reference? = some name → instr.opcode = .ldf) :
    Agree (Instr.Matches paired) (site.resolveClosure instr) (other.resolveClosure otherInstr) := by
  cases renamed with
  | same _ noBlocks bare =>
    have otherNoBlocks : otherInstr.opcode.takesBlocks = false := (Instr.mk.inj bare).1 ▸ noBlocks
    rw [site.resolveClosure_of_takesBlocks noBlocks,
      other.resolveClosure_of_takesBlocks otherNoBlocks]
    exact .ok (.same noBlocks bare)
  | load isLoad name comment otherComment =>
    obtain rfl : _ = Opcode.ldf := closure name (by rcases isLoad with rfl | rfl <;> rfl)
    obtain ⟨call, _, isCalled, isCall⟩ := straight.eq_of_closure rfl
    cases isCall
    simp only [resolveClosure, Instr.symbol?, sites.scope, Scope.address?_map, sites.functions]
    cases site.scope.address? call.func with
    | some address => exact .ok (.same rfl rfl)
    | none =>
      by_cases isFunction : (site.program.function? call.func).isSome
      · simp only [if_pos isFunction]
        exact .error _ _
      · simp only [if_neg isFunction]
        have isPair := sites.calls call isCalled (by simpa using isFunction)
        exact .ok (.targets [call.func] [naming call.func] rfl (.cons isPair .nil))
  | branch _ _ _ _ => cases straight

theorem agree_resolve (sites : site.Renamed naming called paired other) {arm : String → Prop}
    {instr otherInstr : Instr} (renamed : instr.Renamed naming paired otherInstr)
    (ofBlock : BlockInstr called arm instr) :
    Agree (List.Forall₂ (Instr.Matches paired)) (site.resolve instr)
      (other.resolve otherInstr) := by
  have otherReference := renamed.reference?_eq
  cases refers : instr.reference? with
  | none =>
    rw [refers, Option.map_none] at otherReference
    simp only [resolve, refers, otherReference]
    refine .ok (.cons ?_ .nil)
    cases renamed with
    | same _ noBlocks bare => exact .same noBlocks bare
    | load isLoad _ _ _ => rcases isLoad with rfl | rfl <;> cases refers
    | branch thenPaired elsePaired _ _ =>
      exact .targets [_, _] [_, _] rfl (.cons thenPaired (.cons elsePaired .nil))
  | some name =>
    rw [refers, Option.map_some] at otherReference
    simp only [resolve, refers, otherReference, sites.scope, Scope.address?_map]
    cases site.scope.address? name with
    | some address => exact .ok (.cons (.same rfl rfl) .nil)
    | none =>
      cases known : site.constants.body? name with
      | some body =>
        obtain ⟨otherBody, otherKnown, ofBody⟩ := sites.constants.exists_body known
        simp only [otherKnown]
        refine (Agree.mapM (forall₂_imp_of_mem ofBody fun inner member _ innerRenamed =>
          sites.agree_resolveClosure innerRenamed (sites.straight name body known inner member)
            (sites.closures name body known inner member))).bind fun _ _ areMatches => .ok ?_
        exact List.rel_map (fun _ _ isMatch => isMatch.recommented rfl rfl) areMatches
      | none =>
        simp only [sites.constants.body?_eq_none known, renamed.opcode_eq]
        by_cases isClosure : instr.opcode = .ldf
        · simp only [if_pos isClosure]
          exact (sites.agree_resolveClosure renamed (ofBlock.straight_of_reference? refers)
            fun _ _ => isClosure).bind fun _ _ isMatch => .ok (.cons isMatch .nil)
        · simp only [if_neg isClosure]
          exact .error _ _

/-- The code of corresponding blocks. -/
theorem agree_resolveAll (sites : site.Renamed naming called paired other) {arm : String → Prop}
    {code otherCode : List Instr} (renamed : RenamedCode naming paired code otherCode)
    (ofBlock : ∀ instr ∈ code, BlockInstr called arm instr) :
    Agree (List.Forall₂ (Instr.Matches paired)) (site.resolveAll code)
      (other.resolveAll otherCode) := by
  refine (Agree.mapM (forall₂_imp_of_mem renamed fun instr member _ instrRenamed =>
    sites.agree_resolve instrRenamed (ofBlock instr member))).bind fun _ _ parts => .ok ?_
  exact List.rel_flatten parts

end Site.Renamed

/-! ## Placing and patching -/

/-- The same instructions at the same places, comments aside; names of blocks do not count. -/
structure Listing.SameInstrs (listing other : Listing) : Prop where
  preamble : other.preamble.map Instr.uncommented = listing.preamble.map Instr.uncommented
  blocks : List.Forall₂ (fun block otherBlock => otherBlock.offset = block.offset ∧
    otherBlock.instrs.map Instr.uncommented = block.instrs.map Instr.uncommented)
    listing.blocks other.blocks

/-- The preamble mentions the functions by their new names. -/
theorem forall₂_preamble_rename (naming : Renaming) {paired : String → String → Prop}
    {entry : String} {declared : List String}
    (functions : ∀ name ∈ entry :: declared, paired name (naming name)) :
    List.Forall₂ (Instr.Matches paired) (preamble entry declared)
      (preamble (naming entry) (declared.map naming)) := by
  have load : ∀ name ∈ entry :: declared, Instr.Matches paired
      ((Instr.ldf name).commented ("load " ++ name))
      ((Instr.ldf (naming name)).commented ("load " ++ naming name)) := by
    intro name member
    exact .targets [name] [naming name] rfl (.cons (functions name member) .nil)
  have same : ∀ instr : Instr, instr.opcode.takesBlocks = false →
      Instr.Matches paired instr instr := fun instr noBlocks => .same noBlocks rfl
  have loads : List.Forall₂ (Instr.Matches paired)
      (declared.map fun name => (Instr.ldf name).commented ("load " ++ name))
      ((declared.map naming).map fun name => (Instr.ldf name).commented ("load " ++ name)) := by
    rw [List.map_map, List.forall₂_map_left_iff, List.forall₂_map_right_iff, List.forall₂_same]
    exact fun name member => load name (List.mem_cons_of_mem _ member)
  unfold preamble
  simp only [List.isEmpty_map, List.length_map]
  split
  · exact .cons (load entry List.mem_cons_self) (.cons (same _ rfl) (.cons (same _ rfl) .nil))
  · refine .cons (same _ rfl) (List.rel_append loads ?_)
    exact .cons (load entry List.mem_cons_self) (.cons (same _ rfl) (.cons (same _ rfl) .nil))

/-- What corresponds before it is placed is the same afterwards. -/
theorem ObjectProgram.agree_finish_rename (naming : Renaming) {paired : String → String → Prop}
    {loose others : List LooseBlock}
    (related : List.Forall₂ (fun block other =>
      List.Forall₂ (Instr.Matches paired) block.instrs other.instrs) loose others)
    (nodup : (loose.map LooseBlock.name).Nodup) (otherNodup : (others.map LooseBlock.name).Nodup)
    (pairs : ∀ name otherName, paired name otherName →
      Corresponds (loose.map LooseBlock.name) (others.map LooseBlock.name) name otherName)
    {options : Options} {declared : List String}
    (functions : ∀ name ∈ options.entry :: declared, paired name (naming name))
    (name otherName : String) :
    Agree Listing.SameInstrs (finish options name declared loose)
      (finish (options.withEntry (naming options.entry)) otherName (declared.map naming)
        others) := by
  have starts := forall₂_preamble_rename naming functions
  have placed := forall₂_placeBlocks (fun _ _ => List.Forall₂.length_eq) related
    (Secd.preamble options.entry declared).length
  have offsets := targetOffset?_placeBlocks (related.imp fun _ _ => List.Forall₂.length_eq) nodup
    otherNodup pairs (Secd.preamble options.entry declared).length
  unfold finish
  simp only [Options.withEntry, ← starts.length_eq]
  refine (Agree.mapM (starts.imp fun _ _ isMatch => isMatch.agree_patch offsets _ _)).bind
    fun _ _ preambles => ?_
  refine Agree.bind (Agree.mapM (placed.imp fun block other ⟨sameOffset, areMatches⟩ =>
    (Agree.mapM (areMatches.imp fun _ _ isMatch => isMatch.agree_patch offsets _ _)).bind
      fun _ _ bare => .ok (And.intro sameOffset (map_eq_map_of_forall₂ bare fun _ _ same => same))))
    fun _ _ blocks => .ok ⟨map_eq_map_of_forall₂ preambles fun _ _ same => same, blocks⟩

/-! ## Functions -/

/-- A compiled function and the function of the new names. -/
structure CompiledFunction.Renamed (naming : Renaming) (function other : CompiledFunction) :
    Prop where
  decl : other.decl = function.decl.rename naming
  code : function.code.Renamed naming (Twins function.decl.name (naming function.decl.name))
    other.code

theorem declarations_rename (naming : Renaming) (functions : List FunctionDecl) (entry : String) :
    declarations (functions.map (FunctionDecl.rename naming)) (naming entry) =
      (declarations functions entry).map naming := by
  simp only [declarations, functionsExcept, List.filter_map, List.map_map]
  congr 1
  refine List.filter_congr fun decl _ => ?_
  simp [FunctionDecl.rename, naming.injective.eq_iff]

theorem framesOf_rename (naming : Renaming) (functions : List FunctionDecl)
    (main decl : FunctionDecl) :
    framesOf (functions.map (FunctionDecl.rename naming)) (main.rename naming)
        (decl.rename naming) =
      (framesOf functions main decl).map (List.map naming) := by
  have names : ∀ decl : FunctionDecl, (decl.rename naming).name = naming decl.name := fun _ => rfl
  simp only [framesOf, names, declarations_rename, naming.injective.eq_iff]
  split <;> rfl

namespace CompiledFunction

variable {naming : Renaming}

theorem Renamed.forall₂_names {function other : CompiledFunction}
    (renamed : function.Renamed naming other) :
    List.Forall₂ (Twins function.decl.name (naming function.decl.name)) function.names
      other.names := by
  refine .cons ?_ ?_
  · rw [renamed.decl]
    exact .refl _ _
  · rw [← Forest.map_fst_pieces, ← Forest.map_fst_pieces, List.forall₂_map_left_iff,
      List.forall₂_map_right_iff]
    exact renamed.code.arms.imp fun _ _ both => both.1

/-- Twins are at the same place among the blocks of the two functions. -/
theorem Renamed.mem_zip {function other : CompiledFunction}
    (renamed : function.Renamed naming other) {name otherName : String}
    (member : name ∈ function.names)
    (twins : Twins function.decl.name (naming function.decl.name) name otherName) :
    (name, otherName) ∈ function.names.zip other.names := by
  obtain ⟨index, isName⟩ := List.mem_iff_getElem?.mp member
  obtain ⟨third, isThird, alsoTwins⟩ := exists_getElem?_of_forall₂ renamed.forall₂_names isName
  cases twins.unique alsoTwins
  refine List.mem_iff_getElem?.mpr ⟨index, ?_⟩
  rw [List.getElem?_zip_eq_some]
  exact ⟨isName, isThird⟩

/-- Block by block the renamed code. -/
theorem Renamed.forall₂_blocks {function other : CompiledFunction}
    (renamed : function.Renamed naming other) (id otherId : Nat) :
    List.Forall₂ (fun block otherBlock => RenamedCode naming
        (Twins function.decl.name (naming function.decl.name)) block.instrs otherBlock.instrs)
      (function.blocks id) (other.blocks otherId) := by
  have pieces : List.Forall₂ (fun piece otherPiece => RenamedCode naming
      (Twins function.decl.name (naming function.decl.name)) piece.2 otherPiece.2)
      (function.code.pieces function.decl.name) (other.code.pieces other.decl.name) :=
    .cons renamed.code.instrs (renamed.code.arms.imp fun _ _ both => both.2)
  rwa [← function.map_blocks id, ← other.map_blocks otherId, List.forall₂_map_left_iff,
    List.forall₂_map_right_iff] at pieces

/-- Functions keep their order. -/
theorem forall₂_number_renamed {functions others : List CompiledFunction}
    (renamed : List.Forall₂ (Renamed naming) functions others) : ∀ start otherStart : Nat,
    List.Forall₂ (fun entry otherEntry => entry.2.Renamed naming otherEntry.2)
      (number start functions) (number otherStart others) := by
  induction renamed with
  | nil => exact fun _ _ => .nil
  | cons head _ ih => exact fun _ _ => .cons head (ih _ _)

theorem forall₂_others_renamed {functions others : List CompiledFunction}
    (renamed : List.Forall₂ (Renamed naming) functions others) (entry : String) :
    List.Forall₂ (fun entry otherEntry => entry.2.Renamed naming otherEntry.2)
      (CompiledFunction.others entry functions)
      (CompiledFunction.others (naming entry) others) := by
  refine List.rel_filter ?_ (forall₂_number_renamed renamed 0 0)
  intro first second areRenamed
  simp [areRenamed.decl, FunctionDecl.rename, naming.injective.eq_iff]

end CompiledFunction

/-! ## Both programs -/

/-- A generated program and the one generated under the new names. -/
structure Relabelled (naming : Renaming) (options : Options) (program : Program)
    (object otherObject : ObjectProgram) (functions others : List CompiledFunction) : Prop where
  assembled : Assembled options program.functions program.constants object functions
  otherAssembled : Assembled (options.withEntry (naming options.entry))
    (program.rename naming).functions (program.rename naming).constants otherObject others
  dotFree : program.DotFree
  otherDotFree : (program.rename naming).DotFree

namespace Relabelled

variable {naming : Renaming} {options : Options} {program : Program}
  {object otherObject : ObjectProgram} {functions others : List CompiledFunction}

theorem forall₂_functions (both : Relabelled naming options program object otherObject functions
    others) : List.Forall₂ (CompiledFunction.Renamed naming) functions others := by
  have decls : functions.map (FunctionDecl.rename naming ·.decl) =
      others.map CompiledFunction.decl := by
    rw [both.otherAssembled.decls, Program.functions_rename, ← both.assembled.decls, List.map_map]
    rfl
  have sameDecl := List.forall₂_iff_zip.mp (forall₂_of_map_eq decls)
  refine List.forall₂_iff_zip.mpr ⟨sameDecl.1, fun {function other} inBoth => ?_⟩
  obtain ⟨isFunction, isOther⟩ := List.of_mem_zip inBoth
  have isRenamed : other.decl = function.decl.rename naming := (sameDecl.2 inBoth).symm
  refine ⟨isRenamed, ?_⟩
  have otherCode := both.otherAssembled.code other isOther
  rw [isRenamed] at otherCode
  exact (function.decl.agree_rename naming options _).of_ok
    (both.assembled.code function isFunction) otherCode

theorem isSome_function? (both : Relabelled naming options program object otherObject functions
    others) (name : String) :
    (otherObject.function? (naming name)).isSome = (object.function? name).isSome := by
  rw [Bool.eq_iff_iff, both.assembled.isSome_function?_iff both.dotFree.functions,
    both.otherAssembled.isSome_function?_iff both.otherDotFree.functions, Program.functions_rename]
  simp [FunctionDecl.rename, naming.injective.eq_iff]

theorem function?_eq_none (both : Relabelled naming options program object otherObject functions
    others) {name : String} (noFunction : object.function? name = none) :
    otherObject.function? (naming name) = none := by
  have same := both.isSome_function? name
  rw [noFunction, Option.isSome_none] at same
  simpa using same

/-- The constants are those of the new names. -/
theorem constants_renamed (both : Relabelled naming options program object otherObject functions
    others) (paired : String → String → Prop) :
    object.constants.Renamed naming paired otherObject.constants := by
  intro name
  have otherDefined := program.lookup_constants_rename naming name
  cases defined : program.constants.lookup name with
  | none =>
    rw [defined, Option.map_none] at otherDefined
    rw [both.assembled.constants.absent name defined,
      both.otherAssembled.constants.absent _ otherDefined]
    exact .none
  | some value =>
    rw [defined, Option.map_some] at otherDefined
    obtain ⟨code, compiled, body, isBody, bare⟩ :=
      both.assembled.constants.present name value defined
    obtain ⟨otherCode, otherCompiled, otherBody, isOtherBody, otherBare⟩ :=
      both.otherAssembled.constants.present _ _ otherDefined
    rw [isBody, isOtherBody]
    have ofCode := (value.agree_rename naming paired options _ []).of_ok compiled otherCompiled
    -- what stands in the tables differs from the code in its comments
    have toCode := forall₂_trans (fun instr original other same ofOriginal =>
      ofOriginal.recommented same rfl) (forall₂_of_map_eq bare) ofCode
    exact .some (forall₂_trans (fun instr original other renamed same =>
      renamed.recommented rfl same.symm) toCode (forall₂_of_map_eq otherBare.symm))

/-- Constants can be expanded in both programs or in none. -/
theorem agree_expandAll (both : Relabelled naming options program object otherObject functions
    others) :
    Agree (fun table otherTable => object.constants.expandAll = .ok table ∧
        otherObject.constants.expandAll = .ok otherTable)
      object.constants.expandAll otherObject.constants.expandAll :=
  Agree.of_exists_iff <| both.assembled.expandAll_iff.trans <|
    (program.constantsClosed_rename_iff naming).symm.trans both.otherAssembled.expandAll_iff.symm

/-- A name means the same as its new name, in corresponding functions. -/
theorem site_renamed (both : Relabelled naming options program object otherObject functions others)
    {table otherTable : Constants} (expanded : object.constants.expandAll = .ok table)
    (otherExpanded : otherObject.constants.expandAll = .ok otherTable)
    {names otherNames : List String}
    (isNames : ∀ name, name ∈ names → name ∈ functions.flatMap CompiledFunction.names)
    (isOtherNames : ∀ name, name ∈ otherNames → name ∈ others.flatMap CompiledFunction.names)
    (block otherBlock : String) (scope : Scope) :
    Site.Renamed naming (· ∈ program.calls) (Corresponds names otherNames)
      ⟨object, table, block, scope⟩
      ⟨otherObject, otherTable, otherBlock, scope.map (List.map naming)⟩ where
  constants := (both.constants_renamed _).expandAll expanded otherExpanded
  scope := rfl
  functions := both.isSome_function?
  straight := both.assembled.straight_of_expandAll expanded
  closures := by
    intro name result known instr member read refers
    obtain ⟨body, -, expansion⟩ := Constants.exists_of_expandAll expanded known
    exact (expansion.reference_of_mem instr member read refers).2
  calls := by
    intro call isCall noFunction
    have otherDotFree := both.otherDotFree.calls (call.rename naming)
      (by rw [program.calls_rename]; exact List.mem_map_of_mem isCall)
    refine .inr ⟨fun member => ?_, fun member => ?_⟩
    · exact both.assembled.not_mem_names both.dotFree.functions (both.dotFree.calls call isCall)
        noFunction (isNames _ member)
    · exact both.otherAssembled.not_mem_names both.otherDotFree.functions otherDotFree
        (both.function?_eq_none noFunction) (isOtherNames _ member)

/-- Blocks that are resolved to the same. -/
abbrev LooseMatches (paired : String → String → Prop) (block other : LooseBlock) : Prop :=
  List.Forall₂ (Instr.Matches paired) block.instrs other.instrs

/-- The blocks of corresponding functions. -/
theorem agree_function (both : Relabelled naming options program object otherObject functions
    others) {table otherTable : Constants} (expanded : object.constants.expandAll = .ok table)
    (otherExpanded : otherObject.constants.expandAll = .ok otherTable)
    {names otherNames : List String}
    (isNames : ∀ name, name ∈ names → name ∈ functions.flatMap CompiledFunction.names)
    (isOtherNames : ∀ name, name ∈ otherNames → name ∈ others.flatMap CompiledFunction.names)
    {main otherMain : CompiledFunction} (ofMain : main.Renamed naming otherMain)
    {entry otherEntry : Nat × CompiledFunction} (isFunction : entry.2 ∈ functions)
    (renamed : entry.2.Renamed naming otherEntry.2)
    (pairs : ∀ pair ∈ entry.2.names.zip otherEntry.2.names, pair ∈ names.zip otherNames) :
    List.Forall₂ (fun site otherSite => Agree (LooseMatches (Corresponds names otherNames))
        (object.resolveBlock table site) (otherObject.resolveBlock otherTable otherSite))
      (CompiledFunction.sites program.functions main.decl entry)
      (CompiledFunction.sites (program.rename naming).functions otherMain.decl otherEntry) := by
  rw [CompiledFunction.sites, CompiledFunction.sites, List.forall₂_map_left_iff,
    List.forall₂_map_right_iff, Program.functions_rename, ofMain.decl, renamed.decl,
    framesOf_rename]
  refine forall₂_imp_of_mem (renamed.forall₂_blocks entry.1 otherEntry.1)
    fun block isBlock otherBlock ofBlock => ?_
  have blockInstr := both.assembled.blockInstr isFunction entry.1 block isBlock
  -- the arms that code branches to are at the same places of the two listings
  have code : RenamedCode naming (Corresponds names otherNames) block.instrs otherBlock.instrs :=
    forall₂_imp_of_mem ofBlock fun instr member _ instrRenamed =>
      instrRenamed.mono_arm (blockInstr instr member) fun name otherName isArm twins =>
        .inl (pairs _ (renamed.mem_zip (List.mem_cons_of_mem _ isArm) twins))
  have sites := both.site_renamed expanded otherExpanded isNames isOtherNames block.name
    otherBlock.name (framesOf program.functions main.decl entry.2.decl)
  exact (sites.agree_resolveAll code blockInstr).bind fun _ _ areMatches => .ok areMatches

/-- The blocks of all functions, in an order that goes through the functions of both programs. -/
theorem agree_blocks (both : Relabelled naming options program object otherObject functions others)
    {table otherTable : Constants} (expanded : object.constants.expandAll = .ok table)
    (otherExpanded : otherObject.constants.expandAll = .ok otherTable)
    {main otherMain : CompiledFunction} (ofMain : main.Renamed naming otherMain)
    {order otherOrder : List (Nat × CompiledFunction)}
    (isOrder : (order.map Prod.snd).Perm functions)
    (isOtherOrder : (otherOrder.map Prod.snd).Perm others)
    (renamed : List.Forall₂ (fun entry otherEntry => entry.2.Renamed naming otherEntry.2) order
      otherOrder) :
    Agree (List.Forall₂ (LooseMatches (Corresponds
        ((order.map Prod.snd).flatMap CompiledFunction.names)
        ((otherOrder.map Prod.snd).flatMap CompiledFunction.names))))
      ((order.flatMap (CompiledFunction.sites program.functions main.decl)).mapM
        (object.resolveBlock table))
      ((otherOrder.flatMap (CompiledFunction.sites (program.rename naming).functions
        otherMain.decl)).mapM (otherObject.resolveBlock otherTable)) := by
  have zipped := CompiledFunction.forall₂_zip_names
    (fun _ _ areRenamed => areRenamed.forall₂_names.length_eq) renamed
  have members := forall₂_imp_of_mem zipped fun entry isEntry otherEntry related =>
    And.intro (isOrder.mem_iff.mp (List.mem_map_of_mem isEntry)) related
  refine Agree.mapM (List.rel_flatMap members ?_)
  rintro entry otherEntry ⟨isFunction, areRenamed, pairs⟩
  exact both.agree_function expanded otherExpanded
    (fun name member => (isOrder.flatMap_right _).mem_iff.mp member)
    (fun name member => (isOtherOrder.flatMap_right _).mem_iff.mp member) ofMain isFunction
    areRenamed pairs

/-- Functions and their new names correspond to each other. -/
theorem corresponds_of_mem {order otherOrder : List (Nat × CompiledFunction)}
    (renamed : List.Forall₂ (fun entry otherEntry => entry.2.Renamed naming otherEntry.2) order
      otherOrder) {entry : Nat × CompiledFunction} (isEntry : entry ∈ order) :
    Corresponds ((order.map Prod.snd).flatMap CompiledFunction.names)
      ((otherOrder.map Prod.snd).flatMap CompiledFunction.names) entry.2.decl.name
      (naming entry.2.decl.name) := by
  have zipped := CompiledFunction.forall₂_zip_names
    (fun _ _ areRenamed => areRenamed.forall₂_names.length_eq) renamed
  obtain ⟨otherEntry, -, areRenamed, pairs⟩ := exists_of_mem_left zipped isEntry
  exact .inl (pairs _ (areRenamed.mem_zip List.mem_cons_self (.refl _ _)))

/-- Both programs are linked to the same instructions, or both are refused. -/
theorem agree_link (both : Relabelled naming options program object otherObject functions others) :
    Agree Listing.SameInstrs (object.link options)
      (otherObject.link (options.withEntry (naming options.entry))) := by
  cases hasEntry : object.entry options.entry with
  | error error =>
    have noEntry : object.function? options.entry = none := by
      unfold ObjectProgram.entry at hasEntry
      split at hasEntry
      · cases hasEntry
      · assumption
    have otherFails : otherObject.entry (options.withEntry (naming options.entry)).entry =
        .error (.missingEntry (naming options.entry)) := by
      simp [ObjectProgram.entry, Options.withEntry, both.function?_eq_none noEntry]
    simp only [ObjectProgram.link, hasEntry, otherFails]
    exact .error _ _
  | ok id =>
    obtain ⟨main, isMain, isEntry⟩ := both.assembled.exists_entry hasEntry
    obtain ⟨⟨otherId, otherMain⟩, isOtherMain, ofMain⟩ := exists_of_mem_left
      (CompiledFunction.forall₂_number_renamed both.forall₂_functions 0 0) isMain
    have isOtherEntry : otherMain.decl.name = (options.withEntry (naming options.entry)).entry := by
      rw [ofMain.decl, ← isEntry]
      rfl
    have hasOtherEntry := both.otherAssembled.entry_eq both.otherDotFree.functions isOtherMain
      isOtherEntry
    rw [both.assembled.link_eq hasEntry isMain isEntry,
      both.otherAssembled.link_eq hasOtherEntry isOtherMain isOtherEntry]
    refine both.agree_expandAll.bind fun table otherTable tables => ?_
    obtain ⟨expanded, otherExpanded⟩ := tables
    have isOrder := both.assembled.map_snd_order_perm isMain isEntry
    have isOtherOrder := both.otherAssembled.map_snd_order_perm isOtherMain isOtherEntry
    have order : List.Forall₂ (fun entry otherEntry => entry.2.Renamed naming otherEntry.2)
        ((id, main) :: CompiledFunction.others options.entry functions)
        ((otherId, otherMain) :: CompiledFunction.others
          (options.withEntry (naming options.entry)).entry others) :=
      .cons ofMain (CompiledFunction.forall₂_others_renamed both.forall₂_functions options.entry)
    have blocks := both.agree_blocks expanded otherExpanded ofMain isOrder isOtherOrder order
    have nodup := both.assembled.nodup_names both.dotFree.functions isOrder
    have otherNodup := both.otherAssembled.nodup_names both.otherDotFree.functions isOtherOrder
    have declared : declarations (program.rename naming).functions
        (options.withEntry (naming options.entry)).entry =
        (declarations program.functions options.entry).map naming := by
      rw [Program.functions_rename]
      exact declarations_rename naming program.functions options.entry
    rw [declared]
    refine blocks.bind_of_ok fun loose otherLoose isLoose isOtherLoose corresponding => ?_
    have names := InStep.map_name_of_resolveBlock isLoose
    have otherNames := InStep.map_name_of_resolveBlock isOtherLoose
    refine ObjectProgram.agree_finish_rename naming corresponding (names ▸ nodup)
      (otherNames ▸ otherNodup) (fun _ _ isPair => by rwa [names, otherNames])
      (fun name member => ?_) object.name otherObject.name
    obtain ⟨entry, inOrder, rfl⟩ := both.assembled.exists_of_mem_declarations isEntry member
    exact corresponds_of_mem order inOrder

end Relabelled

/-! ## Compilation -/

/-- Names carry no meaning: a program is compiled exactly if the program with other names is, and
then to the same instructions at the same places. -/
theorem compile_rename (naming : Renaming) {options : Options} {program : Program}
    (dotFree : program.DotFree) (otherDotFree : (program.rename naming).DotFree) :
    ((∃ listing, compile options program = .ok listing) ↔
      ∃ other, compile (options.withEntry (naming options.entry)) (program.rename naming) =
        .ok other) ∧
    ∀ listing other, compile options program = .ok listing →
      compile (options.withEntry (naming options.entry)) (program.rename naming) = .ok other →
      listing.SameInstrs other := by
  have generated : (∃ object, program.object options = .ok object) ↔
      ∃ other, (program.rename naming).object (options.withEntry (naming options.entry)) =
        .ok other :=
    (Program.object_succeeds_iff dotFree.functions).trans <|
      (program.generable_rename_iff naming options _).symm.trans
        (Program.object_succeeds_iff otherDotFree.functions).symm
  have agree : Agree Listing.SameInstrs (compile options program)
      (compile (options.withEntry (naming options.entry)) (program.rename naming)) := by
    refine (Agree.of_exists_iff generated).bind fun object otherObject objects => ?_
    obtain ⟨isObject, isOther⟩ := objects
    obtain ⟨functions, assembled⟩ := Program.assembled_of_object isObject
    obtain ⟨others, otherAssembled⟩ := Program.assembled_of_object isOther
    have both : Relabelled naming options program object otherObject functions others :=
      ⟨assembled, otherAssembled, dotFree, otherDotFree⟩
    exact both.agree_link
  exact ⟨agree.exists_iff, fun _ _ => agree.of_ok⟩

/-- The entry function and the function that it calls exchange their names. -/
def exchangedNames : Renaming where
  map := Equiv.swap "main" "down"
  injective := Equiv.injective _
  fixes := by decide

theorem compile_rename_countdown : ∃ listing other, compile {} countdown = .ok listing ∧
    compile { entry := "down" } (countdown.rename exchangedNames) = .ok other ∧
    listing.SameInstrs other := by
  obtain ⟨listing, compiled⟩ := countdown_compiles
  have otherDotFree : (countdown.rename exchangedNames).DotFree := ⟨by decide, by decide⟩
  obtain ⟨condition, same⟩ := compile_rename exchangedNames countdown_dotFree otherDotFree
  obtain ⟨other, otherCompiled⟩ := condition.mp ⟨listing, compiled⟩
  have isEntry : exchangedNames ({} : Options).entry = "down" := by decide
  have sameInstrs := same listing other compiled otherCompiled
  rw [isEntry] at otherCompiled
  exact ⟨listing, other, compiled, otherCompiled, sameInstrs⟩

end Secd
