import Secd.Proofs.Linking

namespace Secd

open Results

/-! # Which programs have unique names of blocks

The name of a function may hold dots, and then it can be the name of an arm. Declaring a function
whose name a block already has is refused (`Program.object_of_taken`); giving an arm the name of an
earlier function is not, and the index forgets the function. That is the only way in which two
blocks get one name (`Assembled.nodup_iff`): the names that lie between a block and one of its arms
are names of arms again (`Yields.mem_names_of_between`), so two functions whose blocks share a name
have an arm of the one named like the other. So unique names, an index that leads back to every
block, and arms that keep away from the names of functions are one and the same
(`block_names_unique_iff`).
-/

/-! ## Names between a block and its arms -/

namespace Under

theorem antisymm {first second : String} (forth : Under first second) (back : Under second first) :
    first = second := by
  obtain ⟨rest, secondEq, -⟩ := forth
  obtain ⟨otherRest, firstEq, -⟩ := back
  have lengths := congrArg List.length firstEq
  rw [secondEq] at lengths
  simp only [List.length_append] at lengths
  have nothing : rest = [] := List.length_eq_zero_iff.mp (by omega)
  rw [nothing, List.append_nil] at secondEq
  exact String.toList_inj.mp secondEq.symm

/-- Of two names that one name continues, one continues the other. -/
theorem total {first second name : String} (ofFirst : Under first name)
    (ofSecond : Under second name) : Under first second ∨ Under second first := by
  obtain ⟨firstRest, nameEq, firstDot⟩ := ofFirst
  obtain ⟨secondRest, otherEq, secondDot⟩ := ofSecond
  rcases List.append_eq_append_iff.mp (nameEq.symm.trans otherEq) with
    ⟨between, secondEq, restEq⟩ | ⟨between, firstEq, restEq⟩
  · refine .inl ⟨between, secondEq, fun char isHead => firstDot char ?_⟩
    rw [restEq]
    cases between with
    | nil => cases isHead
    | cons _ _ => exact isHead
  · refine .inr ⟨between, firstEq, fun char isHead => secondDot char ?_⟩
    rw [restEq]
    cases between with
    | nil => cases isHead
    | cons _ _ => exact isHead

end Under

/-- Between a block and an arm of one of its conditionals there is no further name. -/
theorem eq_of_under_armName {block base : String} {position : Nat} {tag : String}
    (isTag : IsTag tag) (ofBlock : Under block base)
    (ofBase : Under base (armName block position tag)) :
    base = block ∨ base = armName block position tag := by
  obtain ⟨middle, baseEq, middleDot⟩ := ofBlock
  obtain ⟨rest, armEq, restDot⟩ := ofBase
  cases rest with
  | nil => exact .inr (String.toList_inj.mp (by simpa using armEq.symm))
  | cons dot rest =>
    obtain rfl := restDot dot rfl
    cases middle with
    | nil => exact .inl (String.toList_inj.mp (by simpa using baseEq))
    | cons char middle =>
      -- a second dot would have to be a digit or part of the tag
      rw [toList_armName, baseEq] at armEq
      simp only [List.append_assoc, List.cons_append, List.append_cancel_left_eq,
        List.cons.injEq] at armEq
      have isDot : '.' ∈ Nat.toDigits 10 position ++ tag.toList := by
        rw [armEq.2]
        simp
      rcases List.mem_append.mp isDot with isDigit | inTag
      · have digit : ('.' : Char).isDigit :=
          Nat.isDigit_of_mem_toDigits (by decide) (by decide) isDigit
        cases digit
      · rcases isTag with rfl | rfl <;> simp at inTag

/-- Whatever lies between the name of a block and that of an arm in it names an arm. -/
theorem Yields.mem_names_of_between {options : Options} {params : List String} {block : String}
    {position : Nat} {stmts : List Stmt} {fragment : Fragment}
    (yields : Yields options params block position stmts fragment) {base name : String}
    (ofBase : Under base name) : name ∈ fragment.arms.names → Under block base → base ≠ block →
      base ∈ fragment.arms.names := by
  induction yields with
  | nil block position => exact fun member => absurd member (by simp [Forest.names])
  | expr _ _ ih => simpa using ih
  | ret _ _ ih => simpa using ih
  | retNothing _ ih => exact ih
  | @ifElse block position cond thenArm elseArm test taken other rest tail compiled thenYields
      elseYields next ihThen ihElse ihNext =>
    intro member ofBlock isOther
    -- the name is that of an arm or of something nested there
    have inArm : ∀ {tag : String} {stmts : List Stmt} {arm : Fragment}, IsTag tag →
        Yields options params (armName block (position + test.length) tag) 0 stmts arm →
        (name ∈ arm.arms.names → Under (armName block (position + test.length) tag) base →
          base ≠ armName block (position + test.length) tag → base ∈ arm.arms.names) →
        name ∈ armName block (position + test.length) tag :: arm.arms.names →
        base ∈ armName block (position + test.length) tag :: arm.arms.names := by
      intro tag stmts arm isTag yields ih inArm
      have below : Under (armName block (position + test.length) tag) name := by
        rcases List.mem_cons.mp inArm with rfl | nested
        · exact .refl _
        · exact (yields.under_block nested).1
      by_cases isArm : base = armName block (position + test.length) tag
      · exact isArm ▸ List.mem_cons_self
      · rcases ofBase.total below with above | inside
        · rcases eq_of_under_armName isTag ofBlock above with same | same
          · exact absurd same isOther
          · exact absurd same isArm
        · rcases List.mem_cons.mp inArm with rfl | nested
          · exact absurd (ofBase.antisymm inside) isArm
          · exact List.mem_cons_of_mem _ (ih nested inside isArm)
    have split : (conditional block position test taken other ++ tail).arms.names =
        (armName block (position + test.length) "t" :: taken.arms.names) ++
          ((armName block (position + test.length) "f" :: other.arms.names) ++ tail.arms.names) := by
      simp [Forest.names]
    rw [split] at member ⊢
    rcases List.mem_append.mp member with inThen | later
    · exact List.mem_append_left _ (inArm (.inl rfl) thenYields ihThen inThen)
    · refine List.mem_append_right _ ?_
      rcases List.mem_append.mp later with inElse | inTail
      · exact List.mem_append_left _ (inArm (.inr rfl) elseYields ihElse inElse)
      · exact List.mem_append_right _ (ihNext inTail ofBlock isOther)

/-! ## Blocks of a generated program -/

namespace ObjectProgram

/-- The index leads from the name of every block back to this block. -/
def FindsBlocks (object : ObjectProgram) : Prop :=
  ∀ id block, object.blocks[id]? = some block → object.find? block.name = some id

/-- No arm has the name of a function. -/
def KeepsArmsApart (object : ObjectProgram) (functions : List FunctionDecl) : Prop :=
  ∀ id block, object.blocks[id]? = some block → id ∉ object.functions →
    block.name ∉ functions.map FunctionDecl.name

end ObjectProgram

/-- Between the body of a function and its last arm there is no other body. -/
theorem CompiledFunction.le_or_ge_of_mem_number {functions : List CompiledFunction} :
    ∀ {start id other : Nat} {function : CompiledFunction},
      (id, function) ∈ number start functions → other ∈ (number start functions).map Prod.fst →
      other ≤ id ∨ id + 1 + function.code.arms.size ≤ other := by
  induction functions with
  | nil => simp [number]
  | cons head rest ih =>
    intro start id other function isNumbered isOther
    have later : ∀ {number : Nat}, number ∈ (CompiledFunction.number
        (start + 1 + head.code.arms.size) rest).map Prod.fst →
        start + 1 + head.code.arms.size ≤ number := by
      intro number member
      obtain ⟨entry, isEntry, rfl⟩ := List.mem_map.mp member
      exact le_of_mem_number isEntry
    simp only [number, List.map_cons, List.mem_cons, Prod.mk.injEq] at isNumbered isOther
    rcases isNumbered with ⟨rfl, rfl⟩ | inRest
    · rcases isOther with rfl | otherInRest
      · exact .inl (Nat.le_refl _)
      · exact .inr (later otherInRest)
    · rcases isOther with rfl | otherInRest
      · have := le_of_mem_number inRest
        omega
      · exact ih inRest otherInRest

namespace Assembled

variable {options : Options} {sources : List FunctionDecl} {definitions : List (String × Expr)}
  {object : ObjectProgram} {functions : List CompiledFunction}

theorem map_name_blocks (assembled : Assembled options sources definitions object functions) :
    object.blocks.map Block.name = functions.flatMap CompiledFunction.names := by
  rw [assembled.blocks, CompiledFunction.map_name_blocksOf]

/-- The arms of a function are blocks that are no function bodies. -/
theorem exists_arm (assembled : Assembled options sources definitions object functions)
    {function : CompiledFunction} (member : function ∈ functions) {name : String}
    (isArm : name ∈ function.code.arms.names) :
    ∃ id block, object.blocks[id]? = some block ∧ id ∉ object.functions ∧ block.name = name := by
  rw [← CompiledFunction.map_snd_number 0 functions] at member
  obtain ⟨⟨number, numbered⟩, isNumbered, rfl⟩ := List.mem_map.mp member
  obtain ⟨before, after, split, place⟩ := CompiledFunction.blocksOf_split isNumbered
  simp only at isArm
  rw [← numbered.code.arms.map_name_place number (number + 1)] at isArm
  obtain ⟨block, isBlock, rfl⟩ := List.mem_map.mp isArm
  obtain ⟨index, atIndex⟩ := List.mem_iff_getElem?.mp isBlock
  obtain ⟨bound, -⟩ := List.getElem?_eq_some_iff.mp atIndex
  rw [Forest.length_place] at bound
  refine ⟨number + 1 + index, block, ?_, fun isBody => ?_, rfl⟩
  · rw [assembled.blocks, split, ← place, Nat.zero_add]
    rw [← place, Nat.zero_add] at atIndex
    simp only [CompiledFunction.blocks, List.append_assoc, List.cons_append]
    rw [List.getElem?_append_right (by omega), show before.length + 1 + index - before.length =
      index + 1 by omega, List.getElem?_cons_succ, List.getElem?_append_left (by simpa using bound)]
    exact atIndex
  · rw [assembled.numbers] at isBody
    rcases CompiledFunction.le_or_ge_of_mem_number isNumbered isBody with _ | _ <;> omega

/-- Two functions whose blocks share a name have an arm of the one named like the other. -/
theorem exists_clash (assembled : Assembled options sources definitions object functions)
    {first second : CompiledFunction} (isFirst : first ∈ functions) (isSecond : second ∈ functions)
    (differ : first.decl.name ≠ second.decl.name) {name : String} (inFirst : name ∈ first.names)
    (inSecond : name ∈ second.names) :
    second.decl.name ∈ first.code.arms.names ∨ first.decl.name ∈ second.code.arms.names := by
  have below : ∀ {function : CompiledFunction}, function ∈ functions → name ∈ function.names →
      Under function.decl.name name :=
    fun member => CompiledFunction.under_of_mem_names (assembled.code _ member)
  -- the longer of the two names lies between the shorter one and the name that is shared
  have between : ∀ {outer inner : CompiledFunction}, outer ∈ functions → inner ∈ functions →
      outer.decl.name ≠ inner.decl.name → name ∈ outer.names → name ∈ inner.names →
      Under outer.decl.name inner.decl.name → inner.decl.name ∈ outer.code.arms.names := by
    intro outer inner isOuter isInner distinct inOuter inInner nested
    obtain ⟨body, yields, -, arms⟩ := FunctionDecl.yields_of_code (assembled.code outer isOuter)
    rw [arms]
    refine yields.mem_names_of_between (below isInner inInner) ?_ nested distinct.symm
    rcases List.mem_cons.mp inOuter with rfl | inArms
    · exact absurd (nested.antisymm (below isInner inInner)) distinct
    · exact arms ▸ inArms
  rcases (below isFirst inFirst).total (below isSecond inSecond) with nested | nested
  · exact .inl (between isFirst isSecond differ inFirst inSecond nested)
  · exact .inr (between isSecond isFirst differ.symm inSecond inFirst nested)

/-- Names of blocks are unique exactly where no arm has the name of a function. -/
theorem nodup_iff (assembled : Assembled options sources definitions object functions) :
    (object.blocks.map Block.name).Nodup ↔ object.KeepsArmsApart sources := by
  constructor
  · intro nodup id block isBlock isArm isName
    obtain ⟨decl, isDecl, sameName⟩ := List.mem_map.mp isName
    obtain ⟨number, function, isNumbered, rfl⟩ := assembled.exists_numbered isDecl
    obtain ⟨body, isBody, named, -⟩ := assembled.getElem?_body isNumbered
    -- the body of that function would be this very block
    have armFound := assembled.find?_of_nodup nodup isBlock
    have bodyFound := assembled.find?_of_nodup nodup isBody
    rw [named, sameName, armFound] at bodyFound
    cases bodyFound
    refine isArm ?_
    rw [assembled.numbers]
    exact List.mem_map_of_mem isNumbered
  · intro apart
    have noClash : ∀ {outer inner : CompiledFunction}, outer ∈ functions → inner ∈ functions →
        inner.decl.name ∉ outer.code.arms.names := by
      intro outer inner isOuter isInner isArm
      obtain ⟨id, block, isBlock, noBody, named⟩ := assembled.exists_arm isOuter isArm
      refine apart id block isBlock noBody ?_
      rw [named]
      exact List.mem_map_of_mem (assembled.mem_sources isInner)
    rw [assembled.map_name_blocks]
    refine assembled.nodup_of_disjoint fun first isFirst second isSecond differ name inFirst
      inSecond => ?_
    rcases assembled.exists_clash isFirst isSecond differ inFirst inSecond with isArm | isArm
    · exact noClash isFirst isSecond isArm
    · exact noClash isSecond isFirst isArm

/-- An index that leads back to every block tells the blocks apart. -/
theorem nodup_iff_findsBlocks
    (assembled : Assembled options sources definitions object functions) :
    (object.blocks.map Block.name).Nodup ↔ object.FindsBlocks := by
  refine ⟨fun nodup id block isBlock => assembled.find?_of_nodup nodup isBlock, fun finds => ?_⟩
  rw [List.nodup_iff_injective_getElem]
  intro first second same
  simp only [List.getElem_map] at same
  have firstBound : first.val < object.blocks.length := by simpa using first.isLt
  have secondBound : second.val < object.blocks.length := by simpa using second.isLt
  have firstFound := finds first _ (List.getElem?_eq_getElem firstBound)
  have secondFound := finds second _ (List.getElem?_eq_getElem secondBound)
  rw [same, secondFound] at firstFound
  exact Fin.ext (Option.some.inj firstFound).symm

end Assembled

/-! ## Names that are taken -/

/-- A function whose name an earlier block has is reported. -/
theorem Program.object_of_taken {options : Options} {program : Program} {before after : List Decl}
    {decl : FunctionDecl} {earlier : ObjectProgram}
    (decls : program.decls = before ++ .function decl :: after)
    (generated : Program.object options ⟨program.name, before⟩ = .ok earlier)
    (taken : decl.name ∈ earlier.blocks.map Block.name) :
    program.object options = .error (.duplicateFunction decl.name) := by
  obtain ⟨functions, assembled⟩ := Program.assembled_of_object generated
  have known : (earlier.find? decl.name).isSome := by
    rw [Option.isSome_iff_ne_none]
    exact fun absent => assembled.name_mem_index absent taken
  simp only [Program.object] at generated ⊢
  rw [decls, List.foldlM_append, generated, ok_bind, List.foldlM_cons]
  simp [ObjectProgram.declare, ObjectProgram.declareFunction, ObjectProgram.requireFresh, known]

/-- The names of the blocks of a listing are different exactly where the index of the object program
leads from each block's name back to the block, and that is so exactly where no arm has the name of
a function; names of functions without a dot are enough. A function whose name an earlier block has
is reported. -/
theorem block_names_unique_iff (options : Options) (program : Program) :
    (∀ object listing, program.object options = .ok object → object.link options = .ok listing →
      ((listing.blocks.map PlacedBlock.name).Nodup ↔ object.FindsBlocks) ∧
      ((listing.blocks.map PlacedBlock.name).Nodup ↔ object.KeepsArmsApart program.functions) ∧
      ((∀ decl ∈ program.functions, DotFree decl.name) →
        (listing.blocks.map PlacedBlock.name).Nodup)) ∧
    ∀ before decl after earlier, program.decls = before ++ .function decl :: after →
      Program.object options ⟨program.name, before⟩ = .ok earlier →
      decl.name ∈ earlier.blocks.map Block.name →
      program.object options = .error (.duplicateFunction decl.name) := by
  refine ⟨fun object listing generated linked => ?_, fun before decl after earlier decls ofBefore =>
    Program.object_of_taken decls ofBefore⟩
  obtain ⟨functions, id, main, table, joined⟩ := Joined.of_link generated linked
  -- linking reorders the blocks and keeps their names
  have sameNames : (listing.blocks.map PlacedBlock.name).Nodup ↔
      (object.blocks.map Block.name).Nodup := by
    rw [joined.map_name_blocks, joined.assembled.map_name_blocks]
    exact (joined.order_perm.flatMap_right _).nodup_iff
  rw [sameNames]
  refine ⟨joined.assembled.nodup_iff_findsBlocks, joined.assembled.nodup_iff, fun dotFree => ?_⟩
  rw [joined.assembled.map_name_blocks]
  exact joined.assembled.nodup_names dotFree (List.Perm.refl _)

/-- A function that is named like the first arm of a later one. -/
def shadowedArm : Program where
  name := "p"
  decls := [
    .function ⟨"main.1t", [], [.expr (.int 7)]⟩,
    .function ⟨"main", ["x"], [.ifElse (.ident "x") [.expr (.int 1)] none]⟩]

/-- The program is accepted with two blocks of one name, and the branch enters the function. -/
theorem shadowedArm_clashes :
    ∃ listing, compile {} shadowedArm = .ok listing ∧
      listing.blocks.map PlacedBlock.label =
        [("main", 5), ("main.1t", 8), ("main.1f", 10), ("main.1t", 11)] ∧
      (⟨.sel, [.offset 11, .offset 10], some "main.1t main.1f"⟩ : Instr) ∈ listing.instructions ∧
      ¬ (listing.blocks.map PlacedBlock.name).Nodup := by
  obtain ⟨listing, compiled, holds⟩ := exists_ok_of_any (compile {} shadowedArm)
    (fun listing => listing.blocks.map PlacedBlock.label =
        [("main", 5), ("main.1t", 8), ("main.1f", 10), ("main.1t", 11)] ∧
      (⟨.sel, [.offset 11, .offset 10], some "main.1t main.1f"⟩ : Instr) ∈ listing.instructions)
    (by decide)
  obtain ⟨labels, branch⟩ := of_decide_eq_true holds
  refine ⟨listing, compiled, labels, branch, ?_⟩
  have names := congrArg (List.map Prod.fst) labels
  rw [List.map_map] at names
  exact names ▸ by decide

end Secd
