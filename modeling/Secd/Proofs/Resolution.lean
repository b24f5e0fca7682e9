import Secd.Proofs.Expansion
import Secd.Proofs.Linking

namespace Secd

open Results

/-! # What becomes of instructions

`Settles depth context code out` says by rules that linking turns `code` into `out`, both without
comments: a name in scope becomes an address, the name of a constant becomes what the constant
stands for, and the names in a branch become offsets. Inside the value of a constant variables are
out of sight, but functions can still be called. At most `depth` constants are opened inside each
other.

Every block of a listing is settled in this sense (`Linked.settles`). In particular no closure of a
name is left: a name that is called and is not in scope is refused when it is the entry function,
and names no block otherwise.
-/

/-- Where code stands: in a function, or in the value of a constant. -/
inductive Context where
  | function
  | constant
  deriving DecidableEq, Repr

/-- Linked code by rules. -/
inductive Settles (scope : Scope) (constants : Constants) (blocks : List PlacedBlock) :
    Nat → Context → List Instr → List Instr → Prop where
  | nil (depth : Nat) (context : Context) : Settles scope constants blocks depth context [] []
  | keep {depth : Nat} {context : Context} {instr : Instr} {rest out : List Instr}
      (noName : instr.reference? = none) (noBlocks : instr.opcode.takesBlocks = false)
      (next : Settles scope constants blocks depth context rest out) :
    Settles scope constants blocks depth context (instr :: rest) (instr :: out)
  | branch {depth : Nat} {context : Context} {thenName elseName : String}
      {thenOffset elseOffset : Nat} {rest out : List Instr}
      (isThen : targetOffset? blocks thenName = some thenOffset)
      (isElse : targetOffset? blocks elseName = some elseOffset)
      (next : Settles scope constants blocks depth context rest out) :
    Settles scope constants blocks depth context (.sel thenName elseName :: rest)
      (⟨.sel, [.offset thenOffset, .offset elseOffset], none⟩ :: out)
  | bound {depth : Nat} {context : Context} {instr : Instr} {name : String} {address : Address}
      {rest out : List Instr} (refers : instr.reference? = some name)
      (visible : context = .constant → constants.body? name = none ∧ instr.opcode = .ldf)
      (found : scope.address? name = some address)
      (next : Settles scope constants blocks depth context rest out) :
    Settles scope constants blocks depth context (instr :: rest) (.ldAddress address :: out)
  | inline {depth : Nat} {context : Context} {instr : Instr} {name : String}
      {body code rest out : List Instr} (refers : instr.reference? = some name)
      (unbound : context = .function → scope.address? name = none)
      (defined : constants.body? name = some body)
      (inside : Settles scope constants blocks depth .constant (body.map Instr.uncommented) code)
      (next : Settles scope constants blocks (depth + 1) context rest out) :
    Settles scope constants blocks (depth + 1) context (instr :: rest) (code ++ out)

namespace Settles

variable {scope : Scope} {constants : Constants} {blocks : List PlacedBlock}

theorem mono {depth : Nat} {context : Context} {code out : List Instr}
    (settles : Settles scope constants blocks depth context code out) :
    ∀ {larger : Nat}, depth ≤ larger → Settles scope constants blocks larger context code out := by
  induction settles with
  | nil _ context => exact fun _ => .nil _ context
  | keep noName noBlocks _ ih => exact fun le => .keep noName noBlocks (ih le)
  | branch isThen isElse _ ih => exact fun le => .branch isThen isElse (ih le)
  | bound refers visible found _ ih => exact fun le => .bound refers visible found (ih le)
  | @inline depth _ _ _ _ _ _ _ refers unbound defined _ _ ihInside ihNext =>
    intro larger le
    obtain ⟨smaller, rfl⟩ : ∃ smaller, larger = smaller + 1 := ⟨larger - 1, by omega⟩
    exact .inline refers unbound defined (ihInside (by omega)) (ihNext le)

/-- Code that follows other code is settled on its own. -/
theorem append {depth : Nat} {context : Context} {first second out : List Instr}
    (settles : Settles scope constants blocks depth context (first ++ second) out) :
    ∃ before after, out = before ++ after ∧
      Settles scope constants blocks depth context first before ∧
      Settles scope constants blocks depth context second after := by
  induction first generalizing out with
  | nil => exact ⟨[], out, rfl, .nil depth context, settles⟩
  | cons instr rest ih =>
    cases settles with
    | keep noName noBlocks next =>
      obtain ⟨before, after, rfl, ofRest, ofSecond⟩ := ih next
      exact ⟨instr :: before, after, rfl, .keep noName noBlocks ofRest, ofSecond⟩
    | branch isThen isElse next =>
      obtain ⟨before, after, rfl, ofRest, ofSecond⟩ := ih next
      exact ⟨_ :: before, after, rfl, .branch isThen isElse ofRest, ofSecond⟩
    | bound refers visible found next =>
      obtain ⟨before, after, rfl, ofRest, ofSecond⟩ := ih next
      exact ⟨_ :: before, after, rfl, .bound refers visible found ofRest, ofSecond⟩
    | @inline _ _ _ _ _ code _ _ refers unbound defined inside next =>
      obtain ⟨before, after, rfl, ofRest, ofSecond⟩ := ih next
      exact ⟨code ++ before, after, by rw [List.append_assoc],
        .inline refers unbound defined inside ofRest, ofSecond⟩

/-- An instruction that refers to nothing and enters no block is all that becomes of it. -/
theorem keep_inv {depth : Nat} {context : Context} {instr : Instr} {rest out : List Instr}
    (settles : Settles scope constants blocks depth context (instr :: rest) out)
    (noName : instr.reference? = none) (noBlocks : instr.opcode.takesBlocks = false) :
    ∃ after, out = instr :: after ∧ Settles scope constants blocks depth context rest after := by
  cases settles with
  | keep _ _ next => exact ⟨_, rfl, next⟩
  | branch _ _ _ => cases noBlocks
  | bound refers _ _ _ =>
    rw [noName] at refers
    cases refers
  | inline refers _ _ _ _ =>
    rw [noName] at refers
    cases refers

theorem branch_inv {depth : Nat} {context : Context} {thenName elseName : String}
    {rest out : List Instr}
    (settles : Settles scope constants blocks depth context (.sel thenName elseName :: rest) out) :
    ∃ thenOffset elseOffset after, targetOffset? blocks thenName = some thenOffset ∧
      targetOffset? blocks elseName = some elseOffset ∧
      out = ⟨.sel, [.offset thenOffset, .offset elseOffset], none⟩ :: after ∧
      Settles scope constants blocks depth context rest after := by
  cases settles with
  | keep _ noBlocks _ => cases noBlocks
  | branch isThen isElse next => exact ⟨_, _, _, isThen, isElse, rfl, next⟩
  | bound refers _ _ _ => cases refers
  | inline refers _ _ _ _ => cases refers

/-- Code that refers to nothing and enters no block stays as it is. -/
theorem eq_of_keep {depth : Nat} {context : Context} {code out : List Instr}
    (settles : Settles scope constants blocks depth context code out) :
    (∀ instr ∈ code, instr.reference? = none ∧ instr.opcode.takesBlocks = false) → out = code := by
  induction code generalizing out with
  | nil =>
    intro _
    cases settles
    rfl
  | cons instr rest ih =>
    intro keeps
    obtain ⟨noName, noBlocks⟩ := keeps instr List.mem_cons_self
    obtain ⟨after, rfl, next⟩ := settles.keep_inv noName noBlocks
    rw [ih next fun other member => keeps other (List.mem_cons_of_mem _ member)]

end Settles

/-! ## Patched instructions -/

/-- An instruction with the names of blocks replaced, its comment apart. -/
def Patches (blocks : List PlacedBlock) (instr out : Instr) : Prop :=
  ∃ block args, instr.patchArgs blocks block = .ok args ∧ out = ⟨instr.opcode, args, none⟩

theorem patches_of_patch {options : Options} {blocks : List PlacedBlock} {block : String}
    {instr out : Instr} (patched : instr.patch options blocks block = .ok out) :
    Patches blocks instr out.uncommented := by
  obtain ⟨args, argsOk, rfl⟩ := Instr.patch_eq_ok.mp patched
  exact ⟨block, args, argsOk, rfl⟩

namespace Patches

variable {blocks : List PlacedBlock} {instr out : Instr}

theorem eq_uncommented (patches : Patches blocks instr out)
    (noBlocks : instr.opcode.takesBlocks = false) : out = instr.uncommented := by
  obtain ⟨block, args, argsOk, rfl⟩ := patches
  simp only [Instr.patchArgs, noBlocks, Bool.false_eq_true, if_false, Except.ok.injEq] at argsOk
  subst argsOk
  rfl

theorem target_of_closure {name : String} {comment : Option String}
    (patches : Patches blocks ⟨.ldf, [.name name], comment⟩ out) :
    ∃ position, targetOffset? blocks name = some position ∧
      out = ⟨.ldf, [.offset position], none⟩ := by
  obtain ⟨block, args, argsOk, rfl⟩ := patches
  cases found : targetOffset? blocks name with
  | some position =>
    refine ⟨position, rfl, ?_⟩
    simp [Instr.patchArgs, Opcode.takesBlocks, Operand.patch, found] at argsOk
    simp [← argsOk]
  | none => simp [Instr.patchArgs, Opcode.takesBlocks, Operand.patch, found] at argsOk

theorem targets_of_branch {thenName elseName : String} {comment : Option String}
    (patches : Patches blocks ⟨.sel, [.name thenName, .name elseName], comment⟩ out) :
    ∃ thenOffset elseOffset, targetOffset? blocks thenName = some thenOffset ∧
      targetOffset? blocks elseName = some elseOffset ∧
      out = ⟨.sel, [.offset thenOffset, .offset elseOffset], none⟩ := by
  obtain ⟨block, args, argsOk, rfl⟩ := patches
  cases isThen : targetOffset? blocks thenName with
  | none => simp [Instr.patchArgs, Opcode.takesBlocks, Operand.patch, isThen] at argsOk
  | some thenOffset =>
    cases isElse : targetOffset? blocks elseName with
    | none => simp [Instr.patchArgs, Opcode.takesBlocks, Operand.patch, isThen, isElse] at argsOk
    | some elseOffset =>
      refine ⟨thenOffset, elseOffset, rfl, rfl, ?_⟩
      simp [Instr.patchArgs, Opcode.takesBlocks, Operand.patch, isThen, isElse] at argsOk
      simp [← argsOk]

end Patches

/-! ## Resolved instructions are settled -/

/-- What mentions no name enters no block. -/
theorem Straight.takesBlocks_eq_false {called : CallSite → Prop} {instr : Instr}
    (straight : Straight called instr) (noName : instr.reference? = none) :
    instr.opcode.takesBlocks = false := by
  cases straight with
  | closure _ _ => cases noName
  | @operation opcode computes comment => cases opcode <;> trivial
  | _ => rfl

namespace Site

/-- What becomes of an instruction of an expanded constant. -/
def Closes (site : Site) (blocks : List PlacedBlock) (instr out : Instr) : Prop :=
  ∃ middle, site.resolveClosure instr = .ok middle ∧ Patches blocks middle out

/-- What is called and names no function names no block either. -/
def Unplaced (site : Site) (blocks : List PlacedBlock) (called : CallSite → Prop) : Prop :=
  ∀ call, called call → site.program.function? call.func = none →
    targetOffset? blocks call.func = none

variable {site : Site} {blocks : List PlacedBlock} {called : CallSite → Prop}

theorem resolveClosure_of_takesBlocks (site : Site) {instr : Instr}
    (noBlocks : instr.opcode.takesBlocks = false) : site.resolveClosure instr = .ok instr := by
  unfold resolveClosure
  split
  · simp_all [Opcode.takesBlocks]
  · rfl

/-- An instruction of an expanded constant stays as it is, unless it makes a closure. That of a name
in scope becomes a load; no other can be placed. -/
theorem Closes.cases (unplaced : site.Unplaced blocks called) {instr out : Instr}
    (straight : Straight called instr) (closes : site.Closes blocks instr out) :
    (instr.reference? = none ∧ instr.opcode.takesBlocks = false ∧ out = instr.uncommented) ∨
      (∃ name, instr.reference? = some name ∧ instr.opcode = .ld) ∨
      ∃ name address, instr.reference? = some name ∧ instr.opcode = .ldf ∧
        site.scope.address? name = some address ∧ out = .ldAddress address := by
  obtain ⟨middle, resolved, patches⟩ := closes
  cases refers : instr.reference? with
  | none =>
    have noBlocks := straight.takesBlocks_eq_false refers
    rw [resolveClosure_of_takesBlocks site noBlocks] at resolved
    cases resolved
    exact .inl ⟨rfl, noBlocks, patches.eq_uncommented noBlocks⟩
  | some name =>
    rcases Instr.opcode_of_reference? refers with isLoad | isClosure
    · exact .inr (.inl ⟨name, rfl, isLoad⟩)
    · obtain ⟨call, comment, isCalled, rfl⟩ := straight.eq_of_closure isClosure
      cases refers
      refine .inr (.inr ⟨call.func, ?_⟩)
      simp only [resolveClosure, Instr.symbol?] at resolved
      cases found : site.scope.address? call.func with
      | some address =>
        simp only [found, Except.ok.injEq] at resolved
        subst resolved
        exact ⟨address, rfl, rfl, rfl, patches.eq_uncommented rfl⟩
      | none =>
        -- the name would have to be that of a block
        simp only [found] at resolved
        split at resolved
        · cases resolved
        · rename_i noFunction
          cases resolved
          obtain ⟨position, placed, -⟩ := patches.target_of_closure
          rw [unplaced call isCalled (by simpa using noFunction)] at placed
          cases placed

/-- A closure that can be placed is one of a name in scope. -/
theorem Closes.address_of_closure (unplaced : site.Unplaced blocks called) {instr out : Instr}
    (straight : Straight called instr) (closes : site.Closes blocks instr out) {name : String}
    (refers : instr.reference? = some name) (isClosure : instr.opcode = .ldf) :
    (site.scope.address? name).isSome := by
  rcases closes.cases unplaced straight with
    ⟨noName, -⟩ | ⟨_, -, isLoad⟩ | ⟨other, address, otherRefers, -, found, -⟩
  · rw [refers] at noName
    cases noName
  · rw [isClosure] at isLoad
    cases isLoad
  · rw [refers] at otherRefers
    cases otherRefers
    rw [found]
    rfl

/-- The expansion of a constant, with its comments changed or not, becomes what the constant stands
for at the place of its use. -/
theorem settles_of_expansion (unplaced : site.Unplaced blocks called) {constants : Constants}
    (ofConstants : ∀ name body, constants.body? name = some body →
      ∀ instr ∈ body, Straight called instr) {code result : List Instr}
    (expansion : Expansion constants code result) :
    (∀ instr ∈ code, Straight called instr) → ∀ {spliced outs : List Instr},
      spliced.map Instr.uncommented = result.map Instr.uncommented →
      List.Forall₂ (site.Closes blocks) spliced outs →
      ∃ depth, Settles site.scope constants blocks depth .constant (code.map Instr.uncommented)
        outs := by
  induction expansion with
  | nil =>
    intro _ spliced outs same closes
    obtain rfl : spliced = [] := by simpa using same
    cases closes
    exact ⟨0, .nil 0 .constant⟩
  | @keep instr rest result kept next ih =>
    intro ofCode spliced outs same closes
    obtain ⟨copy, copies, rfl, sameHead, sameRest⟩ := List.map_eq_cons_iff.mp same
    cases closes with
    | @cons _ out _ outs head tail =>
      obtain ⟨depth, settles⟩ := ih
        (fun other member => ofCode other (List.mem_cons_of_mem _ member)) sameRest tail
      -- comments apart, the copy is the instruction that was kept
      have straight := (ofCode instr List.mem_cons_self).recommented sameHead
      have sameReference : instr.uncommented.reference? = copy.uncommented.reference? := by
        rw [sameHead]
      have sameOpcode : instr.uncommented.opcode = copy.uncommented.opcode := by rw [sameHead]
      refine ⟨depth, ?_⟩
      rw [List.map_cons, ← sameHead]
      rcases head.cases unplaced straight with
        ⟨noName, noBlocks, rfl⟩ | ⟨name, refers, isLoad⟩ | ⟨name, address, refers, isClosure, found, rfl⟩
      · exact .keep noName noBlocks settles
      · have isClosure := (kept name (sameReference.trans refers)).2
        cases isClosure.symm.trans (sameOpcode.trans isLoad)
      · exact .bound refers (fun _ => ⟨(kept name (sameReference.trans refers)).1, isClosure⟩) found
          settles
  | @inline instr name body inner rest result refers defined inside next ihInside ihNext =>
    intro ofCode spliced outs same closes
    rw [List.map_append] at same
    -- the copy of the inner expansion comes first; its comments may have been filled in
    obtain ⟨copies, others, rfl, sameInner, sameRest⟩ := List.map_eq_append_iff.mp same
    obtain ⟨innerOuts, restOuts, rfl, innerCloses, restCloses⟩ := forall₂_append closes
    obtain ⟨innerDepth, innerSettles⟩ := ihInside (ofConstants name body defined)
      (by rw [sameInner, Instr.splice, List.map_map]; rfl) innerCloses
    obtain ⟨restDepth, restSettles⟩ := ihNext
      (fun other member => ofCode other (List.mem_cons_of_mem _ member)) sameRest restCloses
    exact ⟨max innerDepth restDepth + 1, .inline refers (by simp) defined
      (innerSettles.mono (by omega)) (restSettles.mono (by omega))⟩

/-- What an instruction becomes that mentions no name but those of arms. -/
theorem settles_of_patches {constants : Constants} {arm : String → Prop} {instr out : Instr}
    (ofBlock : BlockInstr called arm instr) (noName : instr.reference? = none)
    (patches : Patches blocks instr out) {depth : Nat} {rest outs : List Instr}
    (next : Settles site.scope constants blocks depth .function rest outs) :
    Settles site.scope constants blocks depth .function (instr.uncommented :: rest)
      (out :: outs) := by
  have keeps (noBlocks : instr.opcode.takesBlocks = false) :
      Settles site.scope constants blocks depth .function (instr.uncommented :: rest)
        (out :: outs) := by
    rw [patches.eq_uncommented noBlocks]
    exact .keep noName noBlocks next
  cases ofBlock with
  | straight isStraight => exact keeps (isStraight.takesBlocks_eq_false noName)
  | branch isThen isElse comment =>
    obtain ⟨thenOffset, elseOffset, thenPlaced, elsePlaced, rfl⟩ := patches.targets_of_branch
    exact .branch thenPlaced elsePlaced next
  | join => exact keeps rfl
  | rtn => exact keeps rfl

/-- What an instruction of a function becomes, whatever comes after it. -/
theorem settles_of_resolve (unplaced : site.Unplaced blocks called) {constants : Constants}
    (ofConstants : ∀ name body, constants.body? name = some body →
      ∀ instr ∈ body, Straight called instr)
    (expanded : constants.expandAll = .ok site.constants) {arm : String → Prop} {instr : Instr}
    (ofBlock : BlockInstr called arm instr) {part outs : List Instr}
    (resolved : site.resolve instr = .ok part) (patches : List.Forall₂ (Patches blocks) part outs) :
    ∃ least, ∀ depth, least ≤ depth → ∀ {rest out : List Instr},
      Settles site.scope constants blocks depth .function rest out →
      Settles site.scope constants blocks depth .function (instr.uncommented :: rest)
        (outs ++ out) := by
  cases refers : instr.reference? with
  | none =>
    simp only [resolve, refers, Except.ok.injEq] at resolved
    subst resolved
    obtain ⟨out, patched, rfl⟩ := forall₂_singleton patches
    exact ⟨0, fun depth _ rest out next => settles_of_patches ofBlock refers patched next⟩
  | some name =>
    simp only [resolve, refers] at resolved
    cases found : site.scope.address? name with
    | some address =>
      simp only [found, Except.ok.injEq] at resolved
      subst resolved
      obtain ⟨out, patched, rfl⟩ := forall₂_singleton patches
      rw [patched.eq_uncommented rfl]
      exact ⟨0, fun depth _ rest out next => .bound refers (by simp) found next⟩
    | none =>
      simp only [found] at resolved
      rcases Constants.lookup_of_expandAll expanded name with
        ⟨-, undefined⟩ | ⟨result, defined, body, hasBody, expansion⟩
      · -- neither a variable nor a constant: a closure of it could not be placed
        simp only [undefined] at resolved
        split at resolved
        · rename_i isClosure
          obtain ⟨middle, closed, rfl⟩ := by simpa only [bind_eq_ok, pure_eq_ok] using resolved
          obtain ⟨out, patched, rfl⟩ := forall₂_singleton patches
          have address := Closes.address_of_closure unplaced (ofBlock.straight_of_reference? refers)
            ⟨middle, closed, patched⟩ refers isClosure
          rw [found] at address
          cases address
        · cases resolved
      · -- the code of a constant is settled where the constant is mentioned
        simp only [defined] at resolved
        obtain ⟨closed, closedOk, rfl⟩ := by simpa only [bind_eq_ok, pure_eq_ok] using resolved
        rw [Instr.splice, List.forall₂_map_left_iff] at patches
        have closes : List.Forall₂ (site.Closes blocks) result outs :=
          forall₂_trans (fun _ middle _ isClosed isPatched => ⟨middle, isClosed, isPatched⟩)
            (mapM_eq_ok.mp closedOk) patches
        obtain ⟨least, inside⟩ := settles_of_expansion unplaced ofConstants expansion
          (ofConstants name body hasBody) rfl closes
        refine ⟨least + 1, fun depth enough rest out next => ?_⟩
        obtain ⟨smaller, rfl⟩ : ∃ smaller, depth = smaller + 1 := ⟨depth - 1, by omega⟩
        exact .inline refers (fun _ => found) hasBody (inside.mono (by omega)) next

/-- What the instructions of a block become. -/
theorem settles_of_resolveAll (unplaced : site.Unplaced blocks called) {constants : Constants}
    (ofConstants : ∀ name body, constants.body? name = some body →
      ∀ instr ∈ body, Straight called instr)
    (expanded : constants.expandAll = .ok site.constants) {arm : String → Prop}
    {instrs : List Instr} : (∀ instr ∈ instrs, BlockInstr called arm instr) →
    ∀ {middle outs : List Instr}, site.resolveAll instrs = .ok middle →
      List.Forall₂ (Patches blocks) middle outs →
      ∃ depth, Settles site.scope constants blocks depth .function (instrs.map Instr.uncommented)
        outs := by
  induction instrs with
  | nil =>
    intro _ middle outs resolved patches
    cases resolved
    cases patches
    exact ⟨0, .nil 0 .function⟩
  | cons instr rest ih =>
    intro ofBlock middle outs resolved patches
    obtain ⟨part, partOk, parts, partsOk, rfl⟩ := by
      simpa only [resolveAll, List.mapM_cons, bind_eq_ok, pure_eq_ok, exists_eq_left, exists_and_left,
        bind_assoc, pure_bind] using resolved
    rw [List.flatten_cons] at patches
    obtain ⟨headOuts, restOuts, rfl, headPatches, restPatches⟩ := forall₂_append patches
    obtain ⟨restDepth, restSettles⟩ := ih
      (fun other member => ofBlock other (List.mem_cons_of_mem _ member))
      (by rw [resolveAll, partsOk]; rfl) restPatches
    obtain ⟨least, headSettles⟩ := settles_of_resolve unplaced ofConstants expanded
      (ofBlock instr List.mem_cons_self) partOk headPatches
    exact ⟨max least restDepth, headSettles _ (by omega) (restSettles.mono (by omega))⟩

end Site

/-! ## Blocks of a listing -/

/-- The code of functions is made of the instructions of blocks. -/
theorem Assembled.blockInstr {options : Options} {program : Program} {object : ObjectProgram}
    {functions : List CompiledFunction}
    (assembled : Assembled options program.functions program.constants object functions)
    {function : CompiledFunction} (member : function ∈ functions) (id : Nat) :
    ∀ block ∈ function.blocks id, ∀ instr ∈ block.instrs,
      BlockInstr (· ∈ program.calls) (· ∈ function.code.arms.names) instr := by
  obtain ⟨body, yields, instrs, arms⟩ := FunctionDecl.yields_of_code (assembled.code function member)
  have calls : ∀ expr ∈ Stmt.exprsOfAll function.decl.body, ∀ site ∈ expr.calls,
      site ∈ program.calls := by
    intro expr isExpr site isCall
    refine List.mem_flatMap.mpr ⟨expr, List.mem_append_left _ ?_, isCall⟩
    exact List.mem_flatMap.mpr ⟨function.decl, assembled.mem_sources member, isExpr⟩
  obtain ⟨ofBody, ofArms⟩ := yields.blockInstr calls
    fun name (isArm : name ∈ body.arms.names) => isArm
  intro block isBlock instr isInstr
  rcases List.mem_cons.mp isBlock with rfl | inArms
  · rw [instrs] at isInstr
    rcases List.mem_append.mp isInstr with inBody | isLast
    · exact arms ▸ ofBody instr inBody
    · rw [List.mem_singleton.mp isLast]
      exact .rtn
  · rw [arms] at inArms
    exact arms ▸ ofArms _ _ block inArms instr isInstr

/-- The values of constants are made of straight code. -/
theorem Assembled.straight {options : Options} {program : Program} {object : ObjectProgram}
    {functions : List CompiledFunction}
    (assembled : Assembled options program.functions program.constants object functions) :
    ∀ name body, object.constants.body? name = some body →
      ∀ instr ∈ body, Straight (· ∈ program.calls) instr := by
  intro name body hasBody instr member
  cases defined : program.constants.lookup name with
  | none =>
    rw [assembled.constants.absent name defined] at hasBody
    cases hasBody
  | some value =>
    obtain ⟨code, compiled, other, hasOther, same⟩ := assembled.constants.present name value defined
    rw [hasBody] at hasOther
    cases hasOther
    have listed : instr.uncommented ∈ code.map Instr.uncommented :=
      same ▸ List.mem_map_of_mem member
    obtain ⟨original, isOriginal, sameInstr⟩ := List.mem_map.mp listed
    refine ((Expr.straight_of_code compiled original isOriginal).recommented sameInstr.symm).mono ?_
    intro site isCall
    refine List.mem_flatMap.mpr ⟨value, List.mem_append_right _ ?_, isCall⟩
    obtain ⟨before, after, split, -⟩ := List.lookup_eq_some_iff.mp defined
    exact List.mem_map.mpr ⟨(name, value), by simp [split], rfl⟩

/-- Expanded constants are made of straight code. -/
theorem Assembled.straight_of_expandAll {options : Options} {program : Program}
    {object : ObjectProgram} {functions : List CompiledFunction}
    (assembled : Assembled options program.functions program.constants object functions)
    {table : Constants} (expanded : object.constants.expandAll = .ok table) :
    ∀ name result, table.body? name = some result →
      ∀ instr ∈ result, Straight (· ∈ program.calls) instr := by
  intro name result known
  obtain ⟨body, hasBody, expansion⟩ := Constants.exists_of_expandAll expanded known
  exact expansion.forall_mem (Straight (· ∈ program.calls))
    (fun instr comment isStraight => isStraight.recommented (by simp)) assembled.straight
    (assembled.straight name body hasBody)

/-- A placed block is what becomes of a block of the object program. -/
def SettlesBlock (constants : Constants) (blocks : List PlacedBlock) (depth : Nat)
    (site : Scope × Block) (placed : PlacedBlock) : Prop :=
  placed.name = site.2.name ∧
    Settles site.1 constants blocks depth .function (site.2.instrs.map Instr.uncommented)
      (placed.instrs.map Instr.uncommented)

/-- Every block of a listing is settled in the scope of its function. -/
theorem Linked.settles {options : Options} {program : Program} {object : ObjectProgram}
    {functions : List CompiledFunction} {id : Nat} {main : CompiledFunction} {table : Constants}
    {listing : Listing} (linked : Linked options program object functions id main table listing) :
    ∃ depth, List.Forall₂ (SettlesBlock object.constants listing.blocks depth)
      (((id, main) :: CompiledFunction.others options.entry functions).flatMap
        (CompiledFunction.sites program.functions main.decl)) listing.blocks := by
  refine exists_bound_of_forall₂ (R := SettlesBlock object.constants listing.blocks)
    (fun le settles => ⟨settles.1, settles.2.mono le⟩) ?_
  refine forall₂_imp_of_mem linked.blocks ?_
  rintro ⟨scope, block⟩ member placed ⟨named, middle, resolved, patched⟩
  obtain ⟨⟨number, function⟩, isFunction, isSite⟩ := List.mem_flatMap.mp member
  obtain ⟨other, isBlock, same⟩ := List.mem_map.mp isSite
  cases same
  have isSource : function ∈ functions :=
    linked.order_perm.mem_iff.mp (List.mem_map_of_mem (f := Prod.snd) isFunction)
  have unplaced : Site.Unplaced
      ⟨object, table, block.name, framesOf program.functions main.decl function.decl⟩
      listing.blocks (· ∈ program.calls) := by
    intro call isCall noFunction
    exact targetOffset?_eq_none_iff.mpr
      (linked.not_mem_names (linked.dotFree.calls call isCall) noFunction)
  obtain ⟨depth, settles⟩ := Site.settles_of_resolveAll unplaced linked.assembled.straight
    linked.expanded (linked.assembled.blockInstr isSource number block isBlock) resolved
    (List.forall₂_map_right_iff.mpr ((mapM_eq_ok.mp patched).imp fun _ _ => patches_of_patch))
  exact ⟨depth, named, settles⟩

end Secd
