import Secd.Proofs.Occurrences
import Secd.Proofs.Passes

namespace Secd

open Results

/-! # Calls inside constants

Where a block mentions a constant, the code of the constant's value stands in its place, and what
that code calls is looked up in the scope of the block (`Site.Inlines`). So a call inside a constant
should load what a call in the block itself loads (`Site.Calls`): a variable in scope, or else a
constant. It does for every name that is not both (`constant_call_eq_direct_call`). A name that is
both goes astray. Expansion takes it for the constant before it is known which block will mention
the constant, and the variable in scope is never looked for (`ambiguousCallee_differs`).
-/

/-! ## Comments do not matter -/

theorem Expansion.append {constants : Constants} {first second result : List Instr}
    (expansion : Expansion constants (first ++ second) result) :
    ∃ before after, result = before ++ after ∧ Expansion constants first before ∧
      Expansion constants second after := by
  induction first generalizing result with
  | nil => exact ⟨[], result, rfl, .nil, expansion⟩
  | cons instr rest ih =>
    cases expansion with
    | keep kept next =>
      obtain ⟨before, after, rfl, ofRest, ofSecond⟩ := ih next
      exact ⟨instr :: before, after, rfl, .keep kept ofRest, ofSecond⟩
    | @inline _ _ _ inner _ _ refers defined inside next =>
      obtain ⟨before, after, rfl, ofRest, ofSecond⟩ := ih next
      exact ⟨instr.splice inner ++ before, after, by rw [List.append_assoc],
        .inline refers defined inside ofRest, ofSecond⟩

theorem Expansion.recommented {constants : Constants} {code result : List Instr}
    (expansion : Expansion constants code result) : ∀ {other : List Instr},
      other.map Instr.uncommented = code.map Instr.uncommented →
      ∃ otherResult, Expansion constants other otherResult ∧
        otherResult.map Instr.uncommented = result.map Instr.uncommented := by
  induction expansion with
  | nil =>
    intro other same
    obtain rfl : other = [] := by simpa using same
    exact ⟨[], .nil, rfl⟩
  | @keep instr rest result kept _ ih =>
    intro other same
    obtain ⟨copy, copies, rfl, sameHead, sameRest⟩ := List.map_eq_cons_iff.mp same
    obtain ⟨otherResult, ofCopies, sameResult⟩ := ih sameRest
    have sameReference : copy.uncommented.reference? = instr.uncommented.reference? := by
      rw [sameHead]
    have sameOpcode : copy.uncommented.opcode = instr.uncommented.opcode := by rw [sameHead]
    refine ⟨copy :: otherResult, .keep (fun name refers => ?_) ofCopies, ?_⟩
    · obtain ⟨undefined, isClosure⟩ := kept name (sameReference.symm.trans refers)
      exact ⟨undefined, sameOpcode.trans isClosure⟩
    · rw [List.map_cons, List.map_cons, sameHead, sameResult]
  | @inline instr name body inner rest result refers defined inside _ _ ih =>
    intro other same
    obtain ⟨copy, copies, rfl, sameHead, sameRest⟩ := List.map_eq_cons_iff.mp same
    obtain ⟨otherResult, ofCopies, sameResult⟩ := ih sameRest
    have sameReference : copy.uncommented.reference? = instr.uncommented.reference? := by
      rw [sameHead]
    refine ⟨copy.splice inner ++ otherResult,
      .inline (sameReference.trans refers) defined inside ofCopies, ?_⟩
    simp [Instr.splice, sameResult]

theorem Instr.args_of_symbol? {instr : Instr} {name : String} (isName : instr.symbol? = some name) :
    instr.args = [.name name] := by
  unfold Instr.symbol? at isName
  split at isName <;> simp_all

theorem Patches.recommented {blocks : List PlacedBlock} {instr other out : Instr}
    (patches : Patches blocks instr out) (same : other.uncommented = instr.uncommented) :
    Patches blocks other out := by
  obtain ⟨opcode, args, comment⟩ := other
  obtain ⟨_, _, _⟩ := instr
  cases same
  exact patches

/-- Whether and how an instruction is patched does not depend on its block. -/
theorem Patches.exists_patch {blocks : List PlacedBlock} {instr out : Instr}
    (patches : Patches blocks instr out) (options : Options) (block : String) :
    ∃ result, instr.patch options blocks block = .ok result ∧ result.uncommented = out := by
  obtain ⟨other, args, argsOk, rfl⟩ := patches
  have operand : ∀ {arg result : Operand}, arg.patch blocks other = .ok result →
      arg.patch blocks block = .ok result := by
    intro arg result patched
    cases arg with
    | name target =>
      cases found : targetOffset? blocks target with
      | some position => simpa [Operand.patch, found] using patched
      | none => simp [Operand.patch, found] at patched
    | _ => exact patched
  refine ⟨_, Instr.patch_eq_ok.mpr ⟨args, ?_, rfl⟩, rfl⟩
  unfold Instr.patchArgs at argsOk ⊢
  split
  · rename_i takesBlocks
    rw [if_pos takesBlocks, mapM_eq_ok] at argsOk
    exact mapM_eq_ok.mpr (argsOk.imp fun _ _ => operand)
  · rename_i noBlocks
    rwa [if_neg noBlocks] at argsOk

theorem exists_patch_of_forall₂ {blocks : List PlacedBlock} {instrs outs : List Instr}
    (patches : List.Forall₂ (Patches blocks) instrs outs) (options : Options) (block : String) :
    ∃ results, instrs.mapM (Instr.patch options blocks block) = .ok results ∧
      results.map Instr.uncommented = outs := by
  obtain ⟨results, patched, same⟩ := exists_between_of_forall₂
    (patches.imp fun _ _ patch => patch.exists_patch options block)
  refine ⟨results, mapM_eq_ok.mpr patched, ?_⟩
  have outs_eq := map_eq_map_of_forall₂ (f := Instr.uncommented) (g := id) same
    fun _ _ isOut => isOut.symm
  rw [← outs_eq, List.map_id]

namespace Site

variable {site : Site} {options : Options} {blocks : List PlacedBlock}

theorem Closes.recommented {instr other out : Instr} (closes : site.Closes blocks instr out)
    (same : other.uncommented = instr.uncommented) : site.Closes blocks other out := by
  obtain ⟨middle, resolved, patches⟩ := closes
  obtain ⟨opcode, args, comment⟩ := other
  obtain ⟨_, _, oldComment⟩ := instr
  cases same
  by_cases isClosure : opcode = .ldf
  · subst isClosure
    -- a closure becomes a load, is refused or stays as it is, whatever its comment says
    have sameSymbol : Instr.symbol? ⟨.ldf, args, oldComment⟩ = Instr.symbol? ⟨.ldf, args, comment⟩ :=
      rfl
    simp only [Closes, resolveClosure, sameSymbol] at resolved ⊢
    cases isName : Instr.symbol? ⟨.ldf, args, comment⟩ with
    | none =>
      simp only [isName, Except.ok.injEq] at resolved
      subst resolved
      exact ⟨_, rfl, patches.recommented rfl⟩
    | some name =>
      simp only [isName] at resolved
      cases found : site.scope.address? name with
      | some address =>
        simp only [found, Except.ok.injEq] at resolved
        subst resolved
        exact ⟨loadVariable ⟨.ldf, args, comment⟩ address, by simp [found],
          patches.recommented rfl⟩
      | none =>
        simp only [found] at resolved
        split at resolved
        · cases resolved
        · rename_i noFunction
          cases resolved
          exact ⟨⟨.ldf, args, comment⟩, by simp [found, noFunction], patches.recommented rfl⟩
  · have stays : ∀ comment, site.resolveClosure ⟨opcode, args, comment⟩ =
        .ok ⟨opcode, args, comment⟩ := by
      intro comment
      unfold resolveClosure
      split
      · exact absurd (by assumption) isClosure
      · rfl
    rw [stays] at resolved
    cases resolved
    exact ⟨_, stays comment, patches.recommented rfl⟩

/-! ## Code of constants at a site -/

/-- What becomes of code in the value of a constant at a site, comments apart: the constants in it
are expanded, and what it calls is looked up in the scope of the site. -/
def Inlines (site : Site) (blocks : List PlacedBlock) (code out : List Instr) : Prop :=
  ∃ expanded, Expansion site.program.constants code expanded ∧
    List.Forall₂ (site.Closes blocks) expanded out

namespace Inlines

theorem append {first second out : List Instr} (inlines : site.Inlines blocks (first ++ second) out) :
    ∃ before after, out = before ++ after ∧ site.Inlines blocks first before ∧
      site.Inlines blocks second after := by
  obtain ⟨expanded, expansion, closes⟩ := inlines
  obtain ⟨expandedFirst, expandedSecond, rfl, ofFirst, ofSecond⟩ := expansion.append
  obtain ⟨before, after, rfl, closesFirst, closesSecond⟩ := forall₂_append closes
  exact ⟨before, after, rfl, ⟨_, ofFirst, closesFirst⟩, ⟨_, ofSecond, closesSecond⟩⟩

theorem recommented {code other out : List Instr} (inlines : site.Inlines blocks code out)
    (same : other.map Instr.uncommented = code.map Instr.uncommented) :
    site.Inlines blocks other out := by
  obtain ⟨expanded, expansion, closes⟩ := inlines
  obtain ⟨otherExpanded, ofOther, sameExpanded⟩ := expansion.recommented same
  exact ⟨otherExpanded, ofOther, forall₂_trans
    (fun _ _ _ isCopy isClosed => isClosed.recommented isCopy) (forall₂_of_map_eq sameExpanded)
    closes⟩

end Inlines

/-- The load of a constant that is not in scope becomes the code of its value. -/
theorem Links.inlines {instr : Instr} {name : String} {body out : List Instr}
    (links : site.Links options blocks [instr] out)
    (expanded : site.program.constants.expandAll = .ok site.constants)
    (refers : instr.reference? = some name)
    (unbound : site.scope.address? name = none)
    (defined : site.program.constants.body? name = some body) :
    site.Inlines blocks body (out.map Instr.uncommented) := by
  obtain ⟨middle, resolved, patched⟩ := links
  obtain ⟨result, known, expansion⟩ := Constants.body?_of_expandAll expanded defined
  simp only [resolveAll_singleton, resolve, refers, unbound, known, bind_eq_ok, pure_eq_ok]
    at resolved
  obtain ⟨closed, closedOk, rfl⟩ := resolved
  rw [Instr.splice] at patched
  refine ⟨result, expansion, ?_⟩
  have patches := (mapM_eq_ok.mp patched).imp fun _ _ => patches_of_patch
  rw [← List.forall₂_map_right_iff (f := Instr.uncommented), List.forall₂_map_left_iff] at patches
  exact forall₂_trans (fun _ middle _ isClosed isPatched => ⟨middle, isClosed, isPatched⟩)
    (mapM_eq_ok.mp closedOk) patches

/-! ## What is called -/

/-- What a call of a name loads at a site, comments apart: a variable, or else the code of a
constant, or else a closure of a block. -/
inductive Calls (site : Site) (blocks : List PlacedBlock) (name : String) : List Instr → Prop where
  | bound {address : Address} (found : site.scope.address? name = some address) :
    Calls site blocks name [.ldAddress address]
  | constant {body out : List Instr} (unbound : site.scope.address? name = none)
      (defined : site.program.constants.body? name = some body)
      (inlines : site.Inlines blocks body out) : Calls site blocks name out
  | block {out : Instr} (unbound : site.scope.address? name = none)
      (undefined : site.program.constants.body? name = none)
      (noFunction : site.program.function? name = none)
      (patches : Patches blocks (.ldf name) out) : Calls site blocks name [out]

/-- Outside of functions, a call makes a closure. -/
theorem uncommented_loadCallee {name : String} :
    [Instr.ldf name].map Instr.uncommented = [loadCallee [] name].map Instr.uncommented := by
  simp [loadCallee, Instr.uncommented, Instr.commented]

/-- A call of a constant inside a constant. -/
theorem Inlines.constant {name : String} {body out : List Instr}
    (inlines : site.Inlines blocks [loadCallee [] name] out)
    (defined : site.program.constants.body? name = some body) : site.Inlines blocks body out := by
  obtain ⟨expanded, expansion, closes⟩ := inlines.recommented uncommented_loadCallee
  cases expansion with
  | keep kept next =>
    rw [(kept name rfl).1] at defined
    cases defined
  | inline refers otherDefined inside next =>
    cases refers
    rw [defined] at otherDefined
    cases otherDefined
    cases next
    rw [List.append_nil, Instr.splice, List.forall₂_map_left_iff] at closes
    exact ⟨_, inside, closes.imp fun _ _ isClosed => isClosed.recommented rfl⟩

/-- A call inside a constant loads what its name means in the scope of the site, unless the name is
both a constant and in scope: then expansion has put the constant there already. -/
theorem Inlines.calls {name : String} {out : List Instr}
    (inlines : site.Inlines blocks [loadCallee [] name] out)
    (oneMeaning : site.program.constants.body? name = none ∨ site.scope.address? name = none) :
    site.Calls blocks name out := by
  obtain ⟨expanded, expansion, closes⟩ := inlines.recommented uncommented_loadCallee
  cases expansion with
  | keep kept next =>
    cases next
    have undefined := (kept name rfl).1
    obtain ⟨result, ⟨middle, resolved, patches⟩, rfl⟩ := forall₂_singleton closes
    simp only [resolveClosure, Instr.ldf, Instr.symbol?] at resolved
    cases found : site.scope.address? name with
    | some address =>
      simp only [found, Except.ok.injEq] at resolved
      subst resolved
      rw [patches.eq_uncommented rfl]
      exact .bound found
    | none =>
      simp only [found] at resolved
      split at resolved
      · cases resolved
      · rename_i noFunction
        cases resolved
        exact .block found undefined (by simpa using noFunction) patches
  | inline refers defined inside next =>
    cases refers
    exact .constant (oneMeaning.resolve_left (by simp [defined])) defined (inlines.constant defined)

/-- A call in a block loads the same. -/
theorem Calls.exists_links {name : String} {out : List Instr} (calls : site.Calls blocks name out)
    (expanded : site.program.constants.expandAll = .ok site.constants) {instr : Instr}
    (refers : instr.reference? = some name)
    (isClosure : site.scope.address? name = none → instr.opcode = .ldf) (options : Options) :
    ∃ direct, site.Links options blocks [instr] direct ∧ direct.map Instr.uncommented = out := by
  cases calls with
  | @bound address found =>
    have patches : List.Forall₂ (Patches blocks) [loadVariable instr address]
        [.ldAddress address] := .cons ⟨"", _, rfl, rfl⟩ .nil
    obtain ⟨direct, patched, same⟩ := exists_patch_of_forall₂ patches options site.block
    exact ⟨direct, ⟨_, by simp [resolveAll, resolve, refers, found], patched⟩, same⟩
  | @constant body _ unbound defined inlines =>
    obtain ⟨inner, expansion, closes⟩ := inlines
    obtain ⟨result, known, otherExpansion⟩ := Constants.body?_of_expandAll expanded defined
    obtain rfl := expansion.unique otherExpansion
    obtain ⟨closed, closedOk, patches⟩ := exists_between_of_forall₂ closes
    have spliced : List.Forall₂ (Patches blocks) (instr.splice closed) out := by
      rw [Instr.splice, List.forall₂_map_left_iff]
      exact patches.imp fun _ _ patch => patch.recommented rfl
    obtain ⟨direct, patched, same⟩ := exists_patch_of_forall₂ spliced options site.block
    refine ⟨direct, ⟨instr.splice closed, ?_, patched⟩, same⟩
    simp [resolveAll, resolve, refers, unbound, known, mapM_eq_ok.mpr closedOk]
  | @block result unbound undefined noFunction patches =>
    have unknown := Constants.body?_eq_none_of_expandAll expanded undefined
    -- the closure goes through the first pass as it is
    have isName : instr.symbol? = some name := by
      simpa [Instr.reference?, isClosure unbound] using refers
    have same : instr.uncommented = (Instr.ldf name).uncommented := by
      simp [Instr.uncommented, Instr.ldf, isClosure unbound, Instr.args_of_symbol? isName]
    obtain ⟨direct, patched, same⟩ := exists_patch_of_forall₂
      (.cons (patches.recommented same) .nil) options site.block
    refine ⟨direct, ⟨[instr], ?_, patched⟩, same⟩
    simp [resolveAll, resolve, resolveClosure, refers, unbound, unknown, isClosure unbound, isName,
      noFunction]

theorem Links.unique {code first second : List Instr} (isFirst : site.Links options blocks code first)
    (isSecond : site.Links options blocks code second) : first = second := by
  obtain ⟨middle, resolved, patched⟩ := isFirst
  obtain ⟨otherMiddle, otherResolved, otherPatched⟩ := isSecond
  rw [resolved] at otherResolved
  cases otherResolved
  rw [patched] at otherPatched
  exact Except.ok.inj otherPatched

end Site

/-! ## Calls through constants and direct calls -/

namespace Site

variable {site : Site} {options : Options} {blocks : List PlacedBlock}

/-- In what was emitted for a constant whose value calls `func`, the part that loads `func`: it comes
after the code of all that is evaluated before, and the code of the call's arguments. -/
def LoadsCallee (site : Site) (options : Options) (blocks : List PlacedBlock) (inner : ExprContext)
    (func : String) (args : List Expr) (out callee : List Instr) : Prop :=
  ∃ lead argCode before after, inner.lead options [] = .ok lead ∧
    Expr.codes options [] args = .ok argCode ∧ site.Inlines blocks (lead ++ argCode) before ∧
    site.Inlines blocks [loadCallee [] func] callee ∧
    out.map Instr.uncommented = before ++ (callee ++ after)

theorem exists_loadsCallee {inner : ExprContext} {func : String} {args : List Expr}
    (noPrimitive : Primitive.find? func = none) {code out : List Instr}
    (compiled : (inner.fill (.call func args)).code options [] = .ok code)
    (inlines : site.Inlines blocks code (out.map Instr.uncommented)) :
    ∃ callee, site.LoadsCallee options blocks inner func args out callee := by
  obtain ⟨lead, filled, ending, leads, filledOk, rfl⟩ := inner.code_fill _ compiled
  obtain ⟨argCode, rest, argsOk, rfl⟩ := (Expr.Mentions.call noPrimitive).code_eq filledOk
  rw [List.append_assoc, List.append_assoc, ← List.append_assoc lead] at inlines
  obtain ⟨before, others, isOut, ofLead, ofOthers⟩ := inlines.append
  obtain ⟨callee, after, rfl, ofCallee, -⟩ := ofOthers.append
  exact ⟨callee, lead, argCode, before, after, leads, argsOk, ofLead, ofCallee, isOut⟩

end Site

/-- Where a block mentions a constant whose value calls `func`, a part of what is emitted for the
constant loads `func`. This part should be, comments apart, what every call of `func` in the block
itself loads. It is, on the condition that `func` is not both a constant and in scope. Where `func`
is a constant, the part is the code of that constant's value, so that a variable of the same name
in scope is missed. -/
theorem constant_call_eq_direct_call {options : Options} {program : Program} {listing : Listing}
    (compiled : compile options program = .ok listing) {decl : FunctionDecl}
    (isDecl : decl ∈ program.functions) {context : BodyContext} {occurrence : Expr}
    (written : decl.body = context.fill occurrence) {name : String} {args : List Expr} {load : Instr}
    (mentions : occurrence.Mentions decl.params name args load) {main : FunctionDecl}
    (isMain : main ∈ program.functions) (isEntry : main.name = options.entry)
    (unbound : ¬ (framesOf program.functions main decl).Binds name) {inner : ExprContext}
    {func : String} {callArgs : List Expr}
    (defined : program.constants.lookup name = some (inner.fill (.call func callArgs)))
    (noPrimitive : Primitive.find? func = none) :
    ∃ site placed earlier out callee,
      Located options program listing decl context.number site placed ∧
      Expr.codes options decl.params args = .ok earlier ∧
      Emitted options listing.blocks decl.params context site placed earlier [load] out ∧
      site.LoadsCallee options listing.blocks inner func callArgs out callee ∧
      (¬ ((program.constants.lookup func).isSome ∧
          (framesOf program.functions main decl).Binds func) →
        ∃ direct, direct.map Instr.uncommented = callee ∧
          site.Links options listing.blocks [loadCallee decl.params func] direct ∧
          ∀ other directArgs, decl.body = BodyContext.fill other (.call func directArgs) →
            other.number = context.number → ∃ directEarlier,
              Expr.codes options decl.params directArgs = .ok directEarlier ∧
              Emitted options listing.blocks decl.params other site placed directEarlier
                [loadCallee decl.params func] direct) ∧
      ∀ value, program.constants.lookup func = some value → ∃ code,
        value.code options [] = .ok code ∧ site.Inlines listing.blocks code callee := by
  obtain ⟨object, generated, linked⟩ := bind_eq_ok.mp compiled
  obtain ⟨functions, id, entry, table, joined⟩ := Joined.of_link generated linked
  have defines := joined.assembled.constants
  have entryMember := joined.assembled.mem_sources (CompiledFunction.mem_of_mem_number joined.isMain)
  obtain rfl : entry.decl = main := List.inj_on_of_nodup_map joined.assembled.nodup entryMember isMain
    (joined.isEntry.trans isEntry.symm)
  obtain ⟨placed, filled, found, filledOk, emitted⟩ := joined.exists_emitted isDecl written
  obtain ⟨earlier, rest, earlierOk, split⟩ := mentions.code_eq filledOk
  obtain ⟨out, emittedHere⟩ := emitted earlier [load] rest split
  have ofLoad := emittedHere
  obtain ⟨-, -, -, -, -, ofLoad, -⟩ := ofLoad
  -- what is emitted for the constant is the code of its value
  obtain ⟨code, codeOk, body, hasBody, same⟩ := defines.present name _ defined
  have inlines := (ofLoad.inlines joined.expanded mentions.reference?
    (Scope.address?_eq_none_iff.mpr unbound) hasBody).recommented same.symm
  obtain ⟨callee, loads⟩ := Site.exists_loadsCallee noPrimitive codeOk inlines
  have ofCallee := loads
  obtain ⟨-, -, -, -, -, -, -, ofCallee, -⟩ := ofCallee
  refine ⟨_, placed, earlier, out, callee, .intro generated joined found, earlierOk, emittedHere,
    loads, ?_, ?_⟩
  · intro notBoth
    have oneMeaning : object.constants.body? func = none ∨
        (framesOf program.functions entry.decl decl).address? func = none := by
      rw [defines.body?_eq_none_iff, Scope.address?_eq_none_iff]
      by_cases isConstant : (program.constants.lookup func).isSome
      · exact .inr fun bound => notBoth ⟨isConstant, bound⟩
      · exact .inl (Option.not_isSome_iff_eq_none.mp isConstant)
    have isClosure : (framesOf program.functions entry.decl decl).address? func = none →
        (loadCallee decl.params func).opcode = .ldf := by
      intro outOfScope
      have noParam : func ∉ decl.params := fun isParam =>
        Scope.address?_eq_none_iff.mp outOfScope (Scope.binds_of_mem_params
          (List.inj_on_of_nodup_map joined.assembled.nodup isDecl isMain) isParam)
      simp [loadCallee, noParam, Instr.commented, Instr.ldf]
    obtain ⟨direct, ofDirect, sameCode⟩ := (ofCallee.calls oneMeaning).exists_links joined.expanded
      (reference?_loadCallee decl.params func) isClosure options
    refine ⟨direct, sameCode, ofDirect, fun other directArgs directWritten sameBlock => ?_⟩
    -- a call that is written in the same block is linked at the same site
    obtain ⟨otherPlaced, directFilled, otherFound, directOk, directEmitted⟩ :=
      joined.exists_emitted isDecl directWritten
    rw [sameBlock, found] at otherFound
    cases otherFound
    obtain ⟨directEarlier, directRest, directEarlierOk, directSplit⟩ :=
      (Expr.Mentions.call noPrimitive).code_eq directOk
    obtain ⟨directOut, lead, before, after, leads, ofLead, ofCall, isPlaced⟩ :=
      directEmitted directEarlier _ directRest directSplit
    obtain rfl := ofCall.unique ofDirect
    exact ⟨directEarlier, directEarlierOk, lead, before, after, leads, ofLead, ofCall, isPlaced⟩
  · intro value isValue
    obtain ⟨valueCode, valueOk, valueBody, hasValueBody, sameValue⟩ :=
      defines.present func value isValue
    exact ⟨valueCode, valueOk, (ofCallee.constant hasValueBody).recommented sameValue.symm⟩

/-- A constant that calls a function, mentioned in an arm that also calls the function. -/
def seeded : Program where
  name := "seeded"
  decls := [
    .consts ⟨["SEED"], .exprs [.call "zero" []]⟩,
    .function ⟨"main", ["n"], [.ifElse (.ident "n")
      [.expr (.binary .add (.ident "SEED") (.call "zero" []))] none]⟩,
    .function ⟨"zero", [], [.expr (.int 0)]⟩]

/-- The arm of `main` with a hole in the expression. -/
def seededContext (inner : ExprContext) : BodyContext :=
  .inThen [] (.ident "n") (.inExpr [] inner []) none []

theorem constant_call_eq_direct_call_seeded :
    ∃ listing site placed out callee direct earlier, compile {} seeded = .ok listing ∧
      listing.blockOf? seeded "main" "main" 1 = some placed ∧
      Emitted {} listing.blocks ["n"] (seededContext (.left .add .hole (.call "zero" []))) site
        placed earlier [(Instr.ld "SEED").commented "SEED"] out ∧
      site.LoadsCallee {} listing.blocks .hole "zero" [] out callee ∧
      Emitted {} listing.blocks ["n"] (seededContext (.right .add (.ident "SEED") .hole)) site
        placed [] [loadCallee ["n"] "zero"] direct ∧
      direct.map Instr.uncommented = callee := by
  obtain ⟨listing, compiled, -⟩ := exists_ok_of_any (compile {} seeded) (fun _ => true) (by decide)
  have isMain : ⟨"main", ["n"], (seededContext (.left .add .hole (.call "zero" []))).fill
      (.ident "SEED")⟩ ∈ seeded.functions := by
    simp [seeded, Program.functions, seededContext, BodyContext.fill, ExprContext.fill]
  have defined : seeded.constants.lookup "SEED" =
      some (ExprContext.hole.fill (.call "zero" [])) := by
    simp [seeded, Program.constants, ConstGroup.definitions, ExprContext.fill]
  have unbound : ∀ body, ¬ (framesOf seeded.functions ⟨"main", ["n"], body⟩
      ⟨"main", ["n"], body⟩).Binds "SEED" := by
    simp [seeded, Program.functions, framesOf, declarations, functionsExcept, Scope.Binds]
  obtain ⟨site, placed, earlier, out, callee, located, -, emitted, loads, agrees, -⟩ :=
    constant_call_eq_direct_call compiled isMain rfl .ident isMain rfl (unbound _) defined
      (by decide)
  obtain ⟨direct, same, -, each⟩ := agrees (by rintro ⟨isConstant, -⟩; revert isConstant; decide)
  obtain ⟨directEarlier, directOk, directEmitted⟩ :=
    each (seededContext (.right .add (.ident "SEED") .hole)) [] rfl rfl
  cases directOk
  obtain ⟨-, -, found⟩ := located
  exact ⟨listing, _, placed, out, callee, direct, earlier, compiled, found, emitted, loads,
    directEmitted, same⟩

/-- A constant that calls a function whose name is also that of another constant. -/
def ambiguousCallee : Program where
  name := "p"
  decls := [
    .consts ⟨["f", "k"], .exprs [.int 1, .call "f" []]⟩,
    .function ⟨"main", [], [.expr (.ident "k"), .expr (.call "f" [])]⟩,
    .function ⟨"f", [], [.expr (.int 2)]⟩]

/-- Both calls should load the function. The one in the block does; the one inside the constant loads
the value of the other constant. -/
theorem ambiguousCallee_differs :
    ∃ listing placed, compile {} ambiguousCallee = .ok listing ∧
      ambiguousCallee.constants.lookup "k" = some (.call "f" []) ∧
      (∃ decl ∈ ambiguousCallee.functions, decl.name = "main" ∧
        decl.body = [.expr (.ident "k"), .expr (.call "f" [])] ∧
        ¬ (framesOf ambiguousCallee.functions decl decl).Binds "k") ∧
      listing.blockOf? ambiguousCallee "main" "main" 0 = some placed ∧
      placed.instrs.map Instr.uncommented =
        [.ldc 1, .ap 0] ++ ([.ldAddress ⟨0, 0⟩, .ap 0] ++ [.plain .rtn]) := by
  obtain ⟨listing, compiled, holds⟩ := exists_ok_of_any (compile {} ambiguousCallee)
    (fun listing => (listing.blockOf? ambiguousCallee "main" "main" 0).map
      (·.instrs.map Instr.uncommented) =
        some ([.ldc 1, .ap 0] ++ ([.ldAddress ⟨0, 0⟩, .ap 0] ++ [.plain .rtn]))) (by decide)
  obtain ⟨placed, found, instrs⟩ := Option.map_eq_some_iff.mp (of_decide_eq_true holds)
  have defined : ambiguousCallee.constants.lookup "k" = some (.call "f" []) := by
    simp [ambiguousCallee, Program.constants, ConstGroup.definitions, List.lookup_cons]
  refine ⟨listing, placed, compiled, defined,
    ⟨⟨"main", [], [.expr (.ident "k"), .expr (.call "f" [])]⟩, ?_, rfl, rfl, ?_⟩, found, instrs⟩
  · simp [ambiguousCallee, Program.functions]
  · simp [ambiguousCallee, Program.functions, framesOf, declarations, functionsExcept, Scope.Binds]

end Secd
