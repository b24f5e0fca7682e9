import Secd.Scope
import Secd.Syntax

namespace Secd

/-! # Reports

Everything that stops a compilation is a value of `CompileError`. The constructor says what went
wrong and where; `CompileError.message` gives the text shown to a user.
-/

/-! ## Failed look-ups -/

/-- A name that was looked up in vain. -/
structure Missing where
  symbol : String
  /-- The block in which the name stands. -/
  block : String
  /-- The frames that were searched, innermost first; none when no frame was involved. -/
  frames : Scope := []
  deriving DecidableEq, Repr

namespace Missing

/-- One searched frame: its distance and its slots. -/
def frameLine (depth : Nat) (slots : List String) : String :=
  "\n  frame " ++ toString depth ++ ":" ++
    if slots.isEmpty then " (empty)" else String.join (slots.map (" " ++ ·))

/-- The lines of the searched frames, counted from `depth`. -/
def frameLines : Nat → Scope → String
  | _, [] => ""
  | depth, slots :: outer => frameLine depth slots ++ frameLines (depth + 1) outer

def message (missing : Missing) : String :=
  missing.symbol ++ " not available in " ++ missing.block ++ frameLines 0 missing.frames

end Missing

/-! ## Causes -/

inductive CompileError where
  /-- A variable that neither a frame nor a constant provides. -/
  | unresolvedSymbol (missing : Missing)
  /-- A target of a closure or of a branch that names no block. -/
  | unresolvedTarget (missing : Missing)
  /-- A construct for which there is no code. -/
  | unsupported (construct : String) (hint : Option String)
  /-- A return that is not the last statement of a function body. -/
  | unsupportedReturn (block : String)
  | missingEntry (entry : String)
  | duplicateConstant (name : String)
  | duplicateFunction (name : String)
  /-- A call of a function that no frame binds. -/
  | unreachableFunction (function block : String)
  | cyclicConstant (name : String)
  | primitiveArity (name : String) (expected got : Nat)
  /-- A reference to a block that the program does not have. -/
  | danglingBlock (id : Nat)
  /-- Blocks that are nested in themselves. -/
  | endlessNesting (id : Nat)
  deriving DecidableEq, Repr

namespace CompileError

/-- Refuses a construct and says what to do instead. -/
def unsupportedWithHint (construct hint : String) : CompileError :=
  .unsupported construct (some hint)

/-- Refuses a kind of statement. -/
def unsupportedStmt (stmt : Stmt) : CompileError :=
  unsupportedWithHint stmt.kindName <|
    match stmt with
    | .assign .. => "bind values through function parameters instead"
    | .loop _ => "use a recursive function instead"
    | _ => "this statement is not supported by the code generator"

/-- An advice on a line of its own. -/
def hintLine (hint : String) : String := "\n  hint: " ++ hint

/-- The cause in words. -/
def describe : CompileError → String
  | .unresolvedSymbol missing => "unresolved symbol: " ++ missing.message
  | .unresolvedTarget missing => "unresolved block target: " ++ missing.message
  | .unsupported construct hint => "cannot compile " ++ construct ++ (hint.map hintLine).getD ""
  | .unsupportedReturn block =>
    "explicit return not supported in " ++ block ++
      hintLine "a function returns the value of its last statement"
  | .missingEntry entry => "no " ++ entry ++ " function"
  | .duplicateConstant name => "constant " ++ name ++ " declared twice"
  | .duplicateFunction name => "function " ++ name ++ " declared twice"
  | .unreachableFunction function block =>
    function ++ " cannot be called from " ++ block ++
      hintLine ("the entry function is not bound in any frame; " ++
        "call a helper function instead")
  | .cyclicConstant name => "constant " ++ name ++ " refers to itself"
  | .primitiveArity name expected got =>
    name ++ " takes " ++ toString expected ++ " argument(s), got " ++ toString got
  | .danglingBlock id => "no block has the number " ++ toString id
  | .endlessNesting id => "block " ++ toString id ++ " is nested in itself"

/-- The text shown to a user. -/
def message (error : CompileError) : String := "compile error: " ++ error.describe

end CompileError

end Secd
