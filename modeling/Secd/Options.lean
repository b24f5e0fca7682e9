namespace Secd

/-! # Options of a compilation -/

structure Options where
  /-- Keep comments on the instructions of a listing. -/
  comments : Bool := true
  /-- Refuse a call of a primitive with the wrong number of arguments. -/
  checkArity : Bool := true
  /-- The function that the preamble enters. -/
  entry : String := "main"
  deriving DecidableEq, Repr

namespace Options

def withComments (options : Options) (comments : Bool) : Options :=
  { options with comments }

def withArityCheck (options : Options) (checkArity : Bool) : Options :=
  { options with checkArity }

@[simp] theorem checkArity_withArityCheck (options : Options) (checkArity : Bool) :
    (options.withArityCheck checkArity).checkArity = checkArity := rfl

def withEntry (options : Options) (entry : String) : Options :=
  { options with entry }

end Options

end Secd
