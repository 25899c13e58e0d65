/-!
# Special objects

What the instruction for objects that only the running function knows can ask for.
-/

namespace ScriptBytecode

inductive SpecialObject where
  | arguments
  /-- Arguments that follow assignments to the parameters. -/
  | mappedArguments
  | activeFunction
  | newTarget
  | homeObject
  | importMeta
deriving DecidableEq, Inhabited

def SpecialObject.code : SpecialObject → Nat
  | arguments => 0
  | mappedArguments => 1
  | activeFunction => 2
  | newTarget => 3
  | homeObject => 4
  | importMeta => 6

end ScriptBytecode
