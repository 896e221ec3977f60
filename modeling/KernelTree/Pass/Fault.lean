import KernelTree.Diagnostic

/-!
# Faults of passes

Why a pass over statements gives up, in words and with the place it blames.
-/

namespace KernelTree

/-- What keeps a loop from being canonical. -/
inductive LoopFault
  | notDeclaration
  | multipleIterators
  | uninitialized
  | iteratorType
  | check
  | update
  deriving DecidableEq, Repr

/-- The fault in words. -/
def LoopFault.message : LoopFault → String
  | notDeclaration => "Expected a declaration statement"
  | multipleIterators => "Can only have 1 iterator variable"
  | uninitialized => "Expected iterator to be initialized"
  | iteratorType => "Iterator variable needs to be of type [char, short, int, long]"
  | check => "Expected comparing iterator variable with [<, <=, >=, >]"
  | update => "Expected update iterator variable with [++, --, +=, -=]"

/-- Why a pass gives up. `context` tells which pass asked for a canonical loop. -/
inductive PassFault
  | loop (fault : LoopFault) (context : String)
  | tooManyDimensions (expected : Nat)
  | missingDimensions (expected : Nat)
  | orderNotConstant
  | orderNotPermutation (count : Nat)
  | missingTileSize
  deriving DecidableEq, Repr

/-- The fault in words. -/
def PassFault.message : PassFault → String
  | loop fault context => "[" ++ context ++ "] " ++ fault.message
  | tooManyDimensions expected =>
    "Too many dimensions, expected " ++ toString expected ++ " argument(s)"
  | missingDimensions expected =>
    "Missing dimensions, expected " ++ toString expected ++ " argument(s)"
  | orderNotConstant => "@dimOrder entries must be compile-time integer constants"
  | orderNotPermutation count =>
    "@dimOrder must be a permutation of [0, " ++ toString count ++ ")"
  | missingTileSize => "@tile expects a tile size argument"

/-- A fault and the place it is blamed on. -/
structure PassError where
  fault : PassFault
  location : Location
  deriving DecidableEq, Repr

/-- Adds a fault to the diagnostics. -/
def Diagnostics.report (d : Diagnostics) (e : PassError) : Diagnostics :=
  d.error e.location e.fault.message

end KernelTree
