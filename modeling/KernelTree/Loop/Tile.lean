import KernelTree.Loop.Canonical
import KernelTree.Pass.Substitution

/-!
# Tiling

A canonical loop with the attribute `@tile(size, @outer, @inner, check=true)` becomes two loops:

    for (int i = 0; i < N; ++i; @tile(16)) { body }

turns into

    for (int block_i = 0; block_i < N; block_i += 16) {
      for (int i = block_i; i < (block_i + 16); ++i) {
        if (i < N) { body }
      }
    }

The block loop gets the attributes of the second argument and the inner loop those of the third,
beside the ones that the loop had. The branch around the body is left out where `check` says so. The
extent of a block is the tile size times the step of the loop.
-/

namespace KernelTree

/-- What can be chosen about tiling. -/
structure TileOptions where
  /-- Stands before the name of a variable in the name of its block variable. -/
  iteratorMark : String
  /-- Whether the body is guarded where the attribute does not say. -/
  guards : Bool
  /-- Whether loops that are not canonical are reported. -/
  reportsLoops : Bool

namespace TileOptions

/-- The usual choice. -/
def standard : TileOptions := ⟨"_occa_tiled_", true, true⟩

end TileOptions

namespace Tile

/-- The name of the attribute. -/
def attributeName : String := "tile"

/-- The keyword that decides whether the body is guarded. -/
def guardKeyword : String := "check"

/-- Who asks for a canonical loop. -/
def context : String := "@tile"

/-- What tiling works on: it declares block variables and reports faults. -/
structure State where
  table : SymbolTable
  diagnostics : Diagnostics

/-- The tile size that the attribute gives. -/
def size? (a : Attribute) : Option Expr := (a.arg? 0).filter fun e => !e.isEmpty

/-- Whether the attribute wants the body guarded. -/
def wantsGuard (o : TileOptions) (a : Attribute) : Bool :=
  ((a.keyword? guardKeyword).bind fun e => e.evaluate.toBool?).getD o.guards

/-- How far a block reaches. -/
def extent (c : CanonicalLoop) (size : Expr) : Expr :=
  match c.step with
  | some step => (Expr.mkBinary .mul size.wrapped step.mkParens).mkParens
  | none => size.wrapped

/-- The check of the loop with another bound, the variable on the side it had. -/
def compare (c : CanonicalLoop) (bound : Expr) (location : Location) : Expr :=
  let iterator := Expr.ofVar c.iterator location
  if c.boundOnRight then .mkBinary c.checkOp iterator bound
  else .mkBinary c.checkOp bound iterator

/-- Adds the variable and the scope of the block loop, and puts the scope of the loop inside. -/
def declareBlock (o : TileOptions) (t : SymbolTable) (l : Loop) (iterator : VarId)
    (scope : ScopeId) : VarId × ScopeId × SymbolTable :=
  let name := o.iteratorMark ++ (t.var iterator).name
  let (blockVar, t) := t.cloneVariable iterator name
  -- A loop in a scope without a parent is put where the walk stands.
  let (blockScope, t) := t.newScope ((t.parent? l.scope).getD scope)
  let t := t.declare blockScope name (.variable blockVar)
  (blockVar, blockScope, t.setParent l.scope (some blockScope))

/-- Puts the scopes that the statements open inside a scope. -/
def adopt (t : SymbolTable) (scope : ScopeId) (body : List Statement) : SymbolTable :=
  (body.filterMap Statement.scope?).foldl (fun t s => t.setParent s (some scope)) t

/-- The body under the check of the loop, in a scope of its own. -/
def guard (t : SymbolTable) (c : CanonicalLoop) (parent : ScopeId) (body : List Statement)
    (location : Location) : Statement × SymbolTable :=
  let (scope, t) := t.newScope parent
  let condition := Statement.ofExpr (compare c c.bound location)
  (.branch scope condition body none location, adopt t scope body)

/-- The header of the block loop: that of the loop with the block variable for its variable, moved
by one extent. -/
def blockLoop (l : Loop) (a : Attribute) (c : CanonicalLoop) (extent : Expr) (blockVar : VarId)
    (blockScope : ScopeId) (body : List Statement) : Loop :=
  let sub : Substitution := ⟨.variable c.iterator, .variable blockVar⟩
  { scope := blockScope
    init := l.init.substitute sub
    check := l.check.substitute sub
    update := .ofExpr (.mkBinary (if c.countsUp then .addAssign else .subAssign)
      (.ofVar blockVar l.update.location) extent)
    body
    -- The block loop has no attributes but those of the second argument.
    attributes := Attributes.merge [] (a.argAttributes 1)
    location := l.location }

/-- The inner loop: from the block variable on for one extent. -/
def innerLoop (l : Loop) (a : Attribute) (c : CanonicalLoop) (extent : Expr) (blockVar : VarId)
    (body : List Statement) : Loop :=
  let place := l.check.location
  let stop := (Expr.mkBinary (if c.countsUp then .add else .sub)
    (.ofVar blockVar place) extent).mkParens
  { scope := l.scope
    init := .declare c.iterator (some (.ofVar blockVar l.init.location)) l.init.location
    check := .ofExpr (compare c stop place)
    update := l.update
    body
    -- What the argument brings comes after, a further `tile` included.
    attributes := (l.attributes.erase attributeName).merge (a.argAttributes 2)
    location := l.location }

/-- The two loops in place of one. -/
def tile (o : TileOptions) (t : SymbolTable) (l : Loop) (a : Attribute) (size : Expr)
    (c : CanonicalLoop) (scope : ScopeId) : Loop × SymbolTable :=
  let (blockVar, blockScope, t) := declareBlock o t l c.iterator scope
  let reach := extent c size
  let (body, t) :=
    if wantsGuard o a then
      let (branch, t) := guard t c l.scope l.body l.check.location
      ([branch], t)
    else (l.body, t)
  let inner := innerLoop l a c reach blockVar body
  (blockLoop l a c reach blockVar blockScope [inner.toStatement], t)

/-- Tiles a statement if it is a loop that asks for it. -/
def visit (o : TileOptions) (statement : Statement) (scope : ScopeId) (s : State) :
    Except PassError (Verdict Statement) × State :=
  match statement.loop? with
  | none => (.ok .keep, s)
  | some l =>
    match l.attributes.find? attributeName with
    | none => (.ok .keep, s)
    | some a =>
      match size? a with
      | none =>
        let e : PassError := ⟨.missingTileSize, a.location⟩
        (.error e, { s with diagnostics := s.diagnostics.report e })
      | some size =>
        match CanonicalLoop.recognize s.table l with
        | .error f =>
          let e := CanonicalLoop.Fault.error context f
          -- Loops that are not canonical may be left to someone else to report.
          (.error e,
            if o.reportsLoops then { s with diagnostics := s.diagnostics.report e } else s)
        | .ok c =>
          let (block, table) := tile o s.table l a size c scope
          (.ok (.replace block.toStatement), { s with table })

/-- Tiling as a pass: it asks for loops. -/
def pass (o : TileOptions) : StatementPass State PassError where
  accepts kind := kind = .loop
  visit := visit o

end Tile

/-- Tiles all loops of a statement that ask for it, the innermost first. -/
def Statement.tile (o : TileOptions) (s : Statement) (scope : ScopeId) (state : Tile.State) :
    Statement × Progress Tile.State PassError :=
  (s.walk (Tile.pass o) scope).start state

end KernelTree
