import CanonicalTree.Compiler
import CanonicalTree.Response.Basic
import CanonicalTree.Tree.Traversal

/-!
# Profiles

A profile takes the responses of one native parser to canonical trees: it holds the pipeline for
that parser and the kinds that must not be left over when the pipeline has gone all the way.
-/

namespace CanonicalTree

/-- How the responses of a native parser are normalized. -/
structure Profile where
  /-- The stages that the tree is taken through. -/
  pipeline : Pipeline
  /-- The kinds that a canonical tree must not hold. -/
  forbidden : List String := Compiler.nativeKinds

/-- Why a response could not be normalized. -/
inductive NormalizeFault where
  /-- The response gives no tree. -/
  | response (fault : ResponseFault)
  /-- A stage of the pipeline failed. -/
  | stage (failure : Failure)
  /-- Nodes kept a forbidden kind: the path of the first one, and all paths in document order. -/
  | leftOver (first : Path) (paths : List Path)
  deriving DecidableEq

/-- The fault in words. -/
def NormalizeFault.message : NormalizeFault → String
  | .response fault => fault.message
  | .stage failure => failure.message
  | .leftOver first paths =>
    toString paths.length ++ " node(s) kept a native kind after normalization, first at " ++
      first.text

namespace Profile

/-- The profile for the TypeScript compiler. -/
def standard (unit : ColumnUnit) : Profile where
  pipeline := Compiler.pipeline unit

/-- Refuse a tree that holds a forbidden kind. -/
def check (profile : Profile) (tree : Node) : Except NormalizeFault Unit :=
  match tree.findKinds profile.forbidden with
  | [] => .ok ()
  | first :: rest => .error (.leftOver first (first :: rest))

/-- The tree that the pipeline makes of a native tree. -/
def run (profile : Profile) (mode : Mode) (raw : Json) (source : Source) :
    Except NormalizeFault Node :=
  match profile.pipeline.run mode raw source with
  | .ok tree => .ok tree
  | .error failure => .error (.stage failure)

/-- The tree of a response. -/
def rawTree (response : Response) : Except NormalizeFault Json :=
  match response.tree with
  | .ok raw => .ok raw
  | .error fault => .error (.response fault)

/-- Normalize a response; the tree is checked when the pipeline has gone all the way. -/
def normalizeResponse (profile : Profile) (mode : Mode) (response : Response) (source : Source) :
    Except NormalizeFault Node := do
  let raw ← rawTree response
  let tree ← profile.run mode raw source
  if mode = .semantic then profile.check tree
  pure tree

end Profile

end CanonicalTree
