import CanonicalTree.Rule.Phase
import CanonicalTree.Schema.Convert
import CanonicalTree.Source.Resolve

/-!
# Pipelines

A pipeline takes a native tree through up to four stages: conversion by a schema, resolution of
positions against the source, a preprocessing phase and a normalizing phase. The mode says after
which stage it stops.
-/

namespace CanonicalTree

/-- How far a pipeline goes. -/
inductive Mode where
  /-- Conversion and positions only. -/
  | native
  /-- Up to and including the preprocessing phase. -/
  | preprocessed
  /-- All the way. -/
  | semantic
  deriving DecidableEq

namespace Mode

/-- All modes. -/
def all : List Mode := [.native, .preprocessed, .semantic]

/-- The name of a mode. -/
def name : Mode → String
  | .native => "native"
  | .preprocessed => "preprocessed"
  | .semantic => "semantic"

/-- The mode with the given name. -/
def ofName? (name : String) : Option Mode :=
  all.find? (·.name = name)

/-- The mode that a text names, in upper or lower case; otherwise the complaint about it. -/
def parse (text : String) : Except String Mode :=
  match ofName? text.toLower with
  | some mode => .ok mode
  | none => .error ("unknown mode '" ++ text ++ "', expected native, preprocessed or semantic")

end Mode

/-- The stages that a native tree is taken through. -/
structure Pipeline where
  /-- How native records are read. -/
  schema : Schema := {}
  /-- How points are completed. -/
  resolver : Resolver := {}
  /-- The first phase of rules. -/
  preprocess : Phase := { name := "preprocessing" }
  /-- The second phase of rules. -/
  normalize : Phase := { name := "semantic" }

namespace Pipeline

/-- The tree after conversion and resolution. -/
def native (pipeline : Pipeline) (raw : Json) (source : Source) : Except Failure Node := do
  let tree ← pipeline.schema.convert raw
  pipeline.resolver.resolve source tree

/-- The tree after the stages that the mode asks for. -/
def run (pipeline : Pipeline) (mode : Mode) (raw : Json) (source : Source) :
    Except Failure Node := do
  let tree ← pipeline.native raw source
  match mode with
  | .native => pure tree
  | .preprocessed => pipeline.preprocess.apply tree
  | .semantic => do
    let tree ← pipeline.preprocess.apply tree
    pipeline.normalize.apply tree

end Pipeline

end CanonicalTree
