import AndInverter.Aig.Isomorphism
import AndInverter.DepthView.LongestPath
import AndInverter.Dot

/-!
# Pictures

What the text of a drawing says: which nodes and outputs it declares, in which
section, and which arrows it has.  A picture shows a graph if it has a
declaration for each node below the outputs, an arrow for each output and each
fanin of a gate, and nothing else.
-/

namespace AndInverter

namespace Dot

inductive Target where
  | gate (id : Nat)
  | output (index : Nat)

structure Arrow where
  source : Nat
  target : Target
  complement : Bool
  critical : Bool

structure Declaration where
  id : Nat
  label : String
  critical : Bool

def Target.name : Target → String
  | .gate id => toString id
  | .output index => s!"o{index}"

def Target.isOutput : Target → Bool
  | .gate _ => false
  | .output _ => true

/-- The line of an arrow has a style for each of its properties. -/
def Arrow.line (style : DotStyle) (arrow : Arrow) : String :=
  let complement := if arrow.complement then style.edgeComplement else ""
  let critical := if arrow.critical then style.edgeCritical else ""
  let output := if arrow.target.isOutput then style.edgeOutput else ""
  s!"{arrow.source} -> {arrow.target.name} {complement}{critical}{output}\n"

def Declaration.line (style : DotStyle) (declaration : Declaration) : String :=
  let critical := if declaration.critical then " " ++ style.critical else ""
  s!"{declaration.id} [label=\"{declaration.label}\"]{critical}\n"

/-- A list has the items of a kind and no others, each of them once. -/
structure ListsOnce {Item : Type} (IsItem : Item → Prop) (items : List Item) : Prop where
  nodup : items.Nodup
  mem_iff : ∀ item, item ∈ items ↔ IsItem item

/-- What a picture is to tell of the nodes beyond the structure of the graph. -/
structure Notes where
  label : Nat → String
  Critical : Nat → Prop
  /-- Whether the edge from the first node to the second is critical. -/
  CriticalEdge : Nat → Nat → Prop

namespace Notes

def plain : Notes :=
  { label := fun _ => ""
    Critical := fun _ => False
    CriticalEdge := fun _ _ => False }

/-- Levels, and the nodes on the longest walks.  An edge is critical if it
joins critical nodes of consecutive levels. -/
def ofDepth (aig : Aig) (depth : Nat) (level : Nat → Nat) : Notes :=
  { label := fun id => toString (level id)
    Critical := DepthView.OnWalk aig depth
    CriticalEdge := fun source target =>
      DepthView.OnWalk aig depth source ∧ DepthView.OnWalk aig depth target ∧
        level source + 1 = level target }

end Notes

/-- The arrows of a graph: one to each output, and one to each gate below the
outputs from each of its fanins. -/
inductive IsArrow (aig : Aig) (notes : Notes) : Arrow → Prop
  | output {index : Nat} {edge : Edge} (listed : aig.outputs[index]? = some edge) :
      IsArrow aig notes
        { source := edge.node, target := .output index
          complement := edge.complement, critical := false }
  | fanin {gate : Nat} {fanins : Fanins} {edge : Edge} {critical : Bool}
      (below : aig.BelowOutputs gate) (stored : aig.gateFanins? gate = some fanins)
      (member : edge ∈ fanins.toList)
      (agrees : critical = true ↔ notes.CriticalEdge edge.node gate) :
      IsArrow aig notes
        { source := edge.node, target := .gate gate
          complement := edge.complement, critical := critical }

end Dot

open Dot

/-- The declarations of a drawing, by section, and its arrows. -/
structure Picture where
  constants : List Nat
  inputs : List Declaration
  gates : List Declaration
  outputs : List Nat
  arrows : List Arrow

namespace Picture

def subgraph (name attributes : String) (lines : List String) : String :=
  s!"    subgraph {name} \x7b\n node {attributes}\n{String.join lines}\n    \x7d\n"

/-- The text of a picture.  The label of an output counts from 1. -/
def text (style : DotStyle) (picture : Picture) : String :=
  let constants := picture.constants.map fun id => s!"{id} {style.constant}\n"
  let inputs := picture.inputs.map (·.line style)
  let gates := picture.gates.map (·.line style)
  let outputs := picture.outputs.map fun index => s!"o{index} [label=\"o{index + 1}\"]\n"
  let arrows := picture.arrows.map (·.line style)
  "\nstrict digraph \x7b\n" ++
    s!"    rankdir=\"{style.direction}\"\n" ++
    s!"    edge {style.edgeAll}\n" ++
    s!"    {String.join constants}\n" ++
    subgraph "inputs" style.input inputs ++
    subgraph "ands" style.gate gates ++
    subgraph "outputs" style.output outputs ++
    s!"    {String.join arrows}\n\x7d"

def declared (picture : Picture) : List Nat :=
  picture.constants ++ picture.inputs.map (·.id) ++ picture.gates.map (·.id)

/-- A picture shows the part of a graph below its outputs. -/
structure Shows (picture : Picture) (aig : Aig) (notes : Notes) : Prop where
  declared : ListsOnce aig.BelowOutputs picture.declared
  /-- The constant has no label and is not marked as critical. -/
  constants : ∀ id ∈ picture.constants, id = 0
  inputs : ∀ input ∈ picture.inputs, input.id ∈ aig.inputs ∧ input.label = s!"i{input.id}" ∧
    (input.critical = true ↔ notes.Critical input.id)
  gates : ∀ gate ∈ picture.gates, aig.isGate gate.id = true ∧
    gate.label = notes.label gate.id ∧ (gate.critical = true ↔ notes.Critical gate.id)
  outputs : ListsOnce (· < aig.outputs.size) picture.outputs
  arrows : ListsOnce (IsArrow aig notes) picture.arrows

end Picture

end AndInverter
