import AndInverter.Aig.Construction
import AndInverter.DepthView
import AndInverter.Traversal.DepthFirst

/-!
# Drawings

A graph is drawn as a text in the DOT language: its constant, inputs, gates
and outputs in a section each, then an edge for each output and for each fanin
of a gate.  Only nodes below the outputs are drawn.  A depth view adds the
levels of the gates and marks the critical paths.
-/

namespace AndInverter

/-- The attributes of the parts of a drawing, brackets included.  The
attributes of an edge add up. -/
structure DotStyle where
  direction : String := "BT"
  constant : String := "[shape=point, label=\"GND\", width=1.5]"
  input : String := "[shape=box]"
  gate : String := "[shape=circle]"
  critical : String := "[color=red, fontcolor=red]"
  output : String := "[shape=none, height=.0, width=.0]"
  edgeAll : String := "[arrowsize=0.3]"
  edgeComplement : String := "[headlabel=\"●\", labelangle=.0, labeldistance=1.5]"
  edgeCritical : String := "[color=red, penwidth=2]"
  edgeOutput : String := "[arrowhead=none]"

/-- What is known of the nodes beyond the structure of the graph. -/
structure Legend where
  label : Nat → String
  isCritical : Nat → Bool
  /-- Whether the edge from the first node to the second is critical. -/
  isCriticalEdge : Nat → Nat → Bool

namespace Legend

def plain : Legend :=
  { label := fun _ => ""
    isCritical := fun _ => false
    isCriticalEdge := fun _ _ => false }

/-- Levels and critical paths of a view.  An edge is critical if it joins
critical nodes of consecutive levels. -/
def ofView {Store : Type} (view : DepthView Store) : Legend :=
  { label := fun id => toString (view.level id)
    isCritical := view.isCritical
    isCriticalEdge := fun source target =>
      view.isCritical source && view.isCritical target &&
        view.level source + 1 == view.level target }

end Legend

namespace Dot

def edgeAttributes (style : DotStyle) (complement critical output : Bool) : String :=
  (if complement then style.edgeComplement else "") ++
    (if critical then style.edgeCritical else "") ++
    (if output then style.edgeOutput else "")

def edgeLine (edge : Edge) (target attributes : String) : String :=
  s!"{edge.node} -> {target} {attributes}\n"

def outputName (index : Nat) : String :=
  s!"o{index}"

/-- The line of an output; its label counts from 1. -/
def outputLine (index : Nat) : String :=
  s!"{outputName index} [label=\"{outputName (index + 1)}\"]\n"

def outputEdgeLine (style : DotStyle) (output : Edge) (index : Nat) : String :=
  edgeLine output (outputName index) (edgeAttributes style output.complement false true)

def labelledLine (style : DotStyle) (legend : Legend) (id : Nat) (label : String) :
    String :=
  let attributes := if legend.isCritical id then s!" {style.critical}" else ""
  s!"{id} [label=\"{label}\"]{attributes}\n"

def gateEdgeLines (style : DotStyle) (legend : Legend) (id : Nat) (fanins : Fanins) :
    List String :=
  fanins.toList.map fun edge =>
    edgeLine edge (toString id)
      (edgeAttributes style edge.complement (legend.isCriticalEdge edge.node id) false)

end Dot

/-- The lines of a drawing, by section. -/
structure Drawing where
  constants : List String
  inputs : List String
  gates : List String
  outputs : List String
  edges : List String

namespace Drawing

def ofNode (style : DotStyle) (legend : Legend) (node : Node) : Drawing :=
  match node with
  | .constant =>
      { constants := [s!"0 {style.constant}\n"]
        inputs := [], gates := [], outputs := [], edges := [] }
  | .input id =>
      { inputs := [Dot.labelledLine style legend id s!"i{id}"]
        constants := [], gates := [], outputs := [], edges := [] }
  | .gate id fanins =>
      { gates := [Dot.labelledLine style legend id (legend.label id)]
        edges := Dot.gateEdgeLines style legend id fanins
        constants := [], inputs := [], outputs := [] }

def ofOutputs (style : DotStyle) (outputs : List Edge) : Drawing :=
  { constants := [], inputs := [], gates := []
    outputs := (List.range outputs.length).map Dot.outputLine
    edges := outputs.mapIdx fun index output => Dot.outputEdgeLine style output index }

def append (first second : Drawing) : Drawing :=
  { constants := first.constants ++ second.constants
    inputs := first.inputs ++ second.inputs
    gates := first.gates ++ second.gates
    outputs := first.outputs ++ second.outputs
    edges := first.edges ++ second.edges }

/-- The nodes of a graph below its outputs, in the order of a depth-first
search. -/
def nodes (aig : Aig) : List Node :=
  ((DepthFirst.fromOutputs aig).toList aig).filterMap aig.node?

def ofAig (style : DotStyle) (legend : Legend) (aig : Aig) : Drawing :=
  (nodes aig).foldr (fun node rest => (ofNode style legend node).append rest)
    { constants := [], inputs := [], gates := [], outputs := [], edges := [] }
    |> (ofOutputs style aig.outputs.toList).append

def sectionText (name attributes : String) (lines : List String) : String :=
  s!"subgraph {name} \x7b\n node {attributes}\n" ++ String.join lines ++ "\n    \x7d\n"

def text (style : DotStyle) (drawing : Drawing) : String :=
  "\nstrict digraph \x7b\n" ++
    s!"    rankdir=\"{style.direction}\"\n" ++
    s!"    edge {style.edgeAll}\n" ++
    "    " ++ String.join drawing.constants ++ "\n" ++
    "    " ++ sectionText "inputs" style.input drawing.inputs ++
    "    " ++ sectionText "ands" style.gate drawing.gates ++
    "    " ++ sectionText "outputs" style.output drawing.outputs ++
    "    " ++ String.join drawing.edges ++ "\n\x7d"

end Drawing

def Aig.dot (style : DotStyle) (aig : Aig) : String :=
  (Drawing.ofAig style .plain aig).text style

def DepthView.dot (style : DotStyle) (view : DepthView Aig) : String :=
  (Drawing.ofAig style (.ofView view) view.network).text style

end AndInverter
