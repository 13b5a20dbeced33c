/-!
# Edges

An edge is a signal of the network: a node, read as it is or complemented.
The same node may be read with both polarities, so the polarity belongs to
the edge and not to the node.  Edges are ordered by their literals.
-/

namespace AndInverter

/-- A signal: a node, named by its position in the arena, and whether it is
read complemented. -/
structure Edge where
  node : Nat
  complement : Bool
  deriving DecidableEq, Inhabited

namespace Edge

/-- The literal of an edge: twice its node, plus one if it is complemented. -/
def literal (edge : Edge) : Nat :=
  2 * edge.node + edge.complement.toNat

def ofLiteral (literal : Nat) : Edge :=
  { node := literal / 2, complement := decide (literal % 2 = 1) }

@[simp] theorem ofLiteral_literal (edge : Edge) :
    ofLiteral edge.literal = edge := by
  obtain ⟨node, complement⟩ := edge
  cases complement
  · simp [ofLiteral, literal]
  · simp [ofLiteral, literal]
    omega

@[simp] theorem literal_ofLiteral (literal : Nat) :
    (ofLiteral literal).literal = literal := by
  by_cases odd : literal % 2 = 1 <;>
    simp only [ofLiteral, Edge.literal, odd, decide_true, decide_false,
      Bool.toNat_true, Bool.toNat_false] <;>
    omega

theorem literal_inj {left right : Edge} :
    left.literal = right.literal ↔ left = right := by
  constructor
  · intro equality
    rw [← ofLiteral_literal left, equality, ofLiteral_literal]
  · intro equality
    rw [equality]

instance : LT Edge :=
  ⟨fun left right => left.literal < right.literal⟩

instance : LE Edge :=
  ⟨fun left right => left.literal ≤ right.literal⟩

instance (left right : Edge) : Decidable (left < right) :=
  inferInstanceAs (Decidable (left.literal < right.literal))

instance (left right : Edge) : Decidable (left ≤ right) :=
  inferInstanceAs (Decidable (left.literal ≤ right.literal))

theorem lt_iff {left right : Edge} :
    left < right ↔ left.literal < right.literal :=
  Iff.rfl

theorem node_ne_zero_of_lt {first second : Edge} (ascending : first < second)
    (notConstant : first.node ≠ 0) : second.node ≠ 0 := by
  have literals := lt_iff.mp ascending
  have bit := second.complement.toNat_le
  simp only [literal] at literals
  omega

def plain (node : Nat) : Edge :=
  { node := node, complement := false }

/-- The constant signal: node 0 is constant false. -/
def constant (value : Bool) : Edge :=
  { node := 0, complement := value }

/-- The same node, complemented once more if `flip` holds. -/
def complementIf (edge : Edge) (flip : Bool) : Edge :=
  { edge with complement := edge.complement ^^ flip }

def not (edge : Edge) : Edge :=
  edge.complementIf true

def isFalse (edge : Edge) : Bool :=
  edge.node == 0 && !edge.complement

def isTrue (edge : Edge) : Bool :=
  edge.node == 0 && edge.complement

/-- Whether two edges read one node with opposite polarities. -/
def isComplementOf (left right : Edge) : Bool :=
  left.node == right.node && (left.complement ^^ right.complement)

/-- A node's number, after an exclamation mark if it is complemented. -/
def text (edge : Edge) : String :=
  if edge.complement then s!"!{edge.node}" else s!"{edge.node}"

def sort (edges : List Edge) : List Edge :=
  edges.mergeSort (fun left right => decide (left ≤ right))

def value (valuation : Nat → Bool) (edge : Edge) : Bool :=
  valuation edge.node ^^ edge.complement

@[simp] theorem node_complementIf (edge : Edge) (flip : Bool) :
    (edge.complementIf flip).node = edge.node :=
  rfl

@[simp] theorem node_not (edge : Edge) : edge.not.node = edge.node :=
  rfl

@[simp] theorem not_not (edge : Edge) : edge.not.not = edge := by
  simp [not, complementIf]

@[simp] theorem value_complementIf
    (valuation : Nat → Bool) (edge : Edge) (flip : Bool) :
    (edge.complementIf flip).value valuation =
      (edge.value valuation ^^ flip) := by
  simp [value, complementIf]

@[simp] theorem value_not (valuation : Nat → Bool) (edge : Edge) :
    edge.not.value valuation = !edge.value valuation := by
  simp [not]

end Edge

end AndInverter
