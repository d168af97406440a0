/-! # The node graph of a YAML document -/

namespace LetPoly.Yaml

/-- The kinds of nodes. -/
inductive NodeKind where
  | unknown
  | document
  | sequence
  | mapping
  | scalar
  | alias
  deriving DecidableEq, Inhabited

/-- A node. Its tag is in short form. A mapping's content is its keys and values by turns, a
scalar's value is its text and an alias's value the name of its anchor. Other nodes are given by
their indices in the graph. -/
structure Node where
  kind : NodeKind
  tag : String := ""
  value : String := ""
  line : Int := 0
  content : List Nat := []
  target : Option Nat := none
  deriving DecidableEq, Inhabited

/-- The nodes of a document. -/
structure Graph where
  nodes : Array Node := #[]
  deriving DecidableEq, Inhabited

/-- The number of nodes. -/
def Graph.size (g : Graph) : Nat :=
  g.nodes.size

/-- The node with an index. -/
def Graph.node (g : Graph) (i : Nat) : Node :=
  g.nodes[i]?.getD { kind := .unknown }

end LetPoly.Yaml
