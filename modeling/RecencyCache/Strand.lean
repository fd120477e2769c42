import RecencyCache.Node
/-!
# Splicing and following a strand

Attaching a node in front of another, detaching a node from between its neighbours, and following
the links of a strand. The same code serves the order of recency and the hash chains; of a node it
touches nothing but the link on the strand in question.
-/
namespace RecencyCache.Strand

variable {κ ν : Type}

/-- The nodes of a cache. -/
abbrev Nodes (κ ν : Type) := Pool (Node κ ν)

/-- Changes the link of the node in slot `i`. -/
def relink (s : Strand) (nodes : Nodes κ ν) (i : SlotId) (f : Link → Link) :
    Except Fault (Nodes κ ν) :=
  nodes.modify i (·.mapLink s f)

/-- As `relink`, if there is a node to change. -/
def relink? (s : Strand) (nodes : Nodes κ ν) (i : Option SlotId) (f : Link → Link) :
    Except Fault (Nodes κ ν) :=
  match i with
  | some i => s.relink nodes i f
  | none => .ok nodes

/-- Puts the node in slot `i` in front of a list that begins with `head`. -/
def attach (s : Strand) (nodes : Nodes κ ν) (i : SlotId) (head : Option SlotId) :
    Except Fault (Nodes κ ν) := do
  let nodes ← s.relink nodes i fun _ => { prev := none, next := head }
  s.relink? nodes head fun l => { l with prev := some i }

/-- Takes the node in slot `i` out of its list, whose neighbours then meet. Answers the link that
the node had. -/
def detach (s : Strand) (nodes : Nodes κ ν) (i : SlotId) : Except Fault (Link × Nodes κ ν) := do
  let link := (← nodes.get i).link s
  let nodes ← s.relink? nodes link.prev fun l => { l with next := link.next }
  let nodes ← s.relink? nodes link.next fun l => { l with prev := link.prev }
  let nodes ← s.relink nodes i fun _ => {}
  pure (link, nodes)

/-- The first `n` slots on the way from `start`, or all of them if there are fewer. -/
def follow (s : Strand) (nodes : Nodes κ ν) : Nat → Option SlotId → Except Fault (List SlotId)
  | n + 1, some i => do
    let node ← nodes.get i
    let rest ← s.follow nodes n (node.link s).next
    pure (i :: rest)
  | _, _ => pure []

/-- All slots on the way from `start`. More of them than there are nodes is a fault. -/
def walk (s : Strand) (nodes : Nodes κ ν) (start : Option SlotId) :
    Except Fault (List SlotId) := do
  let slots ← s.follow nodes (nodes.live + 1) start
  if nodes.live < slots.length then throw .endless else pure slots

end RecencyCache.Strand
