import Std.Data.TreeSet
import BitwiseCircuit.Netlist
import BitwiseCircuit.Netlist.Fault

/-!
# The search for a wire's word

To compute a wire, all wires that it depends on are computed first.  The search
keeps a stack of frames, so that no circuit is too deep for it.  A frame is
expanded when the wires that its gate still lacks are put above it; once these
are gone, its gate can be computed.  The expanded frames, from the bottom up, are
the path from the wire asked for to the one looked at, and a wire that is needed
while it is on this path depends on itself.

Main results:

- Definition `Search.turn` looks once at the top of the stack.
- Definition `Search.run` takes turns until the search ends; `Netlist.turnBound`
  is enough of them for any search.
- Definition `Netlist.search` computes one wire and keeps every word that was
  computed on the way, even when the search fails.
-/

namespace BitwiseCircuit

/-- A wire to be computed, and whether the wires that it lacked have been put
above it. -/
structure Frame where
  wire : WireId
  expanded : Bool
deriving DecidableEq, Repr

/-- A search: the netlist as it stands, the frames from the top down, and the
wires of the expanded ones. -/
structure Search where
  netlist : Netlist
  stack : List Frame
  active : Std.TreeSet WireId

/-- What one turn of a search leads to: its end with the netlist that it leaves,
or a further search. -/
inductive Turn where
  /-- The stack is empty. -/
  | done (net : Netlist)
  /-- A wire cannot be computed. -/
  | failed (fault : WireFault) (net : Netlist)
  /-- A frame names no wire, or its gate reads a wire that has no word. -/
  | stuck (net : Netlist)
  /-- The search goes on. -/
  | next (search : Search)

/-- The fault of needing a wire that nothing drives. -/
def Wire.undefined (wire : Wire) : WireFault :=
  .undefined wire.name (some wire.firstSeen)

namespace Search

/-- The search for one wire. -/
def start (net : Netlist) (id : WireId) : Search :=
  ⟨net, [⟨id, false⟩], ∅⟩

/-- The wires of the expanded frames, from the bottom up. -/
def path (stack : List Frame) : List WireId :=
  ((stack.filter (·.expanded)).map (·.wire)).reverse

/-- The fault of needing the wire `id` while it is on the path: the cycle is the
path from there on, closed by the wire itself. -/
def cycleFault (net : Netlist) (stack : List Frame) (id : WireId) : WireFault :=
  let name := net.nameOf id
  let cycle := ((path stack).dropWhile (· != id)).map net.nameOf
  .cyclic name (cycle ++ [name]) (((net.wire? id).map (·.position)).getD .first)

/-- Puts the wires that have no word on the stack, each above those before it;
stops at a wire that is active. -/
def demand (net : Netlist) (active : Std.TreeSet WireId) (stack : List Frame) :
    List WireId → Except WireFault (List Frame)
  | [] => .ok stack
  | id :: ids =>
    if (net.value? id).isSome then
      demand net active stack ids
    else if active.contains id then
      .error (cycleFault net stack id)
    else
      demand net active (⟨id, false⟩ :: stack) ids

/-- Looks at the top frame.  A wire that has its word is taken off; a wire that
nothing drives is a fault; a frame not yet expanded is expanded; the gate of an
expanded one is computed. -/
def turn (search : Search) : Turn :=
  let ⟨net, stack, active⟩ := search
  match stack with
  | [] => .done net
  | ⟨id, expanded⟩ :: below =>
    match net.wire? id with
    | none => .stuck net
    | some wire =>
      if wire.value.isSome then
        .next ⟨net, below, active⟩
      else
        match wire.driver with
        | none => .failed wire.undefined net
        | some driver =>
          if expanded then
            match driver.gate.apply net.read? with
            | none => .stuck net
            | some value => .next ⟨net.settle id value, below, active.erase id⟩
          else
            let active := active.insert id
            match demand net active (⟨id, true⟩ :: below) driver.gate.wires with
            | .error fault => .failed fault net
            | .ok stack => .next ⟨net, stack, active⟩

/-- Takes turns until the search ends, but at most `bound` of them; gives the
fault that it ends with, if any, and the netlist as it then stands. -/
def run : (bound : Nat) → Search → Option WireFault × Netlist
  | 0, search => (none, search.netlist)
  | bound + 1, search =>
    match search.turn with
    | .done net | .stuck net => (none, net)
    | .failed fault net => (some fault, net)
    | .next search => run bound search

end Search

namespace Netlist

/-- A number of turns that no search outlasts.  Each wire is expanded at most
once and then puts at most two frames on the stack, which holds one frame at the
start; each frame is taken off once, and the last turn finds the stack empty. -/
def turnBound (net : Netlist) : Nat :=
  3 * net.size + 2

/-- Computes the word of a wire.  When the search ends without a fault the wire
has its word; a number that names no wire counts as undefined. -/
def search (net : Netlist) (id : WireId) : Except WireFault Word × Netlist :=
  match (Search.start net id).run net.turnBound with
  | (some fault, net) => (.error fault, net)
  | (none, net) =>
    match net.value? id with
    | some value => (.ok value, net)
    | none => (.error (((net.wire? id).map (·.undefined)).getD (.undefined "" none)), net)

end Netlist

end BitwiseCircuit
