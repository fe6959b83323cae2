import Std.Data.TreeMap
import BitwiseCircuit.Gate
import BitwiseCircuit.Position

/-!
# Netlists

A netlist is the table of a circuit's wires, numbered in the order in which they
are first mentioned.  A wire may be driven by a gate, and it keeps its word once
that has been computed.  The netlist counts these computations.

Main results:

- Definition `Netlist.intern` finds a wire by name and adds it if it is new;
  `Netlist.drive` gives a wire its gate, and `Netlist.settle` its word.
- Theorems `Netlist.find?_intern`, `Netlist.wire?_drive` and
  `Netlist.wire?_settle` say what each of these changes.
- Definition `Netlist.listing` lists all wires in one of the two orders in which
  they are reported.
-/

namespace BitwiseCircuit

/-- The number of a wire in its netlist, counted from zero. -/
abbrev WireId := Nat

/-- The gate that drives a wire, and the place where the wire is assigned. -/
structure Driver where
  gate : Gate WireId
  position : Position
deriving DecidableEq, Repr

/-- A wire: its name, where it is first mentioned, what drives it, and its word
once that is known. -/
structure Wire where
  name : String
  firstSeen : Position
  driver : Option Driver
  value : Option Word
deriving DecidableEq, Repr

/-- The place that is shown for a wire: where it is assigned, or else where it
is first mentioned. -/
def Wire.position (wire : Wire) : Position :=
  (wire.driver.map (·.position)).getD wire.firstSeen

/-- A table of wires, the number of each name in it, and how many gates have
been computed. -/
structure Netlist where
  wires : Array Wire
  index : Std.TreeMap String WireId
  evaluations : Nat

namespace Netlist

/-- The netlist without wires. -/
def empty : Netlist := ⟨#[], ∅, 0⟩

instance : Inhabited Netlist := ⟨empty⟩

/-! ## Looking up wires -/

/-- How many wires there are. -/
def size (net : Netlist) : Nat :=
  net.wires.size

/-- Whether there are no wires. -/
def isEmpty (net : Netlist) : Bool :=
  net.wires.isEmpty

/-- The number of the wire with a given name. -/
def find? (net : Netlist) (name : String) : Option WireId :=
  net.index[name]?

/-- The wire with a given number. -/
def wire? (net : Netlist) (id : WireId) : Option Wire :=
  net.wires[id]?

/-- The name of the wire with a given number; empty if there is none. -/
def nameOf (net : Netlist) (id : WireId) : String :=
  ((net.wire? id).map (·.name)).getD ""

/-- What drives the wire with a given number. -/
def driver? (net : Netlist) (id : WireId) : Option Driver :=
  (net.wire? id).bind (·.driver)

/-- The word of the wire with a given number, once it is known. -/
def value? (net : Netlist) (id : WireId) : Option Word :=
  (net.wire? id).bind (·.value)

/-- The word of an operand, once it is known. -/
def read? (net : Netlist) : Operand WireId → Option Word
  | .literal value => some value
  | .wire id => net.value? id

/-! ## Changing wires -/

/-- The number of the wire with a given name; a name that is new becomes the
last wire, first mentioned at `position` and driven by nothing. -/
def intern (net : Netlist) (name : String) (position : Position) : WireId × Netlist :=
  match net.find? name with
  | some id => (id, net)
  | none =>
    let id := net.size
    (id, { net with
      wires := net.wires.push ⟨name, position, none, none⟩
      index := net.index.insert name id })

/-- The netlist in which a wire is driven as given. -/
def drive (net : Netlist) (id : WireId) (driver : Driver) : Netlist :=
  { net with wires := net.wires.modify id fun wire => { wire with driver := some driver } }

/-- The netlist in which the word of a wire has been computed. -/
def settle (net : Netlist) (id : WireId) (value : Word) : Netlist :=
  { net with
    wires := net.wires.modify id fun wire => { wire with value := some value }
    evaluations := net.evaluations + 1 }

/-- A known name keeps its number, and nothing changes. -/
theorem intern_of_find?_eq_some {net : Netlist} {name : String} {id : WireId}
    (position : Position) (h : net.find? name = some id) :
    net.intern name position = (id, net) := by
  simp [intern, h]

/-- After `intern`, the name is found under the number that was given. -/
theorem find?_intern (net : Netlist) (name : String) (position : Position) :
    (net.intern name position).2.find? name = some (net.intern name position).1 := by
  cases h : net.find? name with
  | some id => simp [intern_of_find?_eq_some position h, h]
  | none =>
    simp only [intern, h]
    simp [find?]

@[simp]
theorem size_drive (net : Netlist) (id : WireId) (driver : Driver) :
    (net.drive id driver).size = net.size :=
  Array.size_modify

@[simp]
theorem find?_drive (net : Netlist) (id : WireId) (driver : Driver) (name : String) :
    (net.drive id driver).find? name = net.find? name :=
  rfl

/-- Driving a wire changes that wire alone. -/
theorem wire?_drive (net : Netlist) (id : WireId) (driver : Driver) (other : WireId) :
    (net.drive id driver).wire? other =
      if id = other then
        (net.wire? other).map fun wire => { wire with driver := some driver }
      else net.wire? other :=
  Array.getElem?_modify

@[simp]
theorem size_settle (net : Netlist) (id : WireId) (value : Word) :
    (net.settle id value).size = net.size :=
  Array.size_modify

/-- Settling a wire changes that wire alone. -/
theorem wire?_settle (net : Netlist) (id : WireId) (value : Word) (other : WireId) :
    (net.settle id value).wire? other =
      if id = other then
        (net.wire? other).map fun wire => { wire with value := some value }
      else net.wire? other :=
  Array.getElem?_modify

/-! ## Listing all wires -/

/-- The order in which all wires are reported. -/
inductive Order where
  /-- Ascending by name. -/
  | byName
  /-- As they are first mentioned. -/
  | byMention
deriving DecidableEq, Repr

/-- All wires with their names, in the given order. -/
def listing (net : Netlist) : Order → List (String × WireId)
  | .byName => net.index.toList
  | .byMention => net.wires.toList.zipIdx.map fun (wire, id) => (wire.name, id)

end Netlist

end BitwiseCircuit
