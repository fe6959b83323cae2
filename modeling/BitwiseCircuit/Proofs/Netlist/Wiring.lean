import Mathlib.Logic.Relation
import BitwiseCircuit.Netlist

/-!
# The wiring of a netlist

The wiring is what stays when words are computed: the names and numbers of the
wires, where they are mentioned, and the gates that drive them.  It makes a
directed graph, with an edge from each wire to the wires that its gate reads.

Main results:

- Definitions `Netlist.Reads`, `Netlist.Needs` and `Netlist.OnCycle` are the edges
  of that graph, reachability along them, and the wires that reach themselves.
- Definition `Netlist.fresh` forgets all computed words, and `Netlist.SameWiring`
  compares two netlists without them.
- Theorem `Netlist.SameWiring.eq_of_value?_eq`: such netlists are equal if they agree on the
  words and on their number.
- Theorem `Netlist.sameWiring_settle`: computing a word keeps the wiring.
- Theorems `Netlist.find?_intern_eq` and `Netlist.wire?_intern`: what a lookup
  that may add a wire leaves behind.
-/

namespace BitwiseCircuit

namespace Netlist

variable {net net' net'' : Netlist} {id x y : WireId} {name : String} {value : Word}

/-! ## Looking at one wire -/

/-- The wire with a given number has a given name. -/
def IsNamed (net : Netlist) (id : WireId) (name : String) : Prop :=
  ∃ wire, net.wire? id = some wire ∧ wire.name = name

/-- A number below the size names a wire. -/
theorem exists_wire_of_lt (h : id < net.size) : ∃ wire, net.wire? id = some wire :=
  ⟨net.wires[id], Array.getElem?_eq_getElem h⟩

/-- Only numbers below the size name a wire. -/
theorem lt_size_of_wire? {wire : Wire} (h : net.wire? id = some wire) : id < net.size :=
  (Array.getElem?_eq_some_iff.mp h).1

/-- There is no wire from the size on. -/
theorem wire?_eq_none (h : ¬ id < net.size) : net.wire? id = none :=
  Array.getElem?_eq_none (Nat.not_lt.mp h)

/-- Only the wires of the netlist have drivers. -/
theorem lt_size_of_driver? {driver : Driver} (h : net.driver? id = some driver) :
    id < net.size := by
  rcases Option.bind_eq_some_iff.mp h with ⟨wire, hwire, _⟩
  exact lt_size_of_wire? hwire

/-- Only the wires of the netlist have words. -/
theorem lt_size_of_value? (h : net.value? id = some value) : id < net.size := by
  rcases Option.bind_eq_some_iff.mp h with ⟨wire, hwire, _⟩
  exact lt_size_of_wire? hwire

/-- The word of a wire is the one in its record. -/
theorem value?_of_wire? {wire : Wire} (h : net.wire? id = some wire) :
    net.value? id = wire.value := by
  simp [value?, h]

/-- The driver of a wire is the one in its record. -/
theorem driver?_of_wire? {wire : Wire} (h : net.wire? id = some wire) :
    net.driver? id = wire.driver := by
  simp [driver?, h]

/-! ## The dependency graph -/

/-- The gate that drives the wire `x` reads the wire `y`. -/
def Reads (net : Netlist) (x y : WireId) : Prop :=
  ∃ driver, net.driver? x = some driver ∧ y ∈ driver.gate.wires

/-- The wire `y` is reachable from `x` through operands of gates; every wire is
reachable from itself. -/
def Needs (net : Netlist) : WireId → WireId → Prop :=
  Relation.ReflTransGen net.Reads

/-- The wire `x` lies on a dependency cycle. -/
def OnCycle (net : Netlist) (x : WireId) : Prop :=
  Relation.TransGen net.Reads x x

/-! ## Netlists with the same wiring -/

/-- The netlist with the same wires of which no word has been computed. -/
def fresh (net : Netlist) : Netlist :=
  ⟨net.wires.map fun wire => { wire with value := none }, net.index, 0⟩

@[simp]
theorem wire?_fresh (net : Netlist) (id : WireId) :
    net.fresh.wire? id = (net.wire? id).map fun wire => { wire with value := none } := by
  simp [fresh, wire?]

@[simp]
theorem size_fresh (net : Netlist) : net.fresh.size = net.size := by
  simp [fresh, size]

@[simp]
theorem find?_fresh (net : Netlist) (name : String) : net.fresh.find? name = net.find? name :=
  rfl

@[simp]
theorem driver?_fresh (net : Netlist) (id : WireId) : net.fresh.driver? id = net.driver? id := by
  cases h : net.wire? id <;> simp [driver?, h]

@[simp]
theorem value?_fresh (net : Netlist) (id : WireId) : net.fresh.value? id = none := by
  cases h : net.wire? id <;> simp [value?, h]

@[simp]
theorem fresh_fresh (net : Netlist) : net.fresh.fresh = net.fresh := by
  simp [fresh, Function.comp_def]

/-- Two netlists differ at most in which words have been computed. -/
def SameWiring (net net' : Netlist) : Prop :=
  net.fresh = net'.fresh

/-- Forgetting the words keeps the wiring. -/
theorem sameWiring_fresh (net : Netlist) : net.fresh.SameWiring net :=
  fresh_fresh net

namespace SameWiring

/-- Having the same wiring is reflexive. -/
theorem refl (net : Netlist) : net.SameWiring net :=
  rfl

/-- Having the same wiring is symmetric. -/
theorem symm (h : net.SameWiring net') : net'.SameWiring net :=
  Eq.symm h

/-- Having the same wiring is transitive. -/
theorem trans (h : net.SameWiring net') (h' : net'.SameWiring net'') :
    net.SameWiring net'' :=
  Eq.trans h h'

/-- The same wiring has as many wires. -/
theorem size_eq (h : net.SameWiring net') : net.size = net'.size := by
  simpa using congrArg size h

/-- The same wiring finds each name under the same number. -/
theorem find?_eq (h : net.SameWiring net') (name : String) :
    net.find? name = net'.find? name := by
  simpa using congrArg (find? · name) h

/-- The same wiring has the same drivers. -/
theorem driver?_eq (h : net.SameWiring net') (id : WireId) :
    net.driver? id = net'.driver? id := by
  simpa using congrArg (driver? · id) h

/-- A wire is the same in both netlists, its word aside. -/
theorem exists_wire {wire : Wire} (h : net.SameWiring net') (hwire : net.wire? id = some wire) :
    ∃ value, net'.wire? id = some { wire with value } := by
  have hfresh := congrArg (wire? · id) h
  simp only [wire?_fresh, hwire, Option.map_some] at hfresh
  rcases Option.map_eq_some_iff.mp hfresh.symm with ⟨wire', hwire', heq⟩
  refine ⟨wire'.value, ?_⟩
  rw [hwire']
  cases wire
  cases wire'
  simp_all

/-- The same wiring has the same names. -/
theorem isNamed_iff (h : net.SameWiring net') : net.IsNamed id name ↔ net'.IsNamed id name := by
  constructor
  · rintro ⟨wire, hwire, hname⟩
    rcases h.exists_wire hwire with ⟨value, hwire'⟩
    exact ⟨_, hwire', hname⟩
  · rintro ⟨wire, hwire, hname⟩
    rcases h.symm.exists_wire hwire with ⟨value, hwire'⟩
    exact ⟨_, hwire', hname⟩

/-- Netlists with the same wiring are equal if they have the same words and the same counter. -/
theorem eq_of_value?_eq (h : net.SameWiring net') (hvalue : ∀ id, net.value? id = net'.value? id)
    (hevaluations : net.evaluations = net'.evaluations) : net = net' := by
  have hwires : net.wires = net'.wires := by
    refine Array.ext_getElem? fun id => ?_
    change net.wire? id = net'.wire? id
    by_cases hlt : id < net.size
    · rcases exists_wire_of_lt hlt with ⟨wire, hwire⟩
      rcases h.exists_wire hwire with ⟨value, hwire'⟩
      have hword : wire.value = value := by
        rw [← value?_of_wire? hwire, hvalue id, value?_of_wire? hwire']
      subst hword
      rw [hwire, hwire']
    · rw [wire?_eq_none hlt, wire?_eq_none (h.size_eq ▸ hlt)]
  have hindex : net.fresh.index = net'.fresh.index := congrArg index h
  rcases net with ⟨wires, index, evaluations⟩
  rcases net' with ⟨wires', index', evaluations'⟩
  cases hwires
  cases hindex
  cases hevaluations
  rfl

/-- The same wiring makes the same dependency graph. -/
theorem reads_eq (h : net.SameWiring net') : net.Reads = net'.Reads := by
  funext x y
  simp only [Reads, h.driver?_eq]

end SameWiring

/-! ## Computing a word -/

/-- Computing a word keeps the wiring. -/
theorem sameWiring_settle (net : Netlist) (id : WireId) (value : Word) :
    net.SameWiring (net.settle id value) := by
  have hwires : net.fresh.wires = (net.settle id value).fresh.wires := by
    apply Array.ext_getElem?
    intro i
    simp only [fresh, settle, Array.getElem?_map, Array.getElem?_modify]
    split
    · cases net.wires[i]? <;> rfl
    · rfl
  simp only [SameWiring, fresh, settle] at hwires ⊢
  rw [hwires]

/-- A wire has the word that was computed for it. -/
theorem value?_settle_self (h : id < net.size) : (net.settle id value).value? id = some value := by
  rcases exists_wire_of_lt h with ⟨wire, hwire⟩
  simp [value?, wire?_settle, hwire]

/-- Computing a word leaves all other words as they are. -/
theorem value?_settle_of_ne (h : x ≠ id) : (net.settle id value).value? x = net.value? x := by
  simp [value?, wire?_settle, h.symm]

/-! ## Looking up a wire that may be new -/

/-- A lookup that may add a wire leaves every other name as it was. -/
theorem find?_intern_eq (net : Netlist) (name other : String) (position : Position) :
    (net.intern name position).2.find? other =
      if other = name then some (net.intern name position).1 else net.find? other := by
  by_cases hname : other = name
  · subst other
    simp [find?_intern]
  · rw [if_neg hname]
    cases hfind : net.find? name with
    | some id => simp [intern_of_find?_eq_some position hfind]
    | none =>
        simp only [intern, hfind]
        simp [find?, Std.TreeMap.getElem?_insert, Ne.symm hname]

/-- A lookup that adds a wire adds it after all others, without a driver. -/
theorem wire?_intern (net : Netlist) (name : String) (position : Position) (x : WireId) :
    (net.intern name position).2.wire? x =
      if net.find? name = none ∧ x = net.size then some ⟨name, position, none, none⟩
      else net.wire? x := by
  cases hfind : net.find? name with
  | some id => simp [intern_of_find?_eq_some position hfind]
  | none => simp [intern, hfind, wire?, size, Array.getElem?_push]

/-- A lookup adds one wire if the name is new, and none otherwise. -/
theorem size_intern (net : Netlist) (name : String) (position : Position) :
    (net.intern name position).2.size =
      if net.find? name = none then net.size + 1 else net.size := by
  cases hfind : net.find? name with
  | some id => simp [intern_of_find?_eq_some position hfind]
  | none => simp [intern, hfind, size]

/-- A lookup evaluates no gate. -/
theorem evaluations_intern (net : Netlist) (name : String) (position : Position) :
    (net.intern name position).2.evaluations = net.evaluations := by
  cases hfind : net.find? name with
  | some id => rw [intern_of_find?_eq_some position hfind]
  | none => simp [intern, hfind]

/-- A lookup never changes the wires that are there. -/
theorem wire?_intern_of_lt (name : String) (position : Position) (h : x < net.size) :
    (net.intern name position).2.wire? x = net.wire? x := by
  rw [wire?_intern, if_neg]
  rintro ⟨_, rfl⟩
  exact Nat.lt_irrefl _ h

/-- A wire that a lookup adds is driven by nothing. -/
theorem driver?_intern (net : Netlist) (name : String) (position : Position) (x : WireId) :
    (net.intern name position).2.driver? x = net.driver? x := by
  by_cases hlt : x < net.size
  · simp [driver?, wire?_intern_of_lt name position hlt]
  · have hnone : net.wire? x = none := wire?_eq_none hlt
    simp only [driver?, wire?_intern, hnone]
    split <;> rfl

/-- A wire that a lookup adds has no word. -/
theorem value?_intern (net : Netlist) (name : String) (position : Position) (x : WireId) :
    (net.intern name position).2.value? x = net.value? x := by
  by_cases hlt : x < net.size
  · simp [value?, wire?_intern_of_lt name position hlt]
  · have hnone : net.wire? x = none := wire?_eq_none hlt
    simp only [value?, wire?_intern, hnone]
    split <;> rfl

end Netlist

end BitwiseCircuit
