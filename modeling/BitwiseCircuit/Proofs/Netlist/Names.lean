import Mathlib.Logic.Function.Basic
import BitwiseCircuit.Proofs.Gate.Mapping
import BitwiseCircuit.Proofs.Netlist.Acceptance

/-!
# Netlists under other names

While a netlist is built, names are compared with each other and copied, and nothing else is
done with them.  If all names of a schematic are replaced, different ones by different ones,
then the same statements are accepted, and the same wires are connected by the same gates.

Main results:

- Definitions `Schematic.rename` and `WireFault.rename` replace all names.
- Definition `Netlist.Renames` compares two netlists that differ in the names of their wires.
- Theorem `Netlist.Renames.ofSchematic`: the netlists of a schematic and of the renamed one
  differ in this way, or building both fails at the same place.
-/

namespace BitwiseCircuit

/-! ## Other names -/

/-- The mention with its name replaced. -/
def Mention.rename (rename : String → String) (mention : Mention) : Mention :=
  { mention with name := rename mention.name }

/-- The expression with every name in it replaced. -/
def Expression.rename (rename : String → String) : Expression → Expression
  | literal value => literal value
  | wire source => wire (source.rename rename)
  | unary op operand => unary op (operand.rename rename)
  | binary op left right => binary op (left.rename rename) (right.rename rename)
  | shift op operand amount => shift op (operand.rename rename) amount

/-- The statement with every name in it replaced. -/
def Statement.rename (rename : String → String) (statement : Statement) : Statement :=
  ⟨statement.expression.rename rename, statement.result.rename rename⟩

/-- The schematic with every name in it replaced. -/
def Schematic.rename (rename : String → String) (schematic : Schematic) : Schematic :=
  ⟨schematic.statements.map (Statement.rename rename)⟩

/-- The fault with every name in it replaced; it stays where it is. -/
def WireFault.rename (rename : String → String) : WireFault → WireFault
  | undefined name position => undefined (rename name) position
  | reassigned name first second => reassigned (rename name) first second
  | cyclic name cycle position => cyclic (rename name) (cycle.map rename) position
  | literalOutOfRange spelling position => literalOutOfRange spelling position

/-- The wire with its name replaced; its gate reads wires by number and stays. -/
def Wire.rename (rename : String → String) (wire : Wire) : Wire :=
  { wire with name := rename wire.name }

variable {rename : String → String}

/-- The gate of an expression reads the other names, and a literal without a word stays one. -/
theorem Expression.toGate_rename (rename : String → String) (expression : Expression) :
    (expression.rename rename).toGate =
      mapBoth (WireFault.rename rename) (Gate.map (Mention.rename rename)) expression.toGate := by
  cases expression with
  | literal value =>
      cases hword : value.toWord with
      | ok word =>
          simp only [Expression.rename, toGate, hword]
          rfl
      | error fault =>
          obtain rfl := Numeral.eq_of_toWord_eq_error hword
          simp only [Expression.rename, toGate, hword]
          rfl
  | shift op operand amount =>
      cases hword : amount.toWord with
      | ok word =>
          simp only [Expression.rename, toGate, hword]
          rfl
      | error fault =>
          obtain rfl := Numeral.eq_of_toWord_eq_error hword
          simp only [Expression.rename, toGate, hword]
          rfl
  | _ => rfl

namespace Netlist

variable {net net' : Netlist} {id : WireId}

/-! ## Netlists that differ in names -/

/-- The second netlist has the same wires under other names, and finds them by these. -/
structure Renames (rename : String → String) (net net' : Netlist) : Prop where
  wires : net'.wires = net.wires.map (Wire.rename rename)
  find?_eq : ∀ name, net'.find? (rename name) = net.find? name

private theorem renames_empty (rename : String → String) : Renames rename empty empty where
  wires := by simp [empty]
  find?_eq name := by simp [find?, empty]

namespace Renames

/-- Renaming keeps the number of wires. -/
theorem size_eq (h : Renames rename net net') : net'.size = net.size := by
  rw [size, size, h.wires, Array.size_map]

/-- Renaming replaces the name of each wire and nothing else. -/
theorem wire?_eq (h : Renames rename net net') (id : WireId) :
    net'.wire? id = (net.wire? id).map (Wire.rename rename) := by
  rw [wire?, wire?, h.wires, Array.getElem?_map]

/-- Renaming keeps the drivers. -/
theorem driver?_eq (h : Renames rename net net') (id : WireId) :
    net'.driver? id = net.driver? id := by
  rw [driver?, driver?, h.wire?_eq]
  cases net.wire? id <;> rfl

/-- The wires are first mentioned in the same order. -/
theorem names_listing_byMention (h : Renames rename net net') :
    (net'.listing .byMention).map Prod.fst =
      ((net.listing .byMention).map Prod.fst).map rename := by
  simp [listing, h.wires, List.zipIdx_map, Wire.rename]

/-! ## Adding wires and drivers -/

/-- A name and the other name for it get the same number. -/
theorem intern (hinjective : Function.Injective rename) (h : Renames rename net net')
    (name : String) (position : Position) :
    (net'.intern (rename name) position).1 = (net.intern name position).1 ∧
      Renames rename (net.intern name position).2 (net'.intern (rename name) position).2 := by
  cases hfind : net.find? name with
  | some id =>
      have hfind' : net'.find? (rename name) = some id := by rw [h.find?_eq, hfind]
      rw [intern_of_find?_eq_some position hfind, intern_of_find?_eq_some position hfind']
      exact ⟨rfl, h⟩
  | none =>
      have hfind' : net'.find? (rename name) = none := by rw [h.find?_eq, hfind]
      have hnumber : (net'.intern (rename name) position).1 = (net.intern name position).1 := by
        simp [Netlist.intern, hfind, hfind', h.size_eq]
      refine ⟨hnumber, ?_, fun other => ?_⟩
      · simp only [Netlist.intern, hfind, hfind', h.wires, Array.map_push]
        rfl
      · rw [find?_intern_eq, find?_intern_eq, hnumber, h.find?_eq]
        simp only [hinjective.eq_iff]

/-- Looking up the wires of a gate gives the same numbers under the other names. -/
theorem tracks_mapWires (hinjective : Function.Injective rename) (gate : Gate Mention) :
    Tracks (Renames rename) (gate.mapWires internMention)
      ((gate.map (Mention.rename rename)).mapWires internMention) := by
  refine Gate.tracks_mapWires (fun mention => ?_) gate
  intro net net' h
  exact h.intern hinjective mention.name mention.position

/-- Driving a wire commutes with renaming. -/
theorem drive (h : Renames rename net net') (id : WireId) (driver : Driver) :
    Renames rename (net.drive id driver) (net'.drive id driver) := by
  refine ⟨Array.ext_getElem? fun x => ?_, h.find?_eq⟩
  change (net'.drive id driver).wire? x = _
  rw [wire?_drive, h.wire?_eq, Array.getElem?_map]
  change _ = ((net.drive id driver).wire? x).map (Wire.rename rename)
  rw [wire?_drive]
  split
  · cases net.wire? x <;> rfl
  · rfl

/-! ## Statements -/

/-- Adding a statement and adding the renamed one lead to the same, apart from names. -/
theorem assign (hinjective : Function.Injective rename) (h : Renames rename net net')
    (statement : Statement) :
    Matches (WireFault.rename rename) (Renames rename) (net.assign statement)
      (net'.assign (statement.rename rename)) := by
  have hintern := h.intern hinjective statement.result.name statement.result.position
  rcases hresult : net.intern statement.result.name statement.result.position with ⟨id, interned⟩
  rcases hresult' : net'.intern (rename statement.result.name) statement.result.position with
    ⟨id', interned'⟩
  rw [hresult, hresult'] at hintern
  rcases hintern with ⟨hid, hinterned⟩
  obtain rfl : id' = id := hid
  simp only [Netlist.assign, Statement.rename, Mention.rename, hresult, hresult',
    hinterned.driver?_eq, Expression.toGate_rename]
  cases hdriver : interned.driver? id' with
  | some driver => exact .error _
  | none =>
      cases hgate : statement.expression.toGate with
      | error fault => exact .error fault
      | ok gate =>
          have hnumbered := tracks_mapWires hinjective gate interned interned' hinterned
          rcases hrun : (gate.mapWires internMention).run interned with ⟨numbered, later⟩
          rcases hrun' : ((gate.map (Mention.rename rename)).mapWires internMention).run interned'
            with ⟨numbered', later'⟩
          rw [hrun, hrun'] at hnumbered
          rcases hnumbered with ⟨hgates, hlater⟩
          obtain rfl : numbered' = numbered := hgates
          simp only [mapBoth_ok, bind, Except.bind, hrun, hrun']
          exact .ok (hlater.drive id' _)

/-- A schematic and the renamed one become netlists that differ in names alone, or building
them fails with faults that do. -/
theorem ofSchematic (hinjective : Function.Injective rename) (schematic : Schematic) :
    Matches (WireFault.rename rename) (Renames rename) (ofSchematic schematic)
      (ofSchematic (schematic.rename rename)) :=
  Matches.foldlM (fun _ _ statement h => h.assign hinjective statement) schematic.statements
    (renames_empty rename)

end Renames

end Netlist

end BitwiseCircuit
