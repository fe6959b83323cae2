import BitwiseCircuit.Netlist.Search

/-!
# Resolving wires

Wires are resolved one after another on one netlist, and each resolution finds
the words that earlier ones left there, also those that failed.

Main results:

- Definitions `Netlist.resolveId` and `Netlist.resolve` resolve one wire by its
  number and by its name.
- Definitions `Netlist.resolveAll` and `Netlist.resolveWires` report all wires
  in a given order, and the wires with given names as they are listed; the first
  wire that fails ends the report.
-/

namespace BitwiseCircuit

/-- A computation on a netlist that may fail; the netlist stays as it was when
it failed. -/
abbrev Resolution := ExceptT WireFault (StateM Netlist)

/-- The result of a resolution that starts from a given netlist, and the netlist
that it leaves. -/
def Resolution.on {α : Type} (net : Netlist) (resolution : Resolution α) :
    Except WireFault α × Netlist :=
  StateT.run (ExceptT.run resolution) net

/-- Names of wires, each with the wire's word. -/
abbrev Report := List (String × Word)

namespace Netlist

/-- The word of the wire with a given number. -/
def resolveId (id : WireId) : Resolution Word :=
  ExceptT.mk (modifyGet fun net => net.search id)

/-- The word of the wire with a given name; a name that no wire has is undefined,
and is mentioned nowhere. -/
def resolve (name : String) : Resolution Word := do
  match (← get).find? name with
  | some id => resolveId id
  | none => throw (.undefined name none)

/-- All wires with their words, in the given order. -/
def resolveAll (order : Order) : Resolution Report := do
  let wires := (← get).listing order
  wires.mapM fun (name, id) => do
    return (name, ← resolveId id)

/-- The wires with the given names, as they are listed, with their words. -/
def resolveWires (names : List String) : Resolution Report :=
  names.mapM fun name => do
    return (name, ← resolve name)

/-- The wires with the given names, or all wires in the given order if no name is
given. -/
def report (names : List String) (order : Order) : Resolution Report :=
  if names.isEmpty then resolveAll order else resolveWires names

end Netlist

end BitwiseCircuit
