import BitwiseCircuit.Position

/-!
# Faults in the wiring of a circuit

What can be wrong with the wires of a circuit whose grammar is right.

Main results:

- Definitions `WireFault.message`, `WireFault.code` and `WireFault.position` say
  what is wrong, under which code it is reported, and where it is.
-/

namespace BitwiseCircuit

/-- Wires that cannot be connected or computed. -/
inductive WireFault where
  /-- The wire is needed, but nothing drives it; it is first mentioned at
  `position`, or nowhere. -/
  | undefined (name : String) (position : Option Position)
  /-- The wire is driven twice. -/
  | reassigned (name : String) (first second : Position)
  /-- The wire is needed to compute itself, by way of the wires of `cycle`. -/
  | cyclic (name : String) (cycle : List String) (position : Position)
  /-- The literal has no word. -/
  | literalOutOfRange (spelling : String) (position : Position)
deriving DecidableEq, Repr

namespace WireFault

/-- What is wrong with the wires. -/
def message : WireFault → String
  | undefined name position =>
    "wire `" ++ name ++ "` is never assigned"
      ++ match position with
        | some position => " (referenced at " ++ toString position ++ ")"
        | none => ""
  | reassigned name first second =>
    "wire `" ++ name ++ "` is assigned at " ++ toString first ++ " and again at "
      ++ toString second
  | cyclic name cycle _ =>
    "wire `" ++ name ++ "` depends on itself: " ++ " -> ".intercalate cycle
  | literalOutOfRange spelling position =>
    "literal " ++ spelling ++ " at " ++ toString position ++ " does not fit in 16 bits"

/-- The code under which a fault is reported. -/
def code : WireFault → String
  | undefined .. => "E0301"
  | reassigned .. => "E0302"
  | cyclic .. => "E0303"
  | literalOutOfRange .. => "E0304"

/-- Where the fault is; a wire that the circuit does not mention is nowhere. -/
def position : WireFault → Option Position
  | undefined _ position => position
  | reassigned _ _ second => some second
  | cyclic _ _ position => some position
  | literalOutOfRange _ position => some position

end WireFault

end BitwiseCircuit
