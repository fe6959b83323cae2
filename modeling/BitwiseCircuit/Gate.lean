import BitwiseCircuit.Operator

/-!
# Gates

A gate computes one word from one operand or two.  An operand is a constant word
or a wire; wires may be named in any way, so that the same gates serve before
and after the wires of a circuit are numbered.

Main results:

- Definition `Gate.apply` computes a gate, given a way to read its operands; it
  reads each of them once, from left to right, and in any monad.
- Definitions `Gate.operands` and `Gate.wires` list what a gate reads, and
  `Gate.mapWires` renames its wires in the same order.
-/

namespace BitwiseCircuit

variable {α β : Type}

/-- What a gate reads: a constant word, or the wire named by `α`. -/
inductive Operand (α : Type) where
  | literal (value : Word)
  | wire (id : α)
deriving DecidableEq, Repr

namespace Operand

/-- The wire that an operand is, if it is one. -/
def wire? : Operand α → Option α
  | literal _ => none
  | wire id => some id

/-- Renames the wire of an operand. -/
def mapWire {m : Type → Type} [Monad m] (f : α → m β) : Operand α → m (Operand β)
  | literal value => pure (.literal value)
  | wire id => do return .wire (← f id)

end Operand

/-- The gates of a circuit. -/
inductive Gate (α : Type) where
  /-- Passes its input on. -/
  | buffer (input : Operand α)
  /-- An operator with one operand. -/
  | unary (op : UnaryOp) (input : Operand α)
  /-- An operator that works on two words bit by bit. -/
  | binary (op : BinaryOp) (left right : Operand α)
  /-- A shift of one word by the number that the other one is. -/
  | shift (op : ShiftOp) (input amount : Operand α)
deriving DecidableEq, Repr

namespace Gate

/-- The operands of a gate, from left to right. -/
def operands : Gate α → List (Operand α)
  | buffer input => [input]
  | unary _ input => [input]
  | binary _ left right => [left, right]
  | shift _ input amount => [input, amount]

/-- The wires that a gate reads, from left to right. -/
def wires (gate : Gate α) : List α :=
  gate.operands.filterMap Operand.wire?

/-- The word that a gate computes from what `read` finds for its operands. -/
def apply {m : Type → Type} [Monad m] (read : Operand α → m Word) : Gate α → m Word
  | buffer input => read input
  | unary op input => do
    return op.apply (← read input)
  | binary op left right => do
    let x ← read left
    let y ← read right
    return op.apply x y
  | shift op input amount => do
    let x ← read input
    let n ← read amount
    return op.apply x n

/-- Renames the wires of a gate, from left to right. -/
def mapWires {m : Type → Type} [Monad m] (f : α → m β) : Gate α → m (Gate β)
  | buffer input => do
    return .buffer (← input.mapWire f)
  | unary op input => do
    return .unary op (← input.mapWire f)
  | binary op left right => do
    let x ← left.mapWire f
    let y ← right.mapWire f
    return .binary op x y
  | shift op input amount => do
    let x ← input.mapWire f
    let n ← amount.mapWire f
    return .shift op x n

/-- A gate can be computed only where all its operands can be read. -/
theorem apply_eq_none_iff {gate : Gate α} {read : Operand α → Option Word} :
    gate.apply read = none ↔ ∃ operand ∈ gate.operands, read operand = none := by
  cases gate with
  | buffer input => simp [apply, operands]
  | unary op input => cases h : read input <;> simp [apply, operands, h]
  | binary op left right =>
    cases hl : read left <;> cases hr : read right <;> simp [apply, operands, hl, hr]
  | shift op input amount =>
    cases hl : read input <;> cases hr : read amount <;> simp [apply, operands, hl, hr]

end Gate

end BitwiseCircuit
