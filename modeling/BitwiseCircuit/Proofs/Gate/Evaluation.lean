import Mathlib.Data.List.Basic
import BitwiseCircuit.Gate

/-!
# Gates as functions of their wires

Where every wire has a word, a gate has one too.  This file gives that function
and relates it to `Gate.apply`, which reads operands one by one and may miss one.

Main results:

- Theorem `Gate.apply_eq_some_eval`: where every operand can be read, computing
  the gate gives its value.
- Theorem `Gate.eval_congr`: the value depends on the wires that the gate reads,
  and on nothing else.
- Theorem `Gate.mapWires_eq_some_iff`: renaming the wires of a gate, where that may
  fail, renames operand by operand; `Gate.Renamed.eval_eq` keeps the value.
-/

namespace BitwiseCircuit

variable {α β : Type}

/-- The word of an operand, given the word of each wire. -/
def Operand.eval (word : α → Word) : Operand α → Word
  | literal value => value
  | wire id => word id

namespace Gate

/-- The word of a gate, given the word of each wire. -/
def eval (word : α → Word) (gate : Gate α) : Word :=
  Id.run (gate.apply fun operand => pure (operand.eval word))

@[simp]
theorem eval_buffer (word : α → Word) (input : Operand α) :
    (buffer input).eval word = input.eval word :=
  rfl

@[simp]
theorem eval_unary (word : α → Word) (op : UnaryOp) (input : Operand α) :
    (unary op input).eval word = op.apply (input.eval word) :=
  rfl

@[simp]
theorem eval_binary (word : α → Word) (op : BinaryOp) (left right : Operand α) :
    (binary op left right).eval word = op.apply (left.eval word) (right.eval word) :=
  rfl

@[simp]
theorem eval_shift (word : α → Word) (op : ShiftOp) (input amount : Operand α) :
    (shift op input amount).eval word = op.apply (input.eval word) (amount.eval word) :=
  rfl

/-- A gate has two operands at most. -/
theorem length_wires_le (gate : Gate α) : gate.wires.length ≤ 2 := by
  have hfilter : gate.wires.length ≤ gate.operands.length :=
    List.length_filterMap_le _ _
  have hoperands : gate.operands.length ≤ 2 := by
    cases gate <;> simp [operands]
  omega

/-- The wires of a gate are those of its operands that are wires. -/
theorem mem_wires_iff {gate : Gate α} {id : α} :
    id ∈ gate.wires ↔ Operand.wire id ∈ gate.operands := by
  simp only [wires, List.mem_filterMap]
  constructor
  · rintro ⟨operand, hmem, hwire⟩
    cases operand with
    | literal value => simp [Operand.wire?] at hwire
    | wire other =>
        simp only [Operand.wire?, Option.some.injEq] at hwire
        rwa [← hwire]
  · intro hmem
    exact ⟨_, hmem, rfl⟩

/-- The wires of a gate are those of its operands, in their order. -/
theorem wires_eq_flatMap (gate : Gate α) :
    gate.wires = gate.operands.flatMap fun operand => operand.wire?.toList :=
  List.filterMap_eq_flatMap_toList ..

/-- A gate all of whose operands can be read computes its value. -/
theorem apply_eq_some_eval {gate : Gate α} {read : Operand α → Option Word}
    {word : α → Word}
    (hread : ∀ operand ∈ gate.operands, read operand = some (operand.eval word)) :
    gate.apply read = some (gate.eval word) := by
  cases gate with
  | buffer input => exact hread input (by simp [operands])
  | unary op input =>
      have hinput := hread input (by simp [operands])
      simp [apply, hinput]
  | binary op left right =>
      have hleft := hread left (by simp [operands])
      have hright := hread right (by simp [operands])
      simp [apply, hleft, hright]
  | shift op input amount =>
      have hinput := hread input (by simp [operands])
      have hamount := hread amount (by simp [operands])
      simp [apply, hinput, hamount]

/-- The value of a gate depends only on the words of the wires that it reads. -/
theorem eval_congr {gate : Gate α} {word word' : α → Word}
    (h : ∀ id ∈ gate.wires, word id = word' id) : gate.eval word = gate.eval word' := by
  have hread : ∀ operand ∈ gate.operands,
      some (operand.eval word) = some (operand.eval word') := by
    intro operand hmem
    cases operand with
    | literal value => rfl
    | wire id => exact congrArg some (h id (mem_wires_iff.mpr hmem))
  have heval : gate.apply (fun operand => some (operand.eval word)) = some (gate.eval word) :=
    apply_eq_some_eval fun _ _ => rfl
  have heval' : gate.apply (fun operand => some (operand.eval word)) = some (gate.eval word') :=
    apply_eq_some_eval hread
  exact Option.some.inj (heval.symm.trans heval')

end Gate

/-! ## Renaming wires -/

variable {f g : α → Option β}

private theorem Operand.mapWire_mono {operand : Operand α} {operand' : Operand β}
    (h : ∀ a b, f a = some b → g a = some b) (hmap : operand.mapWire f = some operand') :
    operand.mapWire g = some operand' := by
  cases operand with
  | literal value => exact hmap
  | wire a =>
      rcases Option.bind_eq_some_iff.mp hmap with ⟨b, hb, hwire⟩
      simpa [mapWire, h a b hb] using hwire

private theorem Operand.eval_of_mapWire {operand : Operand α} {operand' : Operand β}
    {word : α → Word} {word' : β → Word} (hmap : operand.mapWire f = some operand')
    (hword : ∀ a b, .wire a = operand → f a = some b → word a = word' b) :
    operand.eval word = operand'.eval word' := by
  cases operand with
  | literal value =>
      cases hmap
      rfl
  | wire a =>
      rcases Option.bind_eq_some_iff.mp hmap with ⟨b, hb, hwire⟩
      cases hwire
      exact hword a b rfl hb

private theorem Operand.map_wire?_of_mapWire {operand : Operand α} {operand' : Operand β}
    (hmap : operand.mapWire f = some operand') :
    operand.wire?.toList.map f = operand'.wire?.toList.map some := by
  cases operand with
  | literal value =>
      cases hmap
      rfl
  | wire a =>
      rcases Option.bind_eq_some_iff.mp hmap with ⟨b, hb, hwire⟩
      cases hwire
      simp [wire?, hb]

namespace Gate

/-- Gates are renamed operand by operand, and keep their operators. -/
inductive Renamed (f : α → Option β) : Gate α → Gate β → Prop where
  | buffer {input : Operand α} {input' : Operand β} (hinput : input.mapWire f = some input') :
      Renamed f (buffer input) (buffer input')
  | unary {op : UnaryOp} {input : Operand α} {input' : Operand β}
      (hinput : input.mapWire f = some input') : Renamed f (unary op input) (unary op input')
  | binary {op : BinaryOp} {left right : Operand α} {left' right' : Operand β}
      (hleft : left.mapWire f = some left') (hright : right.mapWire f = some right') :
      Renamed f (binary op left right) (binary op left' right')
  | shift {op : ShiftOp} {input amount : Operand α} {input' amount' : Operand β}
      (hinput : input.mapWire f = some input') (hamount : amount.mapWire f = some amount') :
      Renamed f (shift op input amount) (shift op input' amount')

/-- Renaming succeeds exactly where every operand can be renamed. -/
theorem mapWires_eq_some_iff {gate : Gate α} {gate' : Gate β} :
    gate.mapWires f = some gate' ↔ Renamed f gate gate' := by
  constructor
  · intro hmap
    cases gate with
    | buffer input =>
        rcases Option.bind_eq_some_iff.mp hmap with ⟨input', hinput, hgate⟩
        cases hgate
        exact .buffer hinput
    | unary op input =>
        rcases Option.bind_eq_some_iff.mp hmap with ⟨input', hinput, hgate⟩
        cases hgate
        exact .unary hinput
    | binary op left right =>
        rcases Option.bind_eq_some_iff.mp hmap with ⟨left', hleft, hrest⟩
        rcases Option.bind_eq_some_iff.mp hrest with ⟨right', hright, hgate⟩
        cases hgate
        exact .binary hleft hright
    | shift op input amount =>
        rcases Option.bind_eq_some_iff.mp hmap with ⟨input', hinput, hrest⟩
        rcases Option.bind_eq_some_iff.mp hrest with ⟨amount', hamount, hgate⟩
        cases hgate
        exact .shift hinput hamount
  · intro hrenamed
    cases hrenamed with
    | buffer hinput => simp [mapWires, hinput]
    | unary hinput => simp [mapWires, hinput]
    | binary hleft hright => simp [mapWires, hleft, hright]
    | shift hinput hamount => simp [mapWires, hinput, hamount]

/-- More names can be renamed, and those that could be get the same names. -/
theorem Renamed.mono {gate : Gate α} {gate' : Gate β} (h : Renamed f gate gate')
    (hfg : ∀ a b, f a = some b → g a = some b) : Renamed g gate gate' := by
  cases h with
  | buffer hinput => exact .buffer (Operand.mapWire_mono hfg hinput)
  | unary hinput => exact .unary (Operand.mapWire_mono hfg hinput)
  | binary hleft hright =>
      exact .binary (Operand.mapWire_mono hfg hleft) (Operand.mapWire_mono hfg hright)
  | shift hinput hamount =>
      exact .shift (Operand.mapWire_mono hfg hinput) (Operand.mapWire_mono hfg hamount)

/-- Renamed wires that keep their words leave the value of the gate. -/
theorem Renamed.eval_eq {gate : Gate α} {gate' : Gate β} {word : α → Word} {word' : β → Word}
    (h : Renamed f gate gate') (hword : ∀ a ∈ gate.wires, ∀ b, f a = some b → word a = word' b) :
    gate.eval word = gate'.eval word' := by
  have hoperand : ∀ operand ∈ gate.operands, ∀ operand', operand.mapWire f = some operand' →
      operand.eval word = operand'.eval word' := by
    intro operand hmem operand' hmap
    refine Operand.eval_of_mapWire hmap fun a b hoperand hb => hword a ?_ b hb
    exact mem_wires_iff.mpr (hoperand ▸ hmem)
  cases h with
  | buffer hinput => exact hoperand _ (by simp [operands]) _ hinput
  | unary hinput => rw [eval_unary, eval_unary, hoperand _ (by simp [operands]) _ hinput]
  | binary hleft hright =>
      rw [eval_binary, eval_binary, hoperand _ (by simp [operands]) _ hleft,
        hoperand _ (by simp [operands]) _ hright]
  | shift hinput hamount =>
      rw [eval_shift, eval_shift, hoperand _ (by simp [operands]) _ hinput,
        hoperand _ (by simp [operands]) _ hamount]

/-- The wires of a renamed gate are the renamed wires of the gate. -/
theorem Renamed.map_wires {gate : Gate α} {gate' : Gate β} (h : Renamed f gate gate') :
    gate.wires.map f = gate'.wires.map some := by
  rw [wires_eq_flatMap, wires_eq_flatMap]
  cases h with
  | buffer hinput => simp [operands, Operand.map_wire?_of_mapWire hinput]
  | unary hinput => simp [operands, Operand.map_wire?_of_mapWire hinput]
  | binary hleft hright =>
      simp [operands, Operand.map_wire?_of_mapWire hleft, Operand.map_wire?_of_mapWire hright]
  | shift hinput hamount =>
      simp [operands, Operand.map_wire?_of_mapWire hinput,
        Operand.map_wire?_of_mapWire hamount]

end Gate

end BitwiseCircuit
