import BitwiseCircuit.Proofs.Gate.Evaluation

/-!
# Gates over other wires

The wires of a gate may be replaced by others one by one.  Replacing is renaming that
never fails, and two gates that read wires under the same names are the same gate once
the wires are replaced by their names.

Main results:

- Definition `Gate.map` replaces the wires of a gate.
- Theorems `Gate.wires_map` and `Gate.eval_map`: the wires of the new gate, and its value.
- Theorem `Gate.Renamed.map_eq`: a renamed gate and the gate itself become the same gate
  where the wires and their new names are replaced alike.
- Theorem `Gate.tracks_mapWires`: two ways to rename wires that go through related states do
  so for whole gates.
-/

namespace BitwiseCircuit

variable {α β γ : Type}

/-- The operand with its wire replaced. -/
def Operand.map (f : α → β) (operand : Operand α) : Operand β :=
  Id.run (operand.mapWire fun a => pure (f a))

@[simp]
theorem Operand.map_literal (f : α → β) (value : Word) :
    (literal value).map f = literal value :=
  rfl

@[simp]
theorem Operand.map_wire (f : α → β) (a : α) : (wire a).map f = wire (f a) :=
  rfl

namespace Gate

/-- The gate with its wires replaced. -/
def map (f : α → β) (gate : Gate α) : Gate β :=
  Id.run (gate.mapWires fun a => pure (f a))

@[simp]
theorem map_buffer (f : α → β) (input : Operand α) :
    (buffer input).map f = buffer (input.map f) :=
  rfl

@[simp]
theorem map_unary (f : α → β) (op : UnaryOp) (input : Operand α) :
    (unary op input).map f = unary op (input.map f) :=
  rfl

@[simp]
theorem map_binary (f : α → β) (op : BinaryOp) (left right : Operand α) :
    (binary op left right).map f = binary op (left.map f) (right.map f) :=
  rfl

@[simp]
theorem map_shift (f : α → β) (op : ShiftOp) (input amount : Operand α) :
    (shift op input amount).map f = shift op (input.map f) (amount.map f) :=
  rfl

end Gate

variable {f f' : α → β} {g : β → γ}

/-- Replacing the wire of an operand replaces where its word is looked up. -/
theorem Operand.eval_map (operand : Operand α) (word : β → Word) :
    (operand.map f).eval word = operand.eval fun a => word (f a) := by
  cases operand <;> rfl

private theorem Operand.map_congr {operand : Operand α} (h : ∀ a, operand = wire a → f a = f' a) :
    operand.map f = operand.map f' := by
  cases operand with
  | literal value => rfl
  | wire a => rw [map_wire, map_wire, h a rfl]

private theorem Operand.map_eq_of_mapWire {φ : α → Option β} {h : α → γ} {operand : Operand α}
    {operand' : Operand β} (hmap : operand.mapWire φ = some operand')
    (hagree : ∀ a b, operand = wire a → φ a = some b → h a = g b) :
    operand.map h = operand'.map g := by
  cases operand with
  | literal value =>
      cases hmap
      rfl
  | wire a =>
      rcases Option.bind_eq_some_iff.mp hmap with ⟨b, hb, hwire⟩
      cases hwire
      rw [map_wire, map_wire, hagree a b rfl hb]

namespace Gate

/-- What a gate becomes depends on the wires that it reads, and on no others. -/
theorem map_congr {gate : Gate α} (h : ∀ a ∈ gate.wires, f a = f' a) :
    gate.map f = gate.map f' := by
  have hoperand : ∀ operand ∈ gate.operands, operand.map f = operand.map f' := by
    intro operand hmem
    refine Operand.map_congr fun a ha => h a ?_
    exact mem_wires_iff.mpr (ha ▸ hmem)
  cases gate with
  | buffer input => simp [hoperand input (by simp [operands])]
  | unary op input => simp [hoperand input (by simp [operands])]
  | binary op left right =>
      simp [hoperand left (by simp [operands]), hoperand right (by simp [operands])]
  | shift op input amount =>
      simp [hoperand input (by simp [operands]), hoperand amount (by simp [operands])]

/-- A gate whose wires are replaced by themselves stays as it is. -/
theorem map_eq_self {f : α → α} {gate : Gate α} (h : ∀ a ∈ gate.wires, f a = a) :
    gate.map f = gate := by
  have hoperand : ∀ operand : Operand α, operand.map (fun a => a) = operand := by
    intro operand
    cases operand <;> rfl
  calc
    gate.map f = gate.map (fun a => a) := map_congr h
    _ = gate := by cases gate <;> simp [hoperand]

/-- The wires of the new gate are the wires of the gate, replaced. -/
theorem wires_map (gate : Gate α) : (gate.map f).wires = gate.wires.map f := by
  have hoperand : ∀ operand : Operand α,
      (operand.map f).wire?.toList = operand.wire?.toList.map f := by
    intro operand
    cases operand <;> rfl
  rw [wires_eq_flatMap, wires_eq_flatMap]
  cases gate <;> simp [operands, hoperand]

/-- The new gate has the value of the gate on what the wires are replaced by. -/
theorem eval_map (gate : Gate α) (word : β → Word) :
    (gate.map f).eval word = gate.eval fun a => word (f a) := by
  cases gate <;> simp [Operand.eval_map]

/-- Where the wires of a gate and those of a renamed gate are replaced alike, the two become
the same gate. -/
theorem Renamed.map_eq {φ : α → Option β} {h : α → γ} {gate : Gate α} {gate' : Gate β}
    (hrenamed : Renamed φ gate gate') (hagree : ∀ a ∈ gate.wires, ∀ b, φ a = some b → h a = g b) :
    gate.map h = gate'.map g := by
  have hoperand : ∀ operand ∈ gate.operands, ∀ operand', operand.mapWire φ = some operand' →
      operand.map h = operand'.map g := by
    intro operand hmem operand' hmap
    refine Operand.map_eq_of_mapWire hmap fun a b ha hb => hagree a ?_ b hb
    exact mem_wires_iff.mpr (ha ▸ hmem)
  cases hrenamed with
  | buffer hinput => rw [map_buffer, map_buffer, hoperand _ (by simp [operands]) _ hinput]
  | unary hinput => rw [map_unary, map_unary, hoperand _ (by simp [operands]) _ hinput]
  | binary hleft hright =>
      rw [map_binary, map_binary, hoperand _ (by simp [operands]) _ hleft,
        hoperand _ (by simp [operands]) _ hright]
  | shift hinput hamount =>
      rw [map_shift, map_shift, hoperand _ (by simp [operands]) _ hinput,
        hoperand _ (by simp [operands]) _ hamount]

end Gate

/-! ## Renaming along related states -/

section Tracking

variable {δ ε σ τ : Type} {R : σ → τ → Prop}

/-- From related states, both computations lead to related states and return the same. -/
def Tracks (R : σ → τ → Prop) (act : StateM σ δ) (act' : StateM τ δ) : Prop :=
  ∀ s t, R s t → (act'.run t).1 = (act.run s).1 ∧ R (act.run s).2 (act'.run t).2

private theorem Tracks.refl_pure (a : δ) : Tracks R (pure a) (pure a) :=
  fun _ _ h => ⟨rfl, h⟩

/-- Sequences track each other if their parts do. -/
theorem Tracks.bind {act : StateM σ δ} {act' : StateM τ δ} {next : δ → StateM σ ε}
    {next' : δ → StateM τ ε} (h : Tracks R act act') (hnext : ∀ a, Tracks R (next a) (next' a)) :
    Tracks R (act >>= next) (act' >>= next') := by
  intro s t hst
  have hfirst := h s t hst
  rw [StateT.run_bind, StateT.run_bind]
  rcases hrun : act.run s with ⟨a, s'⟩
  rcases hrun' : act'.run t with ⟨a', t'⟩
  rw [hrun, hrun'] at hfirst
  rcases hfirst with ⟨hresult, hstates⟩
  obtain rfl : a' = a := hresult
  exact hnext a' s' t' hstates

variable {act : α → StateM σ γ} {act' : β → StateM τ γ}

private theorem Operand.tracks_mapWire (hact : ∀ a, Tracks R (act a) (act' (f a)))
    (operand : Operand α) : Tracks R (operand.mapWire act) ((operand.map f).mapWire act') := by
  cases operand with
  | literal value => exact .refl_pure _
  | wire a => exact (hact a).bind fun b => .refl_pure (Operand.wire b)

/-- Where wires are renamed alike along related states, so are gates. -/
theorem Gate.tracks_mapWires (hact : ∀ a, Tracks R (act a) (act' (f a))) (gate : Gate α) :
    Tracks R (gate.mapWires act) ((gate.map f).mapWires act') := by
  have hoperand := Operand.tracks_mapWire hact
  cases gate with
  | buffer input => exact (hoperand input).bind fun _ => .refl_pure _
  | unary op input => exact (hoperand input).bind fun _ => .refl_pure _
  | binary op left right =>
      exact (hoperand left).bind fun _ => (hoperand right).bind fun _ => .refl_pure _
  | shift op input amount =>
      exact (hoperand input).bind fun _ => (hoperand amount).bind fun _ => .refl_pure _

end Tracking

end BitwiseCircuit
