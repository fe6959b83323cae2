import BitwiseCircuit.Proofs.Search.Visits

/-!
# Resolution by recursion

The search for a wire's word keeps its own stack.  This file writes the same
computation as a plain recursive procedure, which remembers the words that it has
computed and gets the path of waiting wires as an argument.  It does not return if the
recursion goes too deep, but any depth beyond the number of wires is enough.

Main results:

- Definition `Netlist.visit` is the recursive procedure.
- Theorems `Netlist.Visits.on_visit_ok` and `Netlist.Visits.on_visit_error`: it returns
  what the derivation of its run says.
-/

namespace BitwiseCircuit

/-! ## Procedures -/

/-- A computation on a netlist that may fail, and that may also not return; when it
fails, the netlist stays as it was then. -/
abbrev Procedure := ExceptT WireFault (StateT Netlist Option)

namespace Procedure

variable {α β : Type}

/-- The result of a procedure that starts from a given netlist, with the netlist
that it leaves; `none` if it does not return. -/
def on (net : Netlist) (procedure : Procedure α) : Option (Except WireFault α × Netlist) :=
  StateT.run (ExceptT.run procedure) net

@[simp]
theorem on_pure (net : Netlist) (a : α) : (pure a : Procedure α).on net = some (.ok a, net) :=
  rfl

@[simp]
theorem on_throw (net : Netlist) (fault : WireFault) :
    (throw fault : Procedure α).on net = some (.error fault, net) :=
  rfl

@[simp]
theorem on_get (net : Netlist) : (get : Procedure Netlist).on net = some (.ok net, net) :=
  rfl

@[simp]
theorem on_set (net net' : Netlist) :
    (set net' : Procedure PUnit).on net = some (.ok ⟨⟩, net') :=
  rfl

@[simp]
theorem on_liftM (net : Netlist) (a? : Option α) :
    (liftM a? : Procedure α).on net = a?.map fun a => (.ok a, net) := by
  cases a? <;> rfl

@[simp]
theorem on_bind (net : Netlist) (first : Procedure α) (next : α → Procedure β) :
    (first >>= next).on net =
      (first.on net).bind fun (result, net') =>
        match result with
        | .ok a => (next a).on net'
        | .error fault => some (.error fault, net') := by
  simp only [on, ExceptT.run_bind, StateT.run_bind]
  congr
  funext ⟨result, net'⟩
  cases result <;> rfl

end Procedure

namespace Netlist

variable {depth : Nat} {net net' mid : Netlist} {path ids : List WireId} {id operand : WireId}
  {driver assigned : Driver} {fault : WireFault} {fault? : Option WireFault} {value : Word}

/-! ## The recursive procedure -/

/-- Computes the word of a wire that the wires of the path wait for.  A word that is
known is used again; otherwise the operands of the driving gate are visited, the last
one first, unless one that has no word is on the path or is the wire itself.  There is
no return from calls nested deeper than `depth`. -/
def visit : (depth : Nat) → (path : List WireId) → (id : WireId) → Procedure Word
  | 0, _, _ => liftM (none : Option Word)
  | depth + 1, path, id => do
    let net ← get
    let wire ← liftM (net.wire? id)
    match wire.value, wire.driver with
    | some value, _ => return value
    | none, none => throw wire.undefined
    | none, some driver =>
      let path := path ++ [id]
      match driver.gate.wires.find? (net.reenters path) with
      | some operand =>
        let assigned ← liftM (net.driver? operand)
        throw (net.cycleFault path operand assigned.position)
      | none =>
        driver.gate.wires.reverse.forM fun operand => do
          let _ ← visit depth path operand
        let net ← get
        let value ← liftM (driver.gate.apply net.read?)
        set (net.settle id value)
        return value

/-- Computes the words of some wires one after another. -/
def visitAll (depth : Nat) (path ids : List WireId) : Procedure Unit :=
  ids.forM fun id => do
    let _ ← visit depth path id

private theorem on_visit_of_settled (hvalue : net.value? id = some value) :
    (visit (depth + 1) path id).on net = some (.ok value, net) := by
  rcases Option.bind_eq_some_iff.mp hvalue with ⟨wire, hwire, hwireValue⟩
  simp [visit, hwire, hwireValue]

private theorem on_visit_of_undriven {wire : Wire} (hvalue : net.value? id = none)
    (hwire : net.wire? id = some wire) (hdriver : wire.driver = none) :
    (visit (depth + 1) path id).on net = some (.error wire.undefined, net) := by
  rw [value?_of_wire? hwire] at hvalue
  simp [visit, hwire, hvalue, hdriver]

private theorem on_visit_of_reenters (hvalue : net.value? id = none)
    (hdriver : net.driver? id = some driver)
    (hfind : driver.gate.wires.find? (net.reenters (path ++ [id])) = some operand)
    (hassigned : net.driver? operand = some assigned) :
    (visit (depth + 1) path id).on net =
      some (.error (net.cycleFault (path ++ [id]) operand assigned.position), net) := by
  rcases Option.bind_eq_some_iff.mp hdriver with ⟨wire, hwire, hwireDriver⟩
  rw [value?_of_wire? hwire] at hvalue
  simp [visit, hwire, hvalue, hwireDriver, hfind, hassigned]

private theorem on_visit_of_operand_error (hvalue : net.value? id = none)
    (hdriver : net.driver? id = some driver)
    (hfind : driver.gate.wires.find? (net.reenters (path ++ [id])) = none)
    (hoperands : (visitAll depth (path ++ [id]) driver.gate.wires.reverse).on net =
      some (.error fault, net')) :
    (visit (depth + 1) path id).on net = some (.error fault, net') := by
  rcases Option.bind_eq_some_iff.mp hdriver with ⟨wire, hwire, hwireDriver⟩
  rw [value?_of_wire? hwire] at hvalue
  rw [visitAll] at hoperands
  simp only [visit, Procedure.on_bind, Procedure.on_get, Procedure.on_liftM, hwire, hvalue,
    hwireDriver, hfind, hoperands, Option.bind_some, Option.map_some]

private theorem on_visit_of_operands_ok (hvalue : net.value? id = none)
    (hdriver : net.driver? id = some driver)
    (hfind : driver.gate.wires.find? (net.reenters (path ++ [id])) = none)
    (hoperands : (visitAll depth (path ++ [id]) driver.gate.wires.reverse).on net =
      some (.ok (), mid))
    (happly : driver.gate.apply mid.read? = some value) :
    (visit (depth + 1) path id).on net = some (.ok value, mid.settle id value) := by
  rcases Option.bind_eq_some_iff.mp hdriver with ⟨wire, hwire, hwireDriver⟩
  rw [value?_of_wire? hwire] at hvalue
  rw [visitAll] at hoperands
  simp only [visit, Procedure.on_bind, Procedure.on_get, Procedure.on_liftM, Procedure.on_set,
    Procedure.on_pure, hwire, hvalue, hwireDriver, hfind, hoperands, happly, Option.bind_some,
    Option.map_some]

@[simp]
theorem on_visitAll_nil (depth : Nat) (net : Netlist) (path : List WireId) :
    (visitAll depth path []).on net = some (.ok (), net) :=
  rfl

private theorem on_visitAll_cons_of_ok
    (hvisit : (visit depth path id).on net = some (.ok value, mid)) :
    (visitAll depth path (id :: ids)).on net = (visitAll depth path ids).on mid := by
  simp [visitAll, hvisit]

private theorem on_visitAll_cons_of_error
    (hvisit : (visit depth path id).on net = some (.error fault, net')) :
    (visitAll depth path (id :: ids)).on net = some (.error fault, net') := by
  simp [visitAll, hvisit]

/-! ## Derivations of the procedure -/

/-- The outcome of visits that end with a fault, or without one. -/
def visitResult : Option WireFault → Except WireFault Unit
  | some fault => .error fault
  | none => .ok ()

/-- Below one more wire of the path, one call less is enough. -/
theorem Visitable.card_unsettled_lt (h : net.Visitable path (id :: ids))
    (hvalue : net.value? id = none) (hdepth : (net.unsettled path).card < depth + 1) :
    (net.unsettled (path ++ [id])).card < depth := by
  have hlt : id < net.size := h.lt_size id List.mem_cons_self
  have hcard := card_unsettled_append hvalue hlt (h.not_mem id List.mem_cons_self)
  omega

/-- The procedure does what the derivation of its run says, wire after wire, if it may
nest more calls than there are wires without a word. -/
theorem Visits.on_visitAll (h : Visits path ids net fault? net') (hstart : net.Visitable path ids)
    (hdepth : (net.unsettled path).card < depth) :
    (visitAll depth path ids).on net = some (visitResult fault?, net') := by
  induction h generalizing depth with
  | nil => exact on_visitAll_nil _ _ _
  | settled hvalue _ ihrest =>
      rcases Option.isSome_iff_exists.mp hvalue with ⟨value, hvalue⟩
      cases depth with
      | zero => omega
      | succ depth =>
          rw [on_visitAll_cons_of_ok (on_visit_of_settled hvalue)]
          exact ihrest hstart.tail hdepth
  | undriven hvalue hwire hdriver =>
      cases depth with
      | zero => omega
      | succ depth => exact on_visitAll_cons_of_error (on_visit_of_undriven hvalue hwire hdriver)
  | cyclic hvalue hdriver hfind hassigned =>
      cases depth with
      | zero => omega
      | succ depth =>
          exact on_visitAll_cons_of_error (on_visit_of_reenters hvalue hdriver hfind hassigned)
  | failed hvalue hdriver hfind _ ihoperands =>
      cases depth with
      | zero => omega
      | succ depth =>
          have hoperands := ihoperands (hstart.operands hvalue hdriver hfind)
            (hstart.card_unsettled_lt hvalue hdepth)
          exact on_visitAll_cons_of_error
            (on_visit_of_operand_error hvalue hdriver hfind hoperands)
  | @computed path ids id net mid net' driver fault? value hvalue hdriver hfind hvisits happly _
      ihoperands ihrest =>
      have hbelowStart := hstart.operands hvalue hdriver hfind
      have hbelow := hvisits.visited hbelowStart
      have hlt : id < net.size := hstart.lt_size id List.mem_cons_self
      have hpath : id ∉ path := hstart.not_mem id List.mem_cons_self
      rcases hbelow.settle hdriver hpath happly with ⟨hgrows, hcoherent, hunsettled, _⟩
      have hrest := ihrest (hstart.rest hgrows hcoherent hunsettled)
        ((hbelow.card_unsettled_lt hvalue hlt hpath).trans hdepth)
      cases depth with
      | zero => omega
      | succ depth =>
          have hoperands := ihoperands hbelowStart (hstart.card_unsettled_lt hvalue hdepth)
          rw [on_visitAll_cons_of_ok
            (on_visit_of_operands_ok hvalue hdriver hfind hoperands happly)]
          exact hrest

/-- A run that fails is a failure of the procedure. -/
theorem Visits.on_visit_error (h : Visits path [id] net (some fault) net')
    (hstart : net.Visitable path [id]) (hdepth : (net.unsettled path).card < depth + 1) :
    (visit (depth + 1) path id).on net = some (.error fault, net') := by
  cases h with
  | settled _ hrest => cases hrest
  | undriven hvalue hwire hdriver => exact on_visit_of_undriven hvalue hwire hdriver
  | cyclic hvalue hdriver hfind hassigned =>
      exact on_visit_of_reenters hvalue hdriver hfind hassigned
  | failed hvalue hdriver hfind hvisits =>
      have hoperands := hvisits.on_visitAll (hstart.operands hvalue hdriver hfind)
        (hstart.card_unsettled_lt hvalue hdepth)
      exact on_visit_of_operand_error hvalue hdriver hfind hoperands
  | computed _ _ _ _ _ hrest => cases hrest

/-- A run that does not fail leaves the word that the procedure returns. -/
theorem Visits.on_visit_ok (h : Visits path [id] net none net')
    (hstart : net.Visitable path [id]) (hdepth : (net.unsettled path).card < depth + 1)
    (hvalue : net'.value? id = some value) :
    (visit (depth + 1) path id).on net = some (.ok value, net') := by
  cases h with
  | settled _ hrest =>
      cases hrest
      exact on_visit_of_settled hvalue
  | @computed _ _ _ _ mid _ driver _ computed hunsettled hdriver hfind hvisits happly hrest =>
      cases hrest
      have hlt : id < mid.size := by
        simpa using lt_size_of_value? hvalue
      have hoperands := hvisits.on_visitAll (hstart.operands hunsettled hdriver hfind)
        (hstart.card_unsettled_lt hunsettled hdepth)
      rw [value?_settle_self hlt, Option.some.injEq] at hvalue
      rw [← hvalue]
      exact on_visit_of_operands_ok hunsettled hdriver hfind hoperands happly

end Netlist

end BitwiseCircuit
