import BitwiseCircuit.Proofs.Resolution.History
import BitwiseCircuit.Proofs.Search.Expansion

/-!
# The work of a resolution

However a reachable netlist is wired, with cycles or with wires that nothing drives, the
search for one of its wires ends soon, and on its way it never reads a word that is not
there.

Main results:

- Theorem `Search.Ends.turn_ne_stuck`: a search that ends gets stuck nowhere before.
- Theorem `Netlist.Reachable.search_completes`: how many iterations a search takes at
  most, that it expands no wire twice, and that all words that it reads are known.
-/

namespace BitwiseCircuit

namespace Search

variable {search first middle : Search} {net net' : Netlist} {iterations turns : Nat}
  {fault? : Option WireFault} {id : WireId} {gate : Gate WireId}

/-- A search that ends gets stuck nowhere before. -/
theorem Ends.turn_ne_stuck (h : Ends first iterations fault? net')
    (hsteps : Steps turns first middle) (net : Netlist) : middle.turn ≠ .stuck net := by
  induction hsteps generalizing iterations with
  | refl =>
      intro hstuck
      cases h with
      | done hturn => cases hturn.symm.trans hstuck
      | failed hturn => cases hturn.symm.trans hstuck
      | next hturn _ => cases hturn.symm.trans hstuck
  | next hturn _ ih =>
      cases h with
      | done hturn' => cases hturn.symm.trans hturn'
      | failed hturn' => cases hturn.symm.trans hturn'
      | next hturn' hends =>
          cases hturn.symm.trans hturn'
          exact ih hends

/-- A search that applies a gate and is not stuck at it finds a word for every operand. -/
theorem Applies.exists_apply (h : Applies search id gate)
    (hstuck : ∀ net, search.turn ≠ .stuck net) :
    (∀ operand ∈ gate.operands, (search.netlist.read? operand).isSome) ∧
      ∃ value, gate.apply search.netlist.read? = some value := by
  rcases search with ⟨net, stack, active⟩
  rcases h with ⟨below, driver, rfl, hvalue, hdriver, rfl⟩
  rcases Option.bind_eq_some_iff.mp hdriver with ⟨wire, hwire, hwireDriver⟩
  have happly : driver.gate.apply net.read? ≠ none := by
    intro hnone
    rw [Netlist.value?_of_wire? hwire] at hvalue
    exact hstuck net (by simp [turn, hwire, hvalue, hwireDriver, hnone])
  refine ⟨fun operand hmem => ?_, Option.ne_none_iff_exists'.mp happly⟩
  rw [Option.isSome_iff_ne_none]
  intro hnone
  exact happly (Gate.apply_eq_none_iff.mpr ⟨operand, hmem, hnone⟩)

end Search

namespace Netlist

variable {net : Netlist} {id : WireId}

open Search

/-- The search for a wire of a reachable netlist ends after at most three iterations for
each wire and one more, and then the wire has its word or a fault is returned.  It
expands no wire twice, and whenever it applies a gate, all operands have their words. -/
theorem Reachable.search_completes (h : net.Reachable) (hlt : id < net.size) :
    (∃ iterations fault? net', (start net id).Ends iterations fault? net' ∧
        iterations ≤ 3 * net.size + 1 ∧
        (fault? = none → ∃ value, net'.value? id = some value ∧
          (resolveId id).on net = (.ok value, net')) ∧
        ∀ fault, fault? = some fault → (resolveId id).on net = (.error fault, net')) ∧
      (∀ turns turns' middle last x, Steps turns (start net id) middle →
        Steps turns' (start net id) last → middle.Expands x → last.Expands x → turns = turns') ∧
      ∀ turns middle, Steps turns (start net id) middle →
        (∀ net', middle.turn ≠ .stuck net') ∧
        ∀ x gate, middle.Applies x gate →
          (∀ operand ∈ gate.operands, (middle.netlist.read? operand).isSome) ∧
            ∃ value, gate.apply middle.netlist.read? = some value := by
  rcases h.coherent.ends_cases hlt with ⟨iterations, fault?, net', hbound, hvisits, hends⟩
  refine ⟨⟨iterations, fault?, net', hends, hbound, ?_, ?_⟩, ?_, ?_⟩
  · rintro rfl
    have hsettled := (hvisits.visited (h.coherent.visitable hlt)).settled rfl id List.mem_cons_self
    rcases Option.isSome_iff_exists.mp hsettled with ⟨value, hvalue⟩
    exact ⟨value, hvalue, search_eq_ok hends hbound hvalue⟩
  · rintro fault rfl
    exact search_eq_error hends hbound
  · intro turns turns' middle last x hmiddle hlast hx hx'
    exact hmiddle.expands_once (orderly_start net id) hlast hx hx'
  · intro turns middle hmiddle
    have hstuck := hends.turn_ne_stuck hmiddle
    exact ⟨hstuck, fun x gate happlies => happlies.exists_apply hstuck⟩

/-- The search for `z` in `tangled`, which has four wires, ends with the cycle of `x` and
`w` after thirteen iterations at most. -/
theorem tangled_search_completes :
    tangled.Reachable ∧ 3 < tangled.size ∧ ∃ iterations net', iterations ≤ 13 ∧
      (start tangled 3).Ends iterations (some (.cyclic "x" ["x", "w", "x"] ⟨1, 6⟩)) net' := by
  have hlt : 3 < tangled.size := by decide +kernel
  have hsize : tangled.size = 4 := by decide +kernel
  have hfault : ((resolveId 3).on tangled).1 = .error (.cyclic "x" ["x", "w", "x"] ⟨1, 6⟩) := rfl
  rcases (reachable_tangled.search_completes hlt).1 with
    ⟨iterations, fault?, net', hends, hbound, hok, herror⟩
  cases fault? with
  | none =>
      rcases hok rfl with ⟨value, _, hresult⟩
      rw [hresult] at hfault
      cases hfault
  | some fault =>
      rw [herror fault rfl] at hfault
      cases hfault
      exact ⟨reachable_tangled, hlt, iterations, net', by omega, hends⟩

end Netlist

end BitwiseCircuit
