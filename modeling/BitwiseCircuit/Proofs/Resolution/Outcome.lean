import BitwiseCircuit.Proofs.Resolution.Cycle

/-!
# Outcomes of resolutions

Whether a wire can be resolved, and to which word, is a matter of the wiring below
it.  What earlier calls have computed, and whether they failed, makes no difference.

Main results:

- Theorem `Netlist.Reachable.resolve_outcome`: a name is resolved exactly if all that
  its wire needs is driven and free of cycles, to the word that the driving gates give,
  and otherwise the fault is one that the wiring has.
- Theorem `Netlist.Reachable.visit_eq_resolveId`: the search with its own stack and the
  recursive procedure return the same result and leave the same netlist.
-/

namespace BitwiseCircuit

namespace Netlist

variable {net : Netlist} {id : WireId} {name : String} {fault : WireFault} {value : Word}

/-! ## Values and faults -/

/-- The wiring that the wire `id` needs has what the fault tells of: a wire that nothing
drives, or a cycle.  No other fault can be explained so. -/
def Explains (net : Netlist) (id : WireId) : WireFault → Prop
  | .undefined name position => ∃ x wire, net.Needs id x ∧ net.wire? x = some wire ∧
      wire.driver = none ∧ wire.name = name ∧ some wire.firstSeen = position
  | .cyclic .. => ∃ x, net.Needs id x ∧ net.OnCycle x
  | .reassigned .. | .literalOutOfRange .. => False

/-- What obstructs a wire explains why it does not resolve. -/
theorem Obstructs.explains (h : net.Obstructs [] id fault) : net.Explains id fault := by
  cases fault with
  | cyclic name cycle position =>
      rcases h.exists_loop with ⟨x, more, _, hloop, hneeds, _⟩
      exact ⟨x, hneeds x List.mem_cons_self, hloop.onCycle⟩
  | undefined name position =>
      generalize hfault : WireFault.undefined name position = fault at h
      cases h with
      | @undriven x wire hneeds hwire hdriver =>
          cases hfault
          exact ⟨x, wire, hneeds, hwire, hdriver, rfl, rfl⟩
      | cyclic => cases hfault
  | reassigned name first second =>
      generalize hfault : WireFault.reassigned name first second = fault at h
      cases h <;> cases hfault
  | literalOutOfRange spelling position =>
      generalize hfault : WireFault.literalOutOfRange spelling position = fault at h
      cases h <;> cases hfault

/-- A wire with a fault below it is not resolvable. -/
theorem Explains.not_resolvable (h : net.Explains id fault) : ¬ net.Resolvable id := by
  intro hresolvable
  cases fault with
  | undefined name position =>
      rcases h with ⟨x, wire, hneeds, hwire, hnone, _⟩
      rcases hresolvable.driven x hneeds with ⟨driver, hdriver⟩
      rw [driver?_of_wire? hwire, hnone] at hdriver
      cases hdriver
  | cyclic name cycle position =>
      rcases h with ⟨x, hneeds, hcycle⟩
      exact hresolvable.acyclic x hneeds hcycle
  | reassigned name first second => exact h
  | literalOutOfRange spelling position => exact h

/-- The search for a wire of a coherent netlist succeeds exactly if the wire is
resolvable, with the word that the wiring gives. -/
theorem Coherent.search_outcome (h : net.Coherent) (hlt : id < net.size) :
    ((∃ value, (net.search id).1 = .ok value) ↔ net.Resolvable id) ∧
      (∀ value, (net.search id).1 = .ok value → net.Denotes id value) ∧
      ∀ fault, (net.search id).1 = .error fault → net.Explains id fault := by
  rcases (h.resolves hlt).1 with ⟨value, hok, hdenotes⟩ | ⟨fault, herror, hobstructs⟩
  · rw [on_resolveId] at hok
    simp only [hok, Except.ok.injEq, exists_eq', true_iff, reduceCtorEq, false_implies,
      implies_true, and_true, forall_eq']
    exact ⟨hdenotes.resolvable, hdenotes⟩
  · rw [on_resolveId] at herror
    simp only [herror, Except.error.injEq, reduceCtorEq, exists_false, false_iff, false_implies,
      implies_true, true_and, forall_eq']
    exact ⟨hobstructs.explains.not_resolvable, hobstructs.explains⟩

/-- A name of a reachable netlist is resolved exactly if all wires that its wire needs are
driven and none of them lies on a cycle; the word is then the one that the driving gates
give, and otherwise the fault tells of such a wire.  A name that no wire has is
undefined, and is mentioned nowhere. -/
theorem Reachable.resolve_outcome (h : net.Reachable) (name : String) :
    (∀ id, net.IsNamed id name →
        ((∃ value, ((resolve name).on net).1 = .ok value) ↔ net.Resolvable id) ∧
          (∀ value, ((resolve name).on net).1 = .ok value → net.Denotes id value) ∧
          ∀ fault, ((resolve name).on net).1 = .error fault → net.Explains id fault) ∧
      ((∀ id, ¬ net.IsNamed id name) →
        ((resolve name).on net).1 = .error (.undefined name none)) := by
  constructor
  · intro id hnamed
    have hfind : net.find? name = some id := (h.coherent.find?_iff name id).mpr hnamed
    rw [on_resolve_of_find?_eq_some hfind]
    exact h.coherent.search_outcome hnamed.lt_size
  · intro hunnamed
    have hfind : net.find? name = none := by
      rw [Option.eq_none_iff_forall_ne_some]
      intro id hfind
      exact hunnamed id ((h.coherent.find?_iff name id).mp hfind)
    rw [on_resolve_of_find?_eq_none hfind]

/-- In `tangled` the name `y` is resolved, `z` is not, and `v` is unknown. -/
theorem tangled_resolve_outcome :
    (tangled.Resolvable 2 ∧ tangled.Denotes 2 5) ∧
      (¬ tangled.Resolvable 3 ∧ ∃ x, tangled.Needs 3 x ∧ tangled.OnCycle x) ∧
      ((resolve "v").on tangled).1 = .error (.undefined "v" none) := by
  have hy := (reachable_tangled.resolve_outcome "y").1 2 ⟨_, rfl, rfl⟩
  have hz := (reachable_tangled.resolve_outcome "z").1 3 ⟨_, rfl, rfl⟩
  have hv := (reachable_tangled.resolve_outcome "v").2
  refine ⟨⟨hy.1.mp ⟨5, rfl⟩, hy.2.1 5 rfl⟩, ⟨fun hresolvable => ?_, ?_⟩, hv fun id hnamed => ?_⟩
  · rcases hz.1.mpr hresolvable with ⟨value, hvalue⟩
    cases hvalue
  · exact hz.2.2 (.cyclic "x" ["x", "w", "x"] ⟨1, 6⟩) rfl
  · have hfind := (reachable_tangled.coherent.find?_iff "v" id).mpr hnamed
    cases hfind

/-! ## The search and the recursion -/

/-- On every wire of a reachable netlist, the search with its own stack and the recursive
procedure return the same result and leave the same netlist; the procedure returns once
it may nest more calls than there are wires. -/
theorem Reachable.visit_eq_resolveId (h : net.Reachable) (hlt : id < net.size) {depth : Nat}
    (hdepth : net.size < depth) : (visit depth [] id).on net = some ((resolveId id).on net) := by
  have hstart := h.coherent.visitable hlt
  have hcard := card_unsettled_le net []
  cases depth with
  | zero => omega
  | succ depth =>
      rw [on_resolveId]
      rcases h.coherent.search_cases hlt with
        ⟨value, net', hvisits, hvalue, hsearch⟩ | ⟨fault, net', hvisits, hsearch⟩
      · rw [hsearch]
        exact hvisits.on_visit_ok hstart (by omega) hvalue
      · rw [hsearch]
        exact hvisits.on_visit_error hstart (by omega)

/-- Both fail alike on `z` in `tangled`. -/
theorem tangled_visit_eq_resolveId :
    tangled.Reachable ∧ 3 < tangled.size ∧ tangled.size < 5 ∧
      (visit 5 [] 3).on tangled = some ((resolveId 3).on tangled) := by
  have hlt : 3 < tangled.size := by decide +kernel
  have hdepth : tangled.size < 5 := by decide +kernel
  exact ⟨reachable_tangled, hlt, hdepth, reachable_tangled.visit_eq_resolveId hlt hdepth⟩

end Netlist

end BitwiseCircuit
