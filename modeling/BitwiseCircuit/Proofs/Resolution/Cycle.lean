import Mathlib.Data.List.Nodup
import BitwiseCircuit.Proofs.Resolution.History

/-!
# Reported cycles

When a resolution fails because a wire depends on itself, the fault lists the names
along the cycle.  The list is a cycle indeed: it starts and ends with the wire that
the fault is about, it has no other repetition, and each wire of it reads the next.

Main results:

- Theorem `Netlist.Obstructs.exists_loop`: a cyclic fault comes from a loop of wires.
- Theorem `Netlist.Reachable.reports_cycle_of_cyclic`: what a resolution reports is a cycle that
  the requested wire needs, shown where the first of its wires is assigned.
-/

namespace BitwiseCircuit

namespace Netlist

variable {net : Netlist} {id x y : WireId} {more : List WireId} {name : String}
  {cycle : List String} {position : Position}

/-! ## Loops of wires -/

/-- The wires `x :: more` are different, each of them reads the next one, and the last
one reads `x`. -/
structure Loop (net : Netlist) (x : WireId) (more : List WireId) : Prop where
  nodup : (x :: more).Nodup
  reads : (x :: more ++ [x]).IsChain net.Reads

/-- The first wire of a loop lies on a cycle. -/
theorem Loop.onCycle (h : net.Loop x more) : net.OnCycle x := by
  have hreads := h.reads
  cases more with
  | nil => exact .single (List.isChain_pair.mp hreads)
  | cons y more =>
      rcases List.isChain_cons_cons.mp hreads with ⟨hfirst, hrest⟩
      have hback : net.Needs y x :=
        List.relationReflTransGen_of_exists_isChain_cons (more ++ [x]) hrest (by simp)
      exact Relation.TransGen.head' hfirst hback

/-- A cyclic fault comes from a loop of wires that are needed, and is shown where the
first wire of the loop is assigned. -/
theorem Obstructs.exists_loop (h : net.Obstructs [] id (.cyclic name cycle position)) :
    ∃ x more assigned, net.Loop x more ∧ (∀ y ∈ x :: more, net.Needs id y) ∧
      net.driver? x = some assigned ∧ name = net.nameOf x ∧
      cycle = (x :: more ++ [x]).map net.nameOf ∧ position = assigned.position := by
  generalize hfault : WireFault.cyclic name cycle position = fault at h
  cases h with
  | undriven => cases hfault
  | @cyclic trail operand assigned hnodup hchain hmem hassigned =>
      cases hfault
      rw [List.nil_append] at hnodup hchain hmem ⊢
      rcases List.eq_append_cons_of_mem hmem with ⟨before, more, htrail, hbefore⟩
      have hneeds : ∀ y ∈ id :: trail, net.Needs id y :=
        hchain.left_of_append.induction (net.Needs id) _
          (fun _ _ hreads hneeds => hneeds.tail hreads) fun _ => .refl
      -- the loop is the part of the trail from the wire on that is needed again
      rw [htrail] at hnodup hchain hneeds ⊢
      rw [List.append_assoc] at hchain
      have hdrop : (before ++ operand :: more).dropWhile (· != operand) = operand :: more := by
        rw [List.dropWhile_append_of_pos, List.dropWhile_cons_of_neg]
        · simp
        · intro y hy
          simpa using fun heq : y = operand => hbefore (heq ▸ hy)
      refine ⟨operand, more, assigned, ⟨?_, ?_⟩, ?_, hassigned, rfl, ?_, rfl⟩
      · exact (List.nodup_append.mp hnodup).2.1
      · exact hchain.right_of_append
      · intro y hy
        exact hneeds y (List.mem_append_right before hy)
      · simp [hdrop]

/-! ## Cycles of names -/

/-- A cyclic fault with this name, cycle and position tells of a cycle that the wire
`id` needs. -/
structure ReportsCycle (net : Netlist) (id : WireId) (name : String) (cycle : List String)
    (position : Position) : Prop where
  two_le_length : 2 ≤ cycle.length
  head? : cycle.head? = some name
  getLast? : cycle.getLast? = some name
  nodup : cycle.dropLast.Nodup
  reads : cycle.IsChain fun a b => ∃ x y, net.IsNamed x a ∧ net.IsNamed y b ∧ net.Reads x y
  needed : ∀ a ∈ cycle, ∃ x, net.IsNamed x a ∧ net.Needs id x
  assigned : ∃ x driver, net.IsNamed x name ∧ net.driver? x = some driver ∧
    driver.position = position

/-- What a wire of the netlist needs is a wire of the netlist. -/
theorem WellWired.lt_size_of_needs (h : net.WellWired) (hlt : id < net.size)
    (hneeds : net.Needs id y) : y < net.size := by
  induction hneeds with
  | refl => exact hlt
  | tail _ hreads _ => exact h.operand_lt _ _ hreads

/-- The names along a loop are a cycle. -/
theorem Loop.reportsCycle (h : net.Loop x more) (hwired : net.WellWired) (hlt : id < net.size)
    (hneeds : ∀ y ∈ x :: more, net.Needs id y) {assigned : Driver}
    (hassigned : net.driver? x = some assigned) :
    net.ReportsCycle id (net.nameOf x) ((x :: more ++ [x]).map net.nameOf) assigned.position := by
  have hnamed : ∀ y ∈ x :: more, net.IsNamed y (net.nameOf y) := fun y hy =>
    isNamed_nameOf (hwired.lt_size_of_needs hlt (hneeds y hy))
  constructor
  · simp
  · simp
  · rw [List.map_append, List.map_singleton, List.getLast?_concat]
  · rw [List.map_append, List.map_singleton, List.dropLast_concat]
    refine h.nodup.map_on fun y hy z hz heq => ?_
    exact hwired.eq_of_isNamed (hnamed y hy) (heq ▸ hnamed z hz)
  · refine List.isChain_map_of_isChain net.nameOf (fun y z hreads => ?_) h.reads
    have hdriver : ∃ driver, net.driver? y = some driver := hreads.imp fun _ h => h.1
    rcases hdriver with ⟨driver, hdriver⟩
    exact ⟨y, z, isNamed_nameOf (lt_size_of_driver? hdriver),
      isNamed_nameOf (hwired.operand_lt y z hreads), hreads⟩
  · intro a ha
    rcases List.mem_map.mp ha with ⟨y, hy, rfl⟩
    have hmem : y ∈ x :: more := by
      rcases List.mem_append.mp hy with hy | hy
      · exact hy
      · exact List.mem_singleton.mp hy ▸ List.mem_cons_self
    exact ⟨y, hnamed y hmem, hneeds y hmem⟩
  · exact ⟨x, assigned, hnamed x List.mem_cons_self, hassigned, rfl⟩

/-- A search that ends with a cyclic fault has found a cycle that the wire needs. -/
theorem Coherent.reportsCycle (h : net.Coherent)
    (hfault : (net.search id).1 = .error (.cyclic name cycle position)) :
    net.ReportsCycle id name cycle position := by
  by_cases hlt : id < net.size
  · rcases (h.resolves hlt).1 with ⟨value, hok, _⟩ | ⟨fault, herror, hobstructs⟩
    · rw [on_resolveId, hfault] at hok
      cases hok
    · rw [on_resolveId, hfault] at herror
      cases herror
      rcases hobstructs.exists_loop with
        ⟨x, more, assigned, hloop, hneeds, hassigned, rfl, rfl, rfl⟩
      exact hloop.reportsCycle h.toWellWired hlt hneeds hassigned
  · rw [search_of_not_lt hlt] at hfault
    cases hfault

/-- A resolution of a reachable netlist, by number or by name, that fails with a cyclic
fault reports a cycle that the requested wire needs. -/
theorem Reachable.reports_cycle_of_cyclic (h : net.Reachable) (name : String) (cycle : List String)
    (position : Position) :
    (∀ id, ((resolveId id).on net).1 = .error (.cyclic name cycle position) →
        net.ReportsCycle id name cycle position) ∧
      ∀ request, ((resolve request).on net).1 = .error (.cyclic name cycle position) →
        ∃ id, net.IsNamed id request ∧ net.ReportsCycle id name cycle position := by
  refine ⟨fun id hfault => h.coherent.reportsCycle hfault, fun request hfault => ?_⟩
  cases hfind : net.find? request with
  | none =>
      rw [on_resolve_of_find?_eq_none hfind] at hfault
      cases hfault
  | some id =>
      rw [on_resolve_of_find?_eq_some hfind] at hfault
      have hnamed : net.IsNamed id request := (h.coherent.find?_iff request id).mp hfind
      exact ⟨id, hnamed, h.coherent.reportsCycle hfault⟩

/-- Resolving `z` in `tangled` reports the cycle of `x` and `w`, though `z` is not on
it. -/
theorem tangled_reports_cycle :
    tangled.ReportsCycle 3 "x" ["x", "w", "x"] ⟨1, 6⟩ ∧
      ∃ id, tangled.IsNamed id "z" ∧ tangled.ReportsCycle id "x" ["x", "w", "x"] ⟨1, 6⟩ := by
  have h := reachable_tangled.reports_cycle_of_cyclic "x" ["x", "w", "x"] ⟨1, 6⟩
  exact ⟨h.1 3 rfl, h.2 "z" rfl⟩

end Netlist

end BitwiseCircuit
