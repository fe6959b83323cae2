import BitwiseCircuit.Proofs.Gate.Evaluation
import BitwiseCircuit.Proofs.Netlist.Wiring

/-!
# The word that a wire stands for

What a wire carries is determined by the wiring alone: apply the gate that drives
it to what its operands carry, and so on down to the constants.  This has a result
exactly for the wires that depend neither on a wire without a driver nor on a
cycle.

Main results:

- Definition `Netlist.Denotes` applies the driving gates recursively.
- Theorem `Netlist.Denotes.unique`: a wire stands for one word at most.
- Theorem `Netlist.Denotes.resolvable`: a wire that stands for a word has only
  driven wires and no cycle below it.
-/

namespace BitwiseCircuit

namespace Netlist

variable {net net' : Netlist} {id x y : WireId} {value value' : Word}

/-- The word that the driving gates give for a wire when they are applied
recursively, from the operands up. -/
inductive Denotes (net : Netlist) : WireId → Word → Prop where
  | gate {id : WireId} {driver : Driver} (word : WireId → Word)
      (hdriver : net.driver? id = some driver)
      (hwires : ∀ x ∈ driver.gate.wires, Denotes net x (word x)) :
      Denotes net id (driver.gate.eval word)

/-- Every wire that `id` depends on is driven, and none of them lies on a cycle. -/
structure Resolvable (net : Netlist) (id : WireId) : Prop where
  driven : ∀ x, net.Needs id x → ∃ driver, net.driver? x = some driver
  acyclic : ∀ x, net.Needs id x → ¬ net.OnCycle x

/-- A wire stands for one word at most. -/
theorem Denotes.unique (h : net.Denotes id value) (h' : net.Denotes id value') :
    value = value' := by
  induction h generalizing value' with
  | @gate id driver word hdriver hwires ih =>
      cases h' with
      | @gate _ driver' word' hdriver' hwires' =>
          obtain rfl : driver = driver' := Option.some.inj (hdriver.symm.trans hdriver')
          exact Gate.eval_congr fun x hx => ih x hx (hwires' x hx)

/-- More drivers leave the words of the wires that had one. -/
theorem Denotes.mono (h : net.Denotes id value)
    (hdrivers : ∀ x driver, net.driver? x = some driver → net'.driver? x = some driver) :
    net'.Denotes id value := by
  induction h with
  | gate word hdriver hwires ih => exact .gate word (hdrivers _ _ hdriver) ih

/-- What a wire denotes does not depend on the words computed so far. -/
theorem SameWiring.denotes_iff (h : net.SameWiring net') :
    net.Denotes id value ↔ net'.Denotes id value := by
  constructor
  · intro hdenotes
    exact hdenotes.mono fun x driver hdriver => h.driver?_eq x ▸ hdriver
  · intro hdenotes
    exact hdenotes.mono fun x driver hdriver => h.symm.driver?_eq x ▸ hdriver

/-- A wire depends on itself and on what the wires depend on that its gate reads. -/
theorem needs_iff {driver : Driver} (hdriver : net.driver? id = some driver) :
    net.Needs id x ↔ x = id ∨ ∃ y ∈ driver.gate.wires, net.Needs y x := by
  rw [Needs, Relation.ReflTransGen.cases_head_iff]
  constructor
  · rintro (rfl | ⟨y, ⟨driver', hdriver', hmem⟩, hneeds⟩)
    · exact Or.inl rfl
    · obtain rfl : driver = driver' := Option.some.inj (hdriver.symm.trans hdriver')
      exact Or.inr ⟨y, hmem, hneeds⟩
  · rintro (rfl | ⟨y, hmem, hneeds⟩)
    · exact Or.inl rfl
    · exact Or.inr ⟨y, ⟨driver, hdriver, hmem⟩, hneeds⟩

/-- A wire that stands for a word has only driven wires and no cycle below it. -/
theorem Denotes.resolvable (h : net.Denotes id value) : net.Resolvable id := by
  induction h with
  | @gate id driver word hdriver hwires ih =>
      constructor
      · intro x hneeds
        rcases (needs_iff hdriver).mp hneeds with rfl | ⟨y, hmem, hbelow⟩
        · exact ⟨driver, hdriver⟩
        · exact (ih y hmem).driven x hbelow
      · intro x hneeds hcycle
        rcases (needs_iff hdriver).mp hneeds with rfl | ⟨y, hmem, hbelow⟩
        · -- the cycle leaves `x` through an operand, which then lies on it too
          rcases Relation.TransGen.head'_iff.mp hcycle with ⟨y, hreads, hback⟩
          rcases hreads with ⟨driver', hdriver', hmem⟩
          obtain rfl : driver = driver' := Option.some.inj (hdriver.symm.trans hdriver')
          exact (ih y hmem).acyclic x hback hcycle
        · exact (ih y hmem).acyclic x hbelow hcycle

end Netlist

end BitwiseCircuit
