import Mathlib.Data.Finset.Image
import Mathlib.Data.Set.Function
import BitwiseCircuit.Proofs.Netlist.Construction
import BitwiseCircuit.Proofs.Resolution.Requests

/-!
# Dependencies between names

A schematic tells by names which wires there are and which of them a wire depends on.  The
netlist of the schematic tells the same by numbers, so that wires may be counted in either.

Main results:

- Definitions `Schematic.names` and `Schematic.dependencies` are the names in a schematic, and
  those that some names depend on.
- Theorem `Netlist.Realizes.size_eq_card_names`: a netlist has one wire for each name.
- Theorem `Netlist.Realizes.reaches_iff`: names depend on each other as their wires do.
- Theorem `Netlist.Realizes.card_dependencies_eq`: so some names depend on as many names as
  their wires depend on wires.
-/

namespace BitwiseCircuit

namespace Schematic

/-- The names in a schematic. -/
def names (schematic : Schematic) : Finset String :=
  (schematic.statements.flatMap fun statement => statement.mentions.map (·.name)).toFinset

/-- A statement drives the wire `name` by an expression that reads the wire `other`. -/
def Reads (schematic : Schematic) (name other : String) : Prop :=
  ∃ statement ∈ schematic.statements, statement.result.name = name ∧
    ∃ operand ∈ statement.expression.operands, operand.name = other

open Classical in
/-- The names of the wires that the wires `names` depend on, themselves included. -/
noncomputable def dependencies (schematic : Schematic) (names : List String) : Finset String :=
  {other ∈ schematic.names | ∃ name ∈ names, Relation.ReflTransGen schematic.Reads name other}

/-- The names of a schematic are those of its mentions. -/
theorem mem_names {schematic : Schematic} {name : String} : name ∈ schematic.names ↔
    ∃ statement ∈ schematic.statements, ∃ mention ∈ statement.mentions, mention.name = name := by
  simp [names]

end Schematic

namespace Netlist

variable {net : Netlist} {schematic : Schematic} {x y : WireId} {name other : String}
  {names : List String}

/-! ## The names of the wires -/

/-- Wires are told apart by their names. -/
theorem WellWired.injOn_nameOf (h : net.WellWired) :
    Set.InjOn net.nameOf (Finset.range net.size) := by
  intro x hx y hy heq
  have hnamed := isNamed_nameOf (Finset.mem_range.mp hx)
  rw [heq] at hnamed
  exact h.eq_of_isNamed hnamed (isNamed_nameOf (Finset.mem_range.mp hy))

namespace Realizes

variable (h : net.Realizes schematic.statements)

include h

/-- The names of a schematic are those of the wires. -/
theorem mem_names_iff : name ∈ schematic.names ↔ ∃ x, net.IsNamed x name := by
  rw [Schematic.mem_names, ← h.mentioned, Option.isSome_iff_exists]
  simp only [h.wellWired.find?_iff]

private theorem names_eq_image : schematic.names = (Finset.range net.size).image net.nameOf := by
  ext name
  rw [h.mem_names_iff, Finset.mem_image]
  constructor
  · rintro ⟨x, hnamed⟩
    exact ⟨x, Finset.mem_range.mpr hnamed.lt_size, hnamed.nameOf_eq⟩
  · rintro ⟨x, hx, rfl⟩
    exact ⟨x, isNamed_nameOf (Finset.mem_range.mp hx)⟩

/-- There is one wire for each name. -/
theorem size_eq_card_names : net.size = schematic.names.card := by
  rw [h.names_eq_image, Finset.card_image_of_injOn h.wellWired.injOn_nameOf, Finset.card_range]

/-! ## What the wires read -/

/-- The wire of a name reads the wires whose names the statement of the name reads. -/
theorem reads_iff (hnamed : net.IsNamed x name) :
    schematic.Reads name other ↔ ∃ y, net.IsNamed y other ∧ net.Reads x y := by
  constructor
  · rintro ⟨statement, hmem, rfl, operand, hoperand, rfl⟩
    rcases h.statement statement hmem with ⟨id, driver, hdriver, himplements⟩
    rcases himplements.gate with ⟨gate, hgate, hrenamed⟩
    obtain rfl : id = x :=
      h.wellWired.eq_of_isNamed ((h.wellWired.find?_iff _ id).mp himplements.result) hnamed
    rw [← Expression.wires_of_toGate hgate] at hoperand
    have hfound : net.find? operand.name ∈ driver.gate.wires.map some := by
      rw [← hrenamed.map_wires]
      exact List.mem_map_of_mem hoperand
    rcases List.mem_map.mp hfound with ⟨y, hy, hfind⟩
    exact ⟨y, (h.wellWired.find?_iff _ y).mp hfind.symm, driver, hdriver, hy⟩
  · rintro ⟨y, hother, driver, hdriver, hy⟩
    rcases h.driven x driver hdriver with ⟨statement, hmem, himplements⟩
    rcases himplements.gate with ⟨gate, hgate, hrenamed⟩
    have hresult := (h.wellWired.find?_iff _ x).mp himplements.result
    have hfound : some y ∈ gate.wires.map fun mention => net.find? mention.name := by
      rw [hrenamed.map_wires]
      exact List.mem_map_of_mem hy
    rcases List.mem_map.mp hfound with ⟨operand, hoperand, hfind⟩
    have hoperandName := (h.wellWired.find?_iff _ y).mp hfind
    refine ⟨statement, hmem, hresult.nameOf_eq.symm.trans hnamed.nameOf_eq, operand, ?_,
      hoperandName.nameOf_eq.symm.trans hother.nameOf_eq⟩
    rwa [← Expression.wires_of_toGate hgate]

/-- Names depend on each other as their wires do. -/
theorem reaches_iff (hnamed : net.IsNamed x name) :
    Relation.ReflTransGen schematic.Reads name other ↔
      ∃ y, net.IsNamed y other ∧ net.Needs x y := by
  constructor
  · intro hreaches
    induction hreaches with
    | refl => exact ⟨x, hnamed, .refl⟩
    | tail _ hreads ih =>
        rcases ih with ⟨y, hy, hneeds⟩
        rcases (h.reads_iff hy).mp hreads with ⟨z, hz, hyz⟩
        exact ⟨z, hz, hneeds.tail hyz⟩
  · rintro ⟨y, hother, hneeds⟩
    induction hneeds generalizing other with
    | refl =>
        rw [← hnamed.nameOf_eq, hother.nameOf_eq]
    | @tail y z _ hreads ih =>
        have hy : net.IsNamed y (net.nameOf y) := by
          rcases hreads with ⟨driver, hdriver, -⟩
          exact isNamed_nameOf (lt_size_of_driver? hdriver)
        exact (ih hy).tail ((h.reads_iff hy).mpr ⟨z, hother, hreads⟩)

/-! ## Counting dependencies -/

private theorem dependencies_eq_image :
    schematic.dependencies names = (net.closureOf names).image net.nameOf := by
  ext other
  simp only [Schematic.dependencies, Finset.mem_filter, Finset.mem_image,
    h.wellWired.mem_closureOf, h.mem_names_iff]
  constructor
  · rintro ⟨⟨y, hother⟩, name, hname, hreaches⟩
    -- a name that depends on a wire is the name of a wire
    have hknown : ∃ x, net.IsNamed x name := by
      rcases hreaches.cases_head with rfl | ⟨next, ⟨statement, hmem, rfl, -⟩, -⟩
      · exact ⟨y, hother⟩
      · exact h.mem_names_iff.mp (Schematic.mem_names.mpr
          ⟨statement, hmem, statement.result, List.mem_cons_self, rfl⟩)
    rcases hknown with ⟨x, hnamed⟩
    rcases (h.reaches_iff hnamed).mp hreaches with ⟨z, hz, hneeds⟩
    exact ⟨z, ⟨name, hname, x, (h.wellWired.find?_iff name x).mpr hnamed, hneeds⟩, hz.nameOf_eq⟩
  · rintro ⟨y, ⟨name, hname, x, hfind, hneeds⟩, rfl⟩
    have hnamed := (h.wellWired.find?_iff name x).mp hfind
    have hother := isNamed_nameOf (h.wellWired.lt_size_of_needs hnamed.lt_size hneeds)
    exact ⟨⟨y, hother⟩, name, hname, (h.reaches_iff hnamed).mpr ⟨y, hother, hneeds⟩⟩

/-- Some names depend on as many names as their wires depend on wires. -/
theorem card_dependencies_eq :
    (schematic.dependencies names).card = (net.closureOf names).card := by
  rw [h.dependencies_eq_image]
  refine Finset.card_image_of_injOn (h.wellWired.injOn_nameOf.mono ?_)
  intro x hx
  rcases h.wellWired.mem_closureOf.mp hx with ⟨name, -, id, hfind, hneeds⟩
  have hlt : id < net.size := h.wellWired.lt_size_of_find? hfind
  exact Finset.mem_range.mpr (h.wellWired.lt_size_of_needs hlt hneeds)

end Realizes

end Netlist

end BitwiseCircuit
