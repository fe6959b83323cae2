import Mathlib.Data.List.Find
import BitwiseCircuit.Proofs.Gate.Mapping
import BitwiseCircuit.Proofs.Search.FirstFault

/-!
# Netlists under other numbers and names

A search follows the gates of the wires that it visits, and what it returns does not depend
on how these wires are numbered.  Nor does it depend on their names and places, which it
only copies into a fault.

Main results:

- Definition `Netlist.Relabels` places the wires of one netlist among those of another one,
  under other numbers and names.
- Definition `WireFault.Corresponds` compares the faults of the two.
- Theorem `Netlist.Relabels.denotes`: a wire keeps its word.
- Theorem `Netlist.Relabels.firstFault`: a wire keeps the fault that comes first below it,
  unless it is that of a wire which the other netlist drives.
- Theorem `Netlist.Relabels.search_mapError_eq`: so the two searches return the same.
-/

namespace BitwiseCircuit

variable {rename : String → String} {assigned mentioned : Position → Position → Prop}

/-- Both faults of a search tell of the same wires under their two names.  The places where
these are assigned are related by `assigned`, the places where they are first mentioned by
`mentioned`. -/
inductive WireFault.Corresponds (rename : String → String)
    (assigned mentioned : Position → Position → Prop) : WireFault → WireFault → Prop where
  | undefined {name : String} {place place' : Position} (hplace : mentioned place place') :
      Corresponds rename assigned mentioned (.undefined name (some place))
        (.undefined (rename name) (some place'))
  | cyclic {name : String} {cycle : List String} {place place' : Position}
      (hplace : assigned place place') :
      Corresponds rename assigned mentioned (.cyclic name cycle place)
        (.cyclic (rename name) (cycle.map rename) place')

namespace Netlist

variable {net net' : Netlist} {number : WireId → WireId} {path wires : List WireId}
  {id operand : WireId} {value : Word} {fault : WireFault}

/-- The wires of `net` are wires of `net'` under the numbers that `number` gives them and the
names that `rename` gives them.  Those that are driven are driven by the same gates. -/
structure Relabels (net : Netlist) (rename : String → String)
    (assigned mentioned : Position → Position → Prop) (number : WireId → WireId)
    (net' : Netlist) : Prop where
  injective : ∀ x < net.size, ∀ y < net.size, number x = number y → x = y
  wire : ∀ id wire, net.wire? id = some wire → ∃ wire', net'.wire? (number id) = some wire' ∧
    wire'.name = rename wire.name ∧ mentioned wire.firstSeen wire'.firstSeen
  driver : ∀ id driver, net.driver? id = some driver →
    ∃ driver', net'.driver? (number id) = some driver' ∧
      driver'.gate = driver.gate.map number ∧ assigned driver.position driver'.position

namespace Relabels

variable (h : net.Relabels rename assigned mentioned number net')

include h

/-- A wire corresponds to a wire. -/
theorem lt_size (hlt : id < net.size) : number id < net'.size := by
  rcases exists_wire_of_lt hlt with ⟨wire, hwire⟩
  rcases h.wire id wire hwire with ⟨wire', hwire', -⟩
  exact lt_size_of_wire? hwire'

/-- The wire that corresponds has the replaced name. -/
theorem nameOf_eq (hlt : id < net.size) : net'.nameOf (number id) = rename (net.nameOf id) := by
  rcases exists_wire_of_lt hlt with ⟨wire, hwire⟩
  rcases h.wire id wire hwire with ⟨wire', hwire', hname, -⟩
  simp [nameOf, hwire, hwire', hname]

/-! ## Words -/

/-- A wire keeps the word that the wiring gives for it. -/
theorem denotes (hdenotes : net.Denotes id value) : net'.Denotes (number id) value := by
  induction hdenotes with
  | @gate id driver word hdriver hwires ih =>
      rcases h.driver id driver hdriver with ⟨driver', hdriver', hgate, -⟩
      have hwires' : ∀ y ∈ driver'.gate.wires, ∃ value, net'.Denotes y value := by
        intro y hy
        rw [hgate, Gate.wires_map] at hy
        rcases List.mem_map.mp hy with ⟨x, hx, rfl⟩
        exact ⟨word x, ih x hx⟩
      choose! word' hword' using hwires'
      have heval : driver'.gate.eval word' = driver.gate.eval word := by
        rw [hgate, Gate.eval_map]
        refine Gate.eval_congr fun x hx => ?_
        have hmem : number x ∈ driver'.gate.wires := by
          rw [hgate, Gate.wires_map]
          exact List.mem_map_of_mem hx
        exact (hword' (number x) hmem).unique (ih x hx)
      rw [← heval]
      exact .gate word' hdriver' hword'

/-! ## Faults -/

private theorem find?_contains (hwires : ∀ x ∈ wires, x < net.size)
    (hpath : ∀ x ∈ path, x < net.size) :
    (wires.map number).find? (path.map number).contains =
      (wires.find? path.contains).map number := by
  rw [List.find?_map]
  refine congrArg (Option.map number) (List.find?_congr fun x hx => ?_)
  rw [Bool.eq_iff_iff, Function.comp_apply, List.contains_iff_mem, List.contains_iff_mem]
  refine ⟨fun hmem => ?_, List.mem_map_of_mem⟩
  rcases List.mem_map.mp hmem with ⟨y, hy, heq⟩
  rwa [← h.injective y (hpath y hy) x (hwires x hx) heq]

private theorem dropWhile_ne (hpath : ∀ x ∈ path, x < net.size) (hlt : id < net.size) :
    (path.map number).dropWhile (· != number id) = (path.dropWhile (· != id)).map number := by
  induction path with
  | nil => rfl
  | cons x path ih =>
      have hrest : ∀ y ∈ path, y < net.size := fun y hy => hpath y (List.mem_cons_of_mem x hy)
      by_cases hx : x = id
      · subst hx
        simp
      · have hne : number x ≠ number id := fun heq =>
          hx (h.injective x (hpath x List.mem_cons_self) id hlt heq)
        rw [List.map_cons, List.dropWhile_cons_of_pos (by simpa using hne),
          List.dropWhile_cons_of_pos (by simpa using hx), ih hrest]

/-- The fault of a cycle becomes the fault of the cycle under the other names. -/
theorem cycleFault_corresponds (hpath : ∀ x ∈ path, x < net.size) (hlt : id < net.size)
    {place place' : Position} (hplace : assigned place place') :
    (net.cycleFault path id place).Corresponds rename assigned mentioned
      (net'.cycleFault (path.map number) (number id) place') := by
  have hnames : ((path.map number).dropWhile (· != number id)).map net'.nameOf =
      ((path.dropWhile (· != id)).map net.nameOf).map rename := by
    rw [h.dropWhile_ne hpath hlt, List.map_map, List.map_map]
    refine List.map_congr_left fun x hx => h.nameOf_eq (hpath x ?_)
    exact (List.dropWhile_sublist _).subset hx
  have hcycle : ((path.map number).dropWhile (· != number id)).map net'.nameOf ++
      [rename (net.nameOf id)] =
        ((path.dropWhile (· != id)).map net.nameOf ++ [net.nameOf id]).map rename := by
    rw [hnames, List.map_append, List.map_singleton]
  rw [cycleFault, cycleFault, h.nameOf_eq hlt, hcycle]
  exact .cyclic hplace

/-- The fault that comes first below a wire comes first below it in the other netlist too, as
long as the fault is not that of a wire which only the other netlist drives. -/
theorem firstFault (hwired : net.WellWired) (hfirst : net.FirstFault path id fault)
    (hopen : ∀ x wire, net.wire? x = some wire → wire.driver = none → fault = wire.undefined →
      net'.driver? (number x) = none)
    (hpath : ∀ x ∈ path ++ [id], x < net.size) :
    ∃ fault', net'.FirstFault (path.map number) (number id) fault' ∧
      fault.Corresponds rename assigned mentioned fault' := by
  induction hfirst with
  | @undriven path id wire hwire hdriver =>
      rcases h.wire id wire hwire with ⟨wire', hwire', hname, hplace⟩
      have hdriver' := hopen id wire hwire hdriver rfl
      rw [driver?_of_wire? hwire'] at hdriver'
      refine ⟨wire'.undefined, .undriven hwire' hdriver', ?_⟩
      rw [Wire.undefined, Wire.undefined, hname]
      exact .undefined hplace
  | @cyclic path id operand driver assigned' hdriver hfind hassigned =>
      rcases h.driver id driver hdriver with ⟨driver', hdriver', hgate, -⟩
      rcases h.driver operand assigned' hassigned with ⟨assigned'', hassigned', -, hplace⟩
      have hwires : ∀ x ∈ driver.gate.wires, x < net.size := fun x hx =>
        hwired.operand_lt id x ⟨driver, hdriver, hx⟩
      have hfind' : driver'.gate.wires.find? ((path.map number) ++ [number id]).contains =
          some (number operand) := by
        rw [hgate, Gate.wires_map, ← List.map_singleton, ← List.map_append,
          h.find?_contains hwires hpath, hfind, Option.map_some]
      refine ⟨_, .cyclic hdriver' hfind' hassigned', ?_⟩
      rw [← List.map_singleton, ← List.map_append]
      exact h.cycleFault_corresponds hpath (lt_size_of_driver? hassigned) hplace
  | @operand path before after id x driver fault hdriver hfind hsplit hbefore _ ih =>
      rcases h.driver id driver hdriver with ⟨driver', hdriver', hgate, -⟩
      have hwires : ∀ y ∈ driver.gate.wires, y < net.size := fun y hy =>
        hwired.operand_lt id y ⟨driver, hdriver, hy⟩
      have hx : x < net.size := hwires x (mem_of_reverse_eq_append hsplit)
      have hbelow : ∀ y ∈ path ++ [id] ++ [x], y < net.size := by
        intro y hy
        rcases List.mem_append.mp hy with hy | hy
        · exact hpath y hy
        · rwa [List.mem_singleton.mp hy]
      rcases ih hopen hbelow with ⟨fault', hfirst', hcorresponds⟩
      rw [List.map_append, List.map_singleton] at hfirst'
      have hfind' :
          driver'.gate.wires.find? ((path.map number) ++ [number id]).contains = none := by
        rw [hgate, Gate.wires_map, ← List.map_singleton, ← List.map_append,
          h.find?_contains hwires hpath, hfind, Option.map_none]
      have hsplit' : driver'.gate.wires.reverse =
          before.map number ++ number x :: after.map number := by
        rw [hgate, Gate.wires_map, ← List.map_reverse, hsplit, List.map_append, List.map_cons]
      have hbefore' : ∀ y ∈ before.map number, ∃ value, net'.Denotes y value := by
        intro y hy
        rcases List.mem_map.mp hy with ⟨z, hz, rfl⟩
        rcases hbefore z hz with ⟨value, hdenotes⟩
        exact ⟨value, h.denotes hdenotes⟩
      exact ⟨fault', .operand hdriver' hfind' hsplit' hbefore' hfirst', hcorresponds⟩

/-! ## Searches -/

/-- A search that finds a word finds it in the other netlist too. -/
theorem search_eq_ok (hnet : net.Coherent) (hnet' : net'.Coherent) (hlt : id < net.size)
    (hok : (net.search id).1 = .ok value) : (net'.search (number id)).1 = .ok value := by
  have hyields := hnet.yields hlt
  rw [hok] at hyields
  cases hyields with
  | word hdenotes =>
      exact (hnet'.yields (h.lt_size hlt)).unique (.word (h.denotes hdenotes))

/-- A search that fails fails alike in the other netlist, as long as the fault is not that of a
wire which only the other netlist drives. -/
theorem exists_search_eq_error (hnet : net.Coherent) (hnet' : net'.Coherent) (hlt : id < net.size)
    (herror : (net.search id).1 = .error fault)
    (hopen : ∀ x wire, net.wire? x = some wire → wire.driver = none → fault = wire.undefined →
      net'.driver? (number x) = none) :
    ∃ fault', (net'.search (number id)).1 = .error fault' ∧
      fault.Corresponds rename assigned mentioned fault' := by
  have hyields := hnet.yields hlt
  rw [herror] at hyields
  cases hyields with
  | fault hfirst =>
      rcases h.firstFault hnet.toWellWired hfirst hopen (by simpa using hlt) with
        ⟨fault', hfirst', hcorresponds⟩
      exact ⟨fault', (hnet'.yields (h.lt_size hlt)).unique (.fault hfirst'), hcorresponds⟩

/-- Searches in the two netlists return the same up to what `read` and `read'` tell of the
fault, if they tell the same of faults that correspond, and as long as the first one does not
fail at a wire which only the other netlist drives. -/
theorem search_mapError_eq {ε : Type} {read read' : WireFault → ε}
    (hread : ∀ fault fault', fault.Corresponds rename assigned mentioned fault' →
      read fault = read' fault')
    (hnet : net.Coherent) (hnet' : net'.Coherent) (hlt : id < net.size)
    (hopen : ∀ x wire, net.wire? x = some wire → wire.driver = none →
      (net.search id).1 = .error wire.undefined → net'.driver? (number x) = none) :
    (net.search id).1.mapError read = (net'.search (number id)).1.mapError read' := by
  cases hsearch : (net.search id).1 with
  | ok value =>
      rw [h.search_eq_ok hnet hnet' hlt hsearch]
      rfl
  | error fault =>
      have hundriven : ∀ x wire, net.wire? x = some wire → wire.driver = none →
          fault = wire.undefined → net'.driver? (number x) = none := by
        rintro x wire hwire hdriver rfl
        exact hopen x wire hwire hdriver hsearch
      rcases h.exists_search_eq_error hnet hnet' hlt hsearch hundriven with
        ⟨fault', hsearch', hcorresponds⟩
      rw [hsearch']
      exact congrArg Except.error (hread fault fault' hcorresponds)

end Relabels

end Netlist

end BitwiseCircuit
