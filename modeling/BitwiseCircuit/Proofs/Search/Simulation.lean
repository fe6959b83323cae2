import BitwiseCircuit.Proofs.Search.Recursion

/-!
# The search follows the recursion

A run of the recursive procedure appears in the search as the work that is done
above one frame of its stack: the frames of the wires to be visited are put there,
and are gone again when the run is over.  What lies below does not matter, except
that its expanded frames are the path.

Main results:

- Definitions `Search.Steps` and `Search.Ends` count the turns of a search.
- Theorem `Netlist.Visits.clears`: a run without a fault is a number of turns, at
  most three for each wire that gets its word and one for each frame at the start.
- Theorem `Netlist.Visits.breaks`: a run with a fault ends the search with it.
- Theorem `Netlist.Coherent.ends_cases`: the search for a wire ends as a run does, after
  at most three iterations for each wire and one more.
- Theorem `Netlist.Coherent.search_cases`: it returns what the derivation of a run says.
-/

namespace BitwiseCircuit

namespace Search

variable {net : Netlist} {stack below : List Frame} {active : Std.TreeSet WireId}
  {path ids : List WireId} {id operand : WireId} {driver : Driver} {value : Word}

/-! ## Turns -/

/-- A number of turns leads from one search to another. -/
inductive Steps : Nat → Search → Search → Prop where
  | refl {search : Search} : Steps 0 search search
  | next {turns : Nat} {search later last : Search} (hturn : search.turn = .next later)
      (hsteps : Steps turns later last) : Steps (turns + 1) search last

/-- Turns that follow each other add up. -/
theorem Steps.trans {turns turns' : Nat} {first middle last : Search}
    (h : Steps turns first middle) (h' : Steps turns' middle last) :
    Steps (turns' + turns) first last := by
  induction h with
  | refl => exact h'
  | next hturn _ ih => exact .next hturn (ih h')

/-- A search ends after some iterations, with a fault or without one, and leaves a
netlist.  A turn that finds a frame is an iteration; the last turn of a search without a
fault finds none. -/
inductive Ends : Search → (iterations : Nat) → Option WireFault → Netlist → Prop where
  | done {search : Search} {net : Netlist} (hturn : search.turn = .done net) :
      Ends search 0 none net
  | failed {search : Search} {fault : WireFault} {net : Netlist}
      (hturn : search.turn = .failed fault net) : Ends search 1 (some fault) net
  | next {search later : Search} {iterations : Nat} {fault? : Option WireFault} {net : Netlist}
      (hturn : search.turn = .next later) (hends : Ends later iterations fault? net) :
      Ends search (iterations + 1) fault? net

/-- A search ends as it does after some of its turns, with these turns added to the iterations. -/
theorem Steps.ends {turns iterations : Nat} {first last : Search} {fault? : Option WireFault}
    (h : Steps turns first last) (hlast : Ends last iterations fault? net) :
    Ends first (iterations + turns) fault? net := by
  induction h with
  | refl => exact hlast
  | next hturn _ ih => exact .next hturn (ih hlast)

/-- A run whose bound is not reached ends as the search does. -/
theorem Ends.run_eq {iterations bound : Nat} {search : Search} {fault? : Option WireFault}
    (h : Ends search iterations fault? net) (hbound : iterations < bound) :
    search.run bound = (fault?, net) := by
  induction h generalizing bound with
  | done hturn =>
      cases bound with
      | zero => omega
      | succ bound => rw [run, hturn]
  | failed hturn =>
      cases bound with
      | zero => omega
      | succ bound => rw [run, hturn]
  | next hturn _ ih =>
      cases bound with
      | zero => omega
      | succ bound =>
          rw [run, hturn]
          exact ih (Nat.lt_of_succ_lt_succ hbound)

/-! ## The path on the stack -/

/-- The frames of wires that are still to be looked at. -/
def pending (ids : List WireId) : List Frame :=
  ids.map fun id => ⟨id, false⟩

@[simp]
theorem pending_nil : pending [] = [] :=
  rfl

@[simp]
theorem pending_cons (id : WireId) (ids : List WireId) :
    pending (id :: ids) = ⟨id, false⟩ :: pending ids :=
  rfl

/-- The expanded frames of a stack are a path, and its wires are the active ones. -/
structure Follows (stack : List Frame) (active : Std.TreeSet WireId) (path : List WireId) :
    Prop where
  path_eq : Search.path stack = path
  mem_active : ∀ x, x ∈ active ↔ x ∈ path

private theorem follows_nil : Follows [] ∅ [] :=
  ⟨rfl, by simp⟩

/-- A frame that is not expanded adds nothing to the path. -/
theorem Follows.push (h : Follows stack active path) (id : WireId) :
    Follows (⟨id, false⟩ :: stack) active path :=
  ⟨h.path_eq, h.mem_active⟩

/-- Frames that wait do not lie on the path. -/
theorem path_pending_append (ids : List WireId) (below : List Frame) :
    Search.path (pending ids ++ below) = Search.path below := by
  simp [Search.path, pending, List.filter_map]

/-- Nor do any such frames. -/
theorem Follows.append_pending (h : Follows below active path) (ids : List WireId) :
    Follows (pending ids ++ below) active path :=
  ⟨(path_pending_append ids below).trans h.path_eq, h.mem_active⟩

private theorem Follows.of_append_pending (h : Follows (pending ids ++ below) active path) :
    Follows below active path :=
  ⟨(path_pending_append ids below).symm.trans h.path_eq, h.mem_active⟩

/-- A frame that is expanded adds its wire at the end of the path. -/
theorem Follows.expand (h : Follows stack active path) (id : WireId) :
    Follows (⟨id, true⟩ :: stack) (active.insert id) (path ++ [id]) := by
  constructor
  · simp [Search.path, ← h.path_eq]
  · intro x
    rw [Std.TreeSet.mem_insert, compare_eq_iff_eq, h.mem_active, List.mem_append,
      List.mem_singleton, eq_comm (a := id), or_comm]

/-- Taking an expanded frame off takes its wire off the path. -/
theorem Follows.collapse (h : Follows (⟨id, true⟩ :: below) active (path ++ [id]))
    (hid : id ∉ path) : Follows below (active.erase id) path := by
  constructor
  · simpa [Search.path] using h.path_eq
  · intro x
    have hne : x ∈ path → id ≠ x := by
      rintro hx rfl
      exact hid hx
    rw [Std.TreeSet.mem_erase, Ne, compare_eq_iff_eq, h.mem_active, List.mem_append,
      List.mem_singleton, eq_comm (a := x)]
    tauto

/-- The cycle that a search reports is the one that the path closes. -/
theorem Follows.cycleFault_eq (h : Follows stack active path)
    (hdriver : net.driver? id = some driver) :
    Search.cycleFault net stack id = net.cycleFault path id driver.position := by
  rcases Option.bind_eq_some_iff.mp hdriver with ⟨wire, hwire, hwireDriver⟩
  simp [Search.cycleFault, Netlist.cycleFault, h.path_eq, hwire, Wire.position, hwireDriver]

/-- The operands of a gate are put on the stack from left to right, those that have
their word left out; the first one that is on the path ends this. -/
theorem Follows.demand_eq (h : Follows stack active path) (net : Netlist)
    (ids : List WireId) :
    demand net active stack ids =
      match ids.find? (net.reenters path) with
      | some operand => .error (Search.cycleFault net stack operand)
      | none => .ok (pending (ids.reverse.filter fun x => (net.value? x).isNone) ++ stack) := by
  induction ids generalizing stack with
  | nil => rfl
  | cons id ids ih =>
      rw [demand]
      split_ifs with hvalue hactive
      · have hreenters : net.reenters path id = false := by
          simp [Netlist.reenters, Option.isSome_iff_ne_none.mp hvalue]
        rw [List.find?_cons_of_neg (by simp [hreenters]), ih h]
        simp [Option.isSome_iff_ne_none.mp hvalue]
      · have hnone : net.value? id = none := by simpa using hvalue
        have hreenters : net.reenters path id = true := by
          simpa [Netlist.reenters, hnone] using (h.mem_active id).mp hactive
        rw [List.find?_cons_of_pos hreenters]
      · have hnone : net.value? id = none := by simpa using hvalue
        have hreenters : net.reenters path id = false := by
          simpa [Netlist.reenters, hnone] using fun hmem => hactive ((h.mem_active id).mpr hmem)
        rw [List.find?_cons_of_neg (by simp [hreenters]), ih (h.push id)]
        have hcycle : Search.cycleFault net (⟨id, false⟩ :: stack) =
            Search.cycleFault net stack := by
          funext x
          simp [Search.cycleFault, Search.path]
        simp [hcycle, hnone, pending]

/-! ## What one turn does -/

/-- A frame whose wire has its word is taken off the stack. -/
theorem turn_of_settled {expanded : Bool} (hvalue : net.value? id = some value) :
    turn ⟨net, ⟨id, expanded⟩ :: below, active⟩ = .next ⟨net, below, active⟩ := by
  rcases Option.bind_eq_some_iff.mp hvalue with ⟨wire, hwire, hwireValue⟩
  simp [turn, hwire, hwireValue]

/-- A wire that nothing drives ends the search. -/
theorem turn_of_undriven {expanded : Bool} {wire : Wire} (hvalue : net.value? id = none)
    (hwire : net.wire? id = some wire) (hdriver : wire.driver = none) :
    turn ⟨net, ⟨id, expanded⟩ :: below, active⟩ = .failed wire.undefined net := by
  rw [Netlist.value?_of_wire? hwire] at hvalue
  simp [turn, hwire, hvalue, hdriver]

/-- An expanded frame is taken off once its gate gives a word. -/
theorem turn_of_expanded (hvalue : net.value? id = none)
    (hdriver : net.driver? id = some driver) (happly : driver.gate.apply net.read? = some value) :
    turn ⟨net, ⟨id, true⟩ :: below, active⟩ =
      .next ⟨net.settle id value, below, active.erase id⟩ := by
  rcases Option.bind_eq_some_iff.mp hdriver with ⟨wire, hwire, hwireDriver⟩
  rw [Netlist.value?_of_wire? hwire] at hvalue
  simp [turn, hwire, hvalue, hwireDriver, happly]

/-- A gate that reads a wire of the path ends the search. -/
theorem turn_of_reenters (h : Follows below active path) (hvalue : net.value? id = none)
    (hdriver : net.driver? id = some driver)
    (hfind : driver.gate.wires.find? (net.reenters (path ++ [id])) = some operand)
    {assigned : Driver} (hassigned : net.driver? operand = some assigned) :
    turn ⟨net, ⟨id, false⟩ :: below, active⟩ =
      .failed (net.cycleFault (path ++ [id]) operand assigned.position) net := by
  rcases Option.bind_eq_some_iff.mp hdriver with ⟨wire, hwire, hwireDriver⟩
  rw [Netlist.value?_of_wire? hwire] at hvalue
  have hdemand := (h.expand id).demand_eq net driver.gate.wires
  simp only [hfind, (h.expand id).cycleFault_eq hassigned] at hdemand
  simp [turn, hwire, hvalue, hwireDriver, hdemand]

/-- A frame is expanded, and its operands without words are put on top of it. -/
theorem turn_of_unexpanded (h : Follows below active path) (hvalue : net.value? id = none)
    (hdriver : net.driver? id = some driver)
    (hfind : driver.gate.wires.find? (net.reenters (path ++ [id])) = none) :
    turn ⟨net, ⟨id, false⟩ :: below, active⟩ =
      .next ⟨net,
        pending (driver.gate.wires.reverse.filter fun x => (net.value? x).isNone) ++
          ⟨id, true⟩ :: below,
        active.insert id⟩ := by
  rcases Option.bind_eq_some_iff.mp hdriver with ⟨wire, hwire, hwireDriver⟩
  rw [Netlist.value?_of_wire? hwire] at hvalue
  have hdemand := (h.expand id).demand_eq net driver.gate.wires
  simp only [hfind] at hdemand
  simp [turn, hwire, hvalue, hwireDriver, hdemand]

end Search

namespace Netlist

open Search

variable {net net' mid : Netlist} {path ids : List WireId} {id operand : WireId}
  {driver : Driver} {fault : WireFault} {fault? : Option WireFault} {value : Word}
  {below : List Frame} {active : Std.TreeSet WireId}

/-! ## Runs without a fault -/

/-- The wires to be visited may have a frame on the stack or not, as long as those
without a frame have their word. -/
def Covers (net : Netlist) (keep : WireId → Bool) (ids : List WireId) : Prop :=
  ∀ id ∈ ids, keep id = false → (net.value? id).isSome

/-- The other wires stay covered while the netlist grows. -/
theorem Covers.tail {keep : WireId → Bool} (h : net.Covers keep (id :: ids))
    (hgrows : net.Grows net') : net'.Covers keep ids := fun x hx hkeep =>
  hgrows.isSome (h x (List.mem_cons_of_mem id hx) hkeep)

/-- A wire without a word has a frame. -/
theorem Covers.filter_cons {keep : WireId → Bool} (h : net.Covers keep (id :: ids))
    (hvalue : net.value? id = none) :
    (id :: ids).filter keep = id :: ids.filter keep := by
  have hkeep : keep id = true := by
    cases hkeep : keep id with
    | true => rfl
    | false => simpa [hvalue] using h id List.mem_cons_self hkeep
  exact List.filter_cons_of_pos hkeep

/-- The operands that are not put on the stack have their words. -/
theorem covers_operands (net : Netlist) (ids : List WireId) :
    net.Covers (fun x => (net.value? x).isNone) ids := by
  intro x _ hkeep
  simpa using hkeep

private theorem covers_all (net : Netlist) (ids : List WireId) :
    net.Covers (fun _ => true) ids := by
  intro x _ hkeep
  cases hkeep

/-- A gate puts two frames on the stack at most. -/
theorem length_operands_le (keep : WireId → Bool) (gate : Gate WireId) :
    (gate.wires.reverse.filter keep).length ≤ 2 := by
  calc
    (gate.wires.reverse.filter keep).length ≤ gate.wires.reverse.length :=
      List.length_filter_le _ _
    _ ≤ 2 := by
      rw [List.length_reverse]
      exact gate.length_wires_le

/-- The search takes some frames off the stack `below`, and gets from `net` to `net'`
by this.  Each wire that gets its word allows it three turns, and each frame one. -/
def Clears (path : List WireId) (net : Netlist) (frames below : List Frame)
    (active : Std.TreeSet WireId) (net' : Netlist) : Prop :=
  ∃ turns active', Follows below active' path ∧
    turns + 3 * (net'.unsettled path).card ≤ 3 * (net.unsettled path).card + frames.length ∧
    Steps turns ⟨net, frames ++ below, active⟩ ⟨net', below, active'⟩

private theorem clears_nil (hfollows : Follows below active path) :
    Clears path net [] below active net :=
  ⟨0, active, hfollows, by simp, .refl⟩

/-- A frame whose wire has its word is taken off at once. -/
theorem Clears.settled {frames : List Frame} {expanded : Bool}
    (h : Clears path net frames below active net') (hvalue : (net.value? id).isSome) :
    Clears path net (⟨id, expanded⟩ :: frames) below active net' := by
  rcases h with ⟨turns, active', hfollows, hcount, hsteps⟩
  rcases Option.isSome_iff_exists.mp hvalue with ⟨value, hvalue⟩
  refine ⟨turns + 1, active', hfollows, ?_, .next (turn_of_settled hvalue) hsteps⟩
  simp only [List.length_cons]
  omega

/-- A frame whose operands are cleared above it is expanded before and computed after
that, and then the other frames are cleared. -/
theorem Clears.computed {frames : List Frame}
    (hoperands : Clears (path ++ [id]) net
      (pending (driver.gate.wires.reverse.filter fun x => (net.value? x).isNone))
      (⟨id, true⟩ :: (frames ++ below)) (active.insert id) mid)
    (hrest : ∀ active', Follows (frames ++ below) active' path →
      Clears path (mid.settle id value) frames below active' net')
    (hfollows : Follows (frames ++ below) active path)
    (hvisited : Visited (path ++ [id]) driver.gate.wires.reverse net none mid)
    (hpath : id ∉ path) (hvalue : net.value? id = none) (hdriver : net.driver? id = some driver)
    (hfind : driver.gate.wires.find? (net.reenters (path ++ [id])) = none)
    (happly : driver.gate.apply mid.read? = some value) :
    Clears path net (⟨id, false⟩ :: frames) below active net' := by
  have hlt : id < net.size := lt_size_of_driver? hdriver
  rcases hoperands with ⟨turnsBelow, activeBelow, hfollowsBelow, hcountBelow, hstepsBelow⟩
  rcases hrest _ (hfollowsBelow.collapse hpath) with
    ⟨turnsRest, active', hfollows', hcountRest, hstepsRest⟩
  have hexpand := turn_of_unexpanded hfollows hvalue hdriver hfind
  have hcompute : turn ⟨mid, ⟨id, true⟩ :: (frames ++ below), activeBelow⟩ =
      .next ⟨mid.settle id value, frames ++ below, activeBelow.erase id⟩ :=
    turn_of_expanded (hvisited.unsettled id (by simp))
      (hvisited.grows.wiring.driver?_eq id ▸ hdriver) happly
  refine ⟨turnsRest + 1 + turnsBelow + 1, active', hfollows', ?_,
    .next hexpand (hstepsBelow.trans (.next hcompute hstepsRest))⟩
  have hcard := card_unsettled_append hvalue hlt hpath
  have hpushed := length_operands_le (fun x => (net.value? x).isNone) driver.gate
  rw [unsettled_settle (hvisited.grows.wiring.size_eq ▸ hlt)] at hcountRest
  simp only [List.length_cons, pending, List.length_map] at hcountBelow ⊢
  omega

/-- A run without a fault clears the frames of its wires. -/
theorem Visits.clears (h : Visits path ids net none net') (hstart : net.Visitable path ids)
    {keep : WireId → Bool} (hcovers : net.Covers keep ids)
    (hfollows : Follows below active path) :
    Clears path net (pending (ids.filter keep)) below active net' := by
  generalize hnone : (none : Option WireFault) = fault? at h
  induction h generalizing keep below active with
  | nil => exact clears_nil hfollows
  | @settled path ids id net net' fault? hvalue _ ihrest =>
      have hrest := ihrest hstart.tail (hcovers.tail (.refl net)) hfollows hnone
      cases hkeep : keep id with
      | false => rwa [List.filter_cons_of_neg (by simp [hkeep])]
      | true =>
          rw [List.filter_cons_of_pos hkeep]
          exact hrest.settled hvalue
  | undriven => cases hnone
  | cyclic => cases hnone
  | failed => cases hnone
  | @computed path ids id net mid net' driver fault? value hvalue hdriver hfind hoperands happly _
      ihoperands ihrest =>
      have hpath : id ∉ path := hstart.not_mem id List.mem_cons_self
      have hbelowStart := hstart.operands hvalue hdriver hfind
      have hbelow := hoperands.visited hbelowStart
      rcases hbelow.settle hdriver hpath happly with ⟨hgrows, hcoherent, hunsettled, _⟩
      have hrestStart := hstart.rest hgrows hcoherent hunsettled
      have hstack := hfollows.append_pending (ids.filter keep)
      rw [hcovers.filter_cons hvalue]
      refine Clears.computed ?_ ?_ hstack hbelow hpath hvalue hdriver hfind happly
      · exact ihoperands hbelowStart (covers_operands net _) (hstack.expand id) rfl
      · intro active' hfollows'
        exact ihrest hrestStart (hcovers.tail hgrows) hfollows'.of_append_pending hnone

/-! ## Runs with a fault -/

/-- The search fails while it takes some frames off the stack `below`, after turns that
are bounded in the same way. -/
def Breaks (path : List WireId) (net : Netlist) (frames below : List Frame)
    (active : Std.TreeSet WireId) (fault : WireFault) (net' : Netlist) : Prop :=
  ∃ turns last, turns + 1 ≤ 3 * (net.unsettled path).card + frames.length ∧
    Steps turns ⟨net, frames ++ below, active⟩ last ∧ last.turn = .failed fault net'

private theorem breaks_of_turn {frame : Frame} {frames : List Frame}
    (h : turn ⟨net, frame :: (frames ++ below), active⟩ = .failed fault net') :
    Breaks path net (frame :: frames) below active fault net' := by
  refine ⟨0, _, ?_, .refl, h⟩
  simp only [List.length_cons]
  omega

/-- A frame whose wire has its word is taken off before the search fails. -/
theorem Breaks.settled {frames : List Frame} {expanded : Bool}
    (h : Breaks path net frames below active fault net') (hvalue : (net.value? id).isSome) :
    Breaks path net (⟨id, expanded⟩ :: frames) below active fault net' := by
  rcases h with ⟨turns, last, hcount, hsteps, hlast⟩
  rcases Option.isSome_iff_exists.mp hvalue with ⟨value, hvalue⟩
  refine ⟨turns + 1, last, ?_, .next (turn_of_settled hvalue) hsteps, hlast⟩
  simp only [List.length_cons]
  omega

/-- The search fails at a frame if it fails at the operands that are put above it. -/
theorem Breaks.expanded {frames : List Frame}
    (h : Breaks (path ++ [id]) net
      (pending (driver.gate.wires.reverse.filter fun x => (net.value? x).isNone))
      (⟨id, true⟩ :: (frames ++ below)) (active.insert id) fault net')
    (hfollows : Follows (frames ++ below) active path) (hpath : id ∉ path)
    (hvalue : net.value? id = none) (hdriver : net.driver? id = some driver)
    (hfind : driver.gate.wires.find? (net.reenters (path ++ [id])) = none) :
    Breaks path net (⟨id, false⟩ :: frames) below active fault net' := by
  rcases h with ⟨turns, last, hcount, hsteps, hlast⟩
  have hexpand := turn_of_unexpanded hfollows hvalue hdriver hfind
  refine ⟨turns + 1, last, ?_, .next hexpand hsteps, hlast⟩
  have hcard := card_unsettled_append hvalue (lt_size_of_driver? hdriver) hpath
  have hpushed := length_operands_le (fun x => (net.value? x).isNone) driver.gate
  simp only [pending, List.length_map, List.length_cons] at hcount ⊢
  omega

/-- The search fails at some frames if it clears the first one and fails at the
others. -/
theorem Clears.breaks {frame : Frame} {frames : List Frame}
    (h : Clears path net [frame] (frames ++ below) active mid)
    (hrest : ∀ active', Follows (frames ++ below) active' path →
      Breaks path mid frames below active' fault net') :
    Breaks path net (frame :: frames) below active fault net' := by
  rcases h with ⟨turnsFirst, active', hfollows, hcountFirst, hstepsFirst⟩
  rcases hrest active' hfollows with ⟨turnsRest, last, hcountRest, hstepsRest, hlast⟩
  refine ⟨turnsRest + turnsFirst, last, ?_, hstepsFirst.trans hstepsRest, hlast⟩
  simp only [List.length_cons, List.length_nil] at hcountFirst ⊢
  omega

/-- A run with a fault ends the search with it. -/
theorem Visits.breaks (h : Visits path ids net (some fault) net')
    (hstart : net.Visitable path ids) {keep : WireId → Bool} (hcovers : net.Covers keep ids)
    (hfollows : Follows below active path) :
    Breaks path net (pending (ids.filter keep)) below active fault net' := by
  generalize hfault : some fault = fault? at h
  induction h generalizing keep below active with
  | nil => cases hfault
  | @settled path ids id net net' fault? hvalue _ ihrest =>
      have hrest := ihrest hstart.tail (hcovers.tail (.refl net)) hfollows hfault
      cases hkeep : keep id with
      | false => rwa [List.filter_cons_of_neg (by simp [hkeep])]
      | true =>
          rw [List.filter_cons_of_pos hkeep]
          exact hrest.settled hvalue
  | undriven hvalue hwire hdriver =>
      obtain rfl := Option.some.inj hfault
      rw [hcovers.filter_cons hvalue]
      exact breaks_of_turn (turn_of_undriven hvalue hwire hdriver)
  | cyclic hvalue hdriver hfind hassigned =>
      obtain rfl := Option.some.inj hfault
      rw [hcovers.filter_cons hvalue]
      exact breaks_of_turn
        (turn_of_reenters (hfollows.append_pending _) hvalue hdriver hfind hassigned)
  | @failed path ids id net net' driver fault' hvalue hdriver hfind _ ihoperands =>
      have hpath : id ∉ path := hstart.not_mem id List.mem_cons_self
      have hstack := hfollows.append_pending (ids.filter keep)
      have hoperands := ihoperands (hstart.operands hvalue hdriver hfind)
        (covers_operands net _) (hstack.expand id) hfault
      rw [hcovers.filter_cons hvalue]
      exact hoperands.expanded hstack hpath hvalue hdriver hfind
  | @computed path ids id net mid net' driver fault? value hvalue hdriver hfind hoperands happly _
      _ ihrest =>
      have hpath : id ∉ path := hstart.not_mem id List.mem_cons_self
      have hbelow := hoperands.visited (hstart.operands hvalue hdriver hfind)
      rcases hbelow.settle hdriver hpath happly with ⟨hgrows, hcoherent, hunsettled, _⟩
      have hrestStart := hstart.rest hgrows hcoherent hunsettled
      -- the first wire is computed without a fault, and one of the others fails
      have hfirst : Visits path [id] net none (mid.settle id value) :=
        .computed hvalue hdriver hfind hoperands happly .nil
      have hstack := hfollows.append_pending (ids.filter keep)
      have hclears := hfirst.clears hstart.head (covers_all net [id]) hstack
      rw [hcovers.filter_cons hvalue]
      refine hclears.breaks fun active' hfollows' => ?_
      exact ihrest hrestStart (hcovers.tail hgrows) hfollows'.of_append_pending hfault

/-! ## Whole searches -/

/-- The search for a wire of a coherent netlist ends as a run does, after at most three
iterations for each wire and one more. -/
theorem Coherent.ends_cases (h : net.Coherent) (hlt : id < net.size) :
    ∃ iterations fault? net', iterations ≤ 3 * net.size + 1 ∧ Visits [] [id] net fault? net' ∧
      (Search.start net id).Ends iterations fault? net' := by
  have hstart := h.visitable hlt
  have hall := card_unsettled_le net []
  rcases exists_visits hstart with ⟨fault?, net', hvisits⟩
  cases fault? with
  | some fault =>
      rcases hvisits.breaks hstart (covers_all net [id]) follows_nil with
        ⟨turns, last, hcount, hsteps, hlast⟩
      refine ⟨1 + turns, some fault, net', ?_, hvisits, hsteps.ends (.failed hlast)⟩
      simp [pending] at hcount
      omega
  | none =>
      rcases hvisits.clears hstart (covers_all net [id]) follows_nil with
        ⟨turns, active, -, hcount, hsteps⟩
      refine ⟨0 + turns, none, net', ?_, hvisits, hsteps.ends (.done rfl)⟩
      simp [pending] at hcount
      omega

/-- A search that ends without a fault returns the word that the wire has then. -/
theorem search_eq_ok {iterations : Nat} (h : (Search.start net id).Ends iterations none net')
    (hbound : iterations ≤ 3 * net.size + 1) (hvalue : net'.value? id = some value) :
    net.search id = (.ok value, net') := by
  have hrun := h.run_eq (show iterations < net.turnBound from Nat.lt_succ_of_le hbound)
  simp only [search, hrun, hvalue]

/-- A search that ends with a fault returns it. -/
theorem search_eq_error {iterations : Nat}
    (h : (Search.start net id).Ends iterations (some fault) net')
    (hbound : iterations ≤ 3 * net.size + 1) : net.search id = (.error fault, net') := by
  have hrun := h.run_eq (show iterations < net.turnBound from Nat.lt_succ_of_le hbound)
  simp only [search, hrun]

/-- The search for a wire of a coherent netlist returns what the derivation of a run
says: the word that the wire has then, or the fault. -/
theorem Coherent.search_cases (h : net.Coherent) (hlt : id < net.size) :
    (∃ value net', Visits [] [id] net none net' ∧ net'.value? id = some value ∧
        net.search id = (.ok value, net')) ∨
      ∃ fault net', Visits [] [id] net (some fault) net' ∧
        net.search id = (.error fault, net') := by
  rcases h.ends_cases hlt with ⟨iterations, fault?, net', hbound, hvisits, hends⟩
  cases fault? with
  | some fault => exact .inr ⟨fault, net', hvisits, search_eq_error hends hbound⟩
  | none =>
      have hvisited := hvisits.visited (h.visitable hlt)
      rcases Option.isSome_iff_exists.mp (hvisited.settled rfl id List.mem_cons_self) with
        ⟨value, hvalue⟩
      exact .inl ⟨value, net', hvisits, hvalue, search_eq_ok hends hbound hvalue⟩

end Netlist

end BitwiseCircuit
