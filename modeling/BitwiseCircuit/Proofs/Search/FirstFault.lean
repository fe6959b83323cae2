import BitwiseCircuit.Proofs.Netlist.Extension
import BitwiseCircuit.Proofs.Search.Simulation

/-!
# The fault that a search meets first

A wire may have several faults below it, and the order in which operands are visited
selects one of them.  The selection does not depend on which words are known already: a
visit that finds a word meets no fault on the way to it either way.  So the wiring alone
determines what a search returns.

Main results:

- Definition `Netlist.FirstFault` describes the selected fault by the wiring alone.
- Theorems `Netlist.FirstFault.unique` and `Netlist.FirstFault.not_denotes`: a wire has one
  such fault at most, and none if it stands for a word.
- Theorem `Netlist.FirstFault.obstructs`: it tells of a wire below that nothing drives, or
  of a path that comes back to one of its wires.
- Theorem `Netlist.Visits.firstFault`: this is the fault that a run fails with.
- Theorem `Netlist.Embeds.search_eq`: where a wire is in two netlists, a search for it
  returns the same in both.
-/

namespace BitwiseCircuit

namespace Netlist

variable {net net' : Netlist} {path ids : List WireId} {id operand : WireId}
  {fault fault' : WireFault} {value : Word} {result result' : Except WireFault Word}

/-! ## The fault below a wire -/

/-- `FirstFault net path id fault`: visiting the wire `id` below the wires of the path
meets the fault before any other when no word is known. -/
inductive FirstFault (net : Netlist) : List WireId → WireId → WireFault → Prop where
  /-- Nothing drives the wire. -/
  | undriven {path : List WireId} {id : WireId} {wire : Wire}
      (hwire : net.wire? id = some wire) (hdriver : wire.driver = none) :
      FirstFault net path id wire.undefined
  /-- The gate of the wire reads a wire of the path, or the wire itself. -/
  | cyclic {path : List WireId} {id operand : WireId} {driver assigned : Driver}
      (hdriver : net.driver? id = some driver)
      (hfind : driver.gate.wires.find? (path ++ [id]).contains = some operand)
      (hassigned : net.driver? operand = some assigned) :
      FirstFault net path id (net.cycleFault (path ++ [id]) operand assigned.position)
  /-- An operand has the fault, and the operands that are visited before it have none. -/
  | operand {path before after : List WireId} {id x : WireId} {driver : Driver}
      {fault : WireFault} (hdriver : net.driver? id = some driver)
      (hfind : driver.gate.wires.find? (path ++ [id]).contains = none)
      (hsplit : driver.gate.wires.reverse = before ++ x :: after)
      (hbefore : ∀ y ∈ before, ∃ value, net.Denotes y value)
      (hfault : FirstFault net (path ++ [id]) x fault) :
      FirstFault net path id fault

/-- Where a reversed list is split, the element is in the list. -/
theorem mem_of_reverse_eq_append {wires before after : List WireId} {x : WireId}
    (hsplit : wires.reverse = before ++ x :: after) : x ∈ wires := by
  rw [← List.mem_reverse, hsplit]
  exact List.mem_append_right before List.mem_cons_self

/-- A wire of which the wiring gives the word has no fault. -/
theorem FirstFault.not_denotes (h : net.FirstFault path id fault)
    (hchain : (path ++ [id]).IsChain net.Reads) : ¬ net.Denotes id value := by
  intro hdenotes
  induction h generalizing value with
  | undriven hwire hdriver =>
      cases hdenotes with
      | gate word hdriver' _ =>
          rw [driver?_of_wire? hwire, hdriver] at hdriver'
          cases hdriver'
  | @cyclic path id operand driver assigned hdriver hfind hassigned =>
      -- the path leads from the operand to the wire, which reads the operand
      have hreads : net.Reads id operand := ⟨driver, hdriver, List.mem_of_find?_eq_some hfind⟩
      have hmem : operand ∈ path ++ [id] := by simpa using List.find?_some hfind
      have hneeds : ∀ x ∈ path ++ [id], net.Needs x id := by
        refine hchain.backwards_induction (net.Needs · id) _ (fun _ _ => .head) fun _ => ?_
        rw [List.getLast_concat]
        exact .refl
      have hcycle : net.OnCycle id := Relation.TransGen.head' hreads (hneeds operand hmem)
      exact hdenotes.resolvable.acyclic id .refl hcycle
  | @operand path before after id x driver fault hdriver _ hsplit _ _ ih =>
      have hmem : x ∈ driver.gate.wires := mem_of_reverse_eq_append hsplit
      cases hdenotes with
      | @gate _ driver' word hdriver' hwires =>
          obtain rfl : driver = driver' := Option.some.inj (hdriver.symm.trans hdriver')
          exact ih (isChain_concat hchain ⟨driver, hdriver, hmem⟩) (hwires x hmem)

/-- A list has one first element without a property. -/
theorem eq_of_first {p : WireId → Prop} {before after before' after' : List WireId} {x y : WireId}
    (hsplit : before ++ x :: after = before' ++ y :: after') (hbefore : ∀ z ∈ before, p z)
    (hbefore' : ∀ z ∈ before', p z) (hx : ¬ p x) (hy : ¬ p y) : x = y := by
  induction before generalizing before' with
  | nil =>
      cases before' with
      | nil => exact (List.cons.inj hsplit).1
      | cons z before' =>
          rw [(List.cons.inj hsplit).1] at hx
          exact absurd (hbefore' z List.mem_cons_self) hx
  | cons z before ih =>
      cases before' with
      | nil =>
          rw [← (List.cons.inj hsplit).1] at hy
          exact absurd (hbefore z List.mem_cons_self) hy
      | cons z' before' =>
          exact ih (List.cons.inj hsplit).2 (fun w hw => hbefore w (List.mem_cons_of_mem z hw))
            fun w hw => hbefore' w (List.mem_cons_of_mem z' hw)

/-- A wire has one fault at most. -/
theorem FirstFault.unique (h : net.FirstFault path id fault) (h' : net.FirstFault path id fault')
    (hchain : (path ++ [id]).IsChain net.Reads) : fault = fault' := by
  induction h generalizing fault' with
  | undriven hwire hdriver =>
      have hnone := driver?_of_wire? hwire
      rw [hdriver] at hnone
      cases h' with
      | undriven hwire' _ =>
          cases hwire.symm.trans hwire'
          rfl
      | cyclic hdriver' => cases hnone.symm.trans hdriver'
      | operand hdriver' => cases hnone.symm.trans hdriver'
  | cyclic hdriver hfind hassigned =>
      cases h' with
      | undriven hwire' hdriver' =>
          rw [driver?_of_wire? hwire', hdriver'] at hdriver
          cases hdriver
      | cyclic hdriver' hfind' hassigned' =>
          cases hdriver.symm.trans hdriver'
          cases hfind.symm.trans hfind'
          cases hassigned.symm.trans hassigned'
          rfl
      | operand hdriver' hfind' =>
          cases hdriver.symm.trans hdriver'
          cases hfind.symm.trans hfind'
  | @operand path before after id x driver fault hdriver hfind hsplit hbefore hfault ih =>
      cases h' with
      | undriven hwire' hdriver' =>
          rw [driver?_of_wire? hwire', hdriver'] at hdriver
          cases hdriver
      | cyclic hdriver' hfind' _ =>
          cases hdriver.symm.trans hdriver'
          cases hfind.symm.trans hfind'
      | @operand _ before' after' _ x' _ _ hdriver' _ hsplit' hbefore' hfault' =>
          cases hdriver.symm.trans hdriver'
          have hx := isChain_concat hchain ⟨driver, hdriver, mem_of_reverse_eq_append hsplit⟩
          have hx' := isChain_concat hchain ⟨driver, hdriver, mem_of_reverse_eq_append hsplit'⟩
          obtain rfl : x = x' := eq_of_first (hsplit.symm.trans hsplit') hbefore hbefore'
            (fun ⟨_, hdenotes⟩ => hfault.not_denotes hx hdenotes)
            (fun ⟨_, hdenotes⟩ => hfault'.not_denotes hx' hdenotes)
          exact ih hfault' hx

/-- The names in the fault of a cycle are the same in a netlist that has the wires. -/
theorem Embeds.cycleFault_eq (h : net.Embeds net') (hpath : ∀ x ∈ path, x < net.size)
    (hid : id < net.size) (assigned : Position) :
    net'.cycleFault path id assigned = net.cycleFault path id assigned := by
  have hnames : (path.dropWhile (· != id)).map net'.nameOf =
      (path.dropWhile (· != id)).map net.nameOf :=
    List.map_congr_left fun x hx => h.nameOf_eq (hpath x ((List.dropWhile_sublist _).subset hx))
  simp only [cycleFault, h.nameOf_eq hid, hnames]

/-- A netlist that has the wires of another one has their faults. -/
theorem FirstFault.mono (h : net.FirstFault path id fault) (hembeds : net.Embeds net')
    (hpath : ∀ x ∈ path, x < net.size) : net'.FirstFault path id fault := by
  induction h with
  | @undriven path id wire hwire hdriver =>
      rcases hembeds id wire hwire with ⟨value, hwire'⟩
      have hfirst : net'.FirstFault path id ({ wire with value } : Wire).undefined :=
        .undriven hwire' hdriver
      exact hfirst
  | @cyclic path id operand driver assigned hdriver hfind hassigned =>
      have hid := lt_size_of_driver? hdriver
      have hoperand := lt_size_of_driver? hassigned
      rw [← hembeds.cycleFault_eq (by grind) hoperand]
      exact .cyclic ((hembeds.driver?_eq hid).trans hdriver) hfind
        ((hembeds.driver?_eq hoperand).trans hassigned)
  | @operand path before after id x driver fault hdriver hfind hsplit hbefore _ ih =>
      have hid := lt_size_of_driver? hdriver
      refine .operand ((hembeds.driver?_eq hid).trans hdriver) hfind hsplit (fun y hy => ?_)
        (ih (by grind))
      rcases hbefore y hy with ⟨value, hdenotes⟩
      exact ⟨value, hembeds.denotes hdenotes⟩

/-! ## Faults that the wiring has -/

/-- The faults that the wiring below a wire has, which the wires of the path need:
a wire that nothing drives, or a continuation of the path that comes back to it. -/
inductive Obstructs (net : Netlist) (path : List WireId) (id : WireId) : WireFault → Prop where
  | undriven {x : WireId} {wire : Wire} (hneeds : net.Needs id x)
      (hwire : net.wire? x = some wire) (hdriver : wire.driver = none) :
      Obstructs net path id wire.undefined
  | cyclic {more : List WireId} {operand : WireId} {assigned : Driver}
      (hnodup : (path ++ id :: more).Nodup)
      (hchain : (path ++ id :: more ++ [operand]).IsChain net.Reads)
      (hmem : operand ∈ path ++ id :: more) (hassigned : net.driver? operand = some assigned) :
      Obstructs net path id (net.cycleFault (path ++ id :: more) operand assigned.position)

/-- A fault below an operand is a fault below the wire. -/
theorem Obstructs.of_operand (h : net.Obstructs (path ++ [id]) operand fault)
    (hreads : net.Reads id operand) : net.Obstructs path id fault := by
  cases h with
  | undriven hneeds hwire hdriver =>
      exact .undriven (Relation.ReflTransGen.head hreads hneeds) hwire hdriver
  | @cyclic more closing assigned hnodup hchain hmem hassigned =>
      have hsplit : path ++ [id] ++ operand :: more = path ++ id :: operand :: more := by simp
      rw [hsplit] at hnodup hchain hmem ⊢
      exact .cyclic hnodup hchain hmem hassigned

/-- The fault that comes first below a wire is one that the wiring has. -/
theorem FirstFault.obstructs (h : net.FirstFault path id fault) (hnodup : (path ++ [id]).Nodup)
    (hchain : (path ++ [id]).IsChain net.Reads) : net.Obstructs path id fault := by
  induction h with
  | undriven hwire hdriver => exact .undriven .refl hwire hdriver
  | @cyclic path id operand driver assigned hdriver hfind hassigned =>
      have hreads : net.Reads id operand := ⟨driver, hdriver, List.mem_of_find?_eq_some hfind⟩
      have hmem : operand ∈ path ++ [id] := by simpa using List.find?_some hfind
      exact .cyclic hnodup (isChain_concat hchain hreads) hmem hassigned
  | @operand path before after id x driver fault hdriver hfind hsplit _ _ ih =>
      have hx : x ∈ driver.gate.wires := mem_of_reverse_eq_append hsplit
      have hpath : x ∉ path ++ [id] := by simpa using List.find?_eq_none.mp hfind x hx
      have hnodup' : (path ++ [id] ++ [x]).Nodup :=
        List.nodup_append.mpr ⟨hnodup, by simp, by grind⟩
      have hreads : net.Reads id x := ⟨driver, hdriver, hx⟩
      exact (ih hnodup' (isChain_concat hchain hreads)).of_operand hreads

/-! ## Runs meet it -/

/-- No wire of the path has its word, so the operands on the path are those that a run
comes back to. -/
theorem reenters_eq_contains (h : ∀ x ∈ path, net.value? x = none) :
    net.reenters path = path.contains := by
  funext operand
  by_cases hmem : operand ∈ path
  · simp [reenters, h operand hmem]
  · simp [reenters, hmem]

/-- A run fails with the fault that comes first below one of the wires, and the wires
before that one stand for words. -/
theorem Visits.firstFault (h : Visits path ids net (some fault) net')
    (hstart : net.Visitable path ids) : ∃ before id after, ids = before ++ id :: after ∧
      (∀ x ∈ before, ∃ value, net.Denotes x value) ∧ net.FirstFault path id fault := by
  generalize hfault : some fault = fault? at h
  induction h with
  | nil => cases hfault
  | @settled path ids id net net' _ hvalue _ ihrest =>
      rcases ihrest hstart.tail hfault with ⟨before, x, after, rfl, hbefore, hfirst⟩
      refine ⟨id :: before, x, after, rfl, fun y hy => ?_, hfirst⟩
      rcases List.mem_cons.mp hy with rfl | hy
      · rcases Option.isSome_iff_exists.mp hvalue with ⟨value, hvalue⟩
        exact ⟨value, hstart.coherent.denotes y value hvalue⟩
      · exact hbefore y hy
  | @undriven path ids id net wire _ hwire hdriver =>
      obtain rfl := Option.some.inj hfault
      exact ⟨[], id, ids, rfl, by simp, .undriven hwire hdriver⟩
  | @cyclic path ids id operand net driver assigned hvalue hdriver hfind hassigned =>
      obtain rfl := Option.some.inj hfault
      rw [reenters_eq_contains (hstart.unsettled_append hvalue)] at hfind
      exact ⟨[], id, ids, rfl, by simp, .cyclic hdriver hfind hassigned⟩
  | @failed path ids id net net' driver _ hvalue hdriver hfind _ ihoperands =>
      rcases ihoperands (hstart.operands hvalue hdriver hfind) hfault with
        ⟨before, x, after, hsplit, hbefore, hfirst⟩
      rw [reenters_eq_contains (hstart.unsettled_append hvalue)] at hfind
      exact ⟨[], id, ids, rfl, by simp, .operand hdriver hfind hsplit hbefore hfirst⟩
  | @computed path ids id net mid net' driver _ value hvalue hdriver hfind hoperands happly _
      _ ihrest =>
      have hbelow := hoperands.visited (hstart.operands hvalue hdriver hfind)
      have hpath : id ∉ path := hstart.not_mem id List.mem_cons_self
      rcases hbelow.settle hdriver hpath happly with ⟨hgrows, hcoherent, hunsettled, hid⟩
      have hwiring := hgrows.wiring
      rcases ihrest (hstart.rest hgrows hcoherent hunsettled) hfault with
        ⟨before, x, after, rfl, hbefore, hfirst⟩
      refine ⟨id :: before, x, after, rfl, fun y hy => ?_,
        hfirst.mono hwiring.symm.embeds fun y hy => ?_⟩
      · rcases List.mem_cons.mp hy with rfl | hy
        · exact ⟨value, hwiring.denotes_iff.mpr (hcoherent.denotes y value hid)⟩
        · rcases hbefore y hy with ⟨word, hdenotes⟩
          exact ⟨word, hwiring.denotes_iff.mpr hdenotes⟩
      · rcases hstart.exists_driver hy with ⟨driver', hdriver'⟩
        rw [← hwiring.size_eq]
        exact lt_size_of_driver? hdriver'

/-! ## What a search returns -/

/-- The word that the wiring gives for a wire, or the fault that comes first below it. -/
inductive Yields (net : Netlist) (id : WireId) : Except WireFault Word → Prop where
  | word {value : Word} (hdenotes : net.Denotes id value) : Yields net id (.ok value)
  | fault {fault : WireFault} (hfirst : net.FirstFault [] id fault) : Yields net id (.error fault)

/-- The wiring yields one result for a wire. -/
theorem Yields.unique (h : net.Yields id result) (h' : net.Yields id result') :
    result = result' := by
  cases h with
  | word hdenotes =>
      cases h' with
      | word hdenotes' => rw [hdenotes.unique hdenotes']
      | fault hfirst' => exact absurd hdenotes (hfirst'.not_denotes (.singleton id))
  | fault hfirst =>
      cases h' with
      | word hdenotes' => exact absurd hdenotes' (hfirst.not_denotes (.singleton id))
      | fault hfirst' => rw [hfirst.unique hfirst' (.singleton id)]

/-- A wire yields the same in a netlist that has more wires. -/
theorem Yields.mono (h : net.Yields id result) (hembeds : net.Embeds net') :
    net'.Yields id result := by
  cases h with
  | word hdenotes => exact .word (hembeds.denotes hdenotes)
  | fault hfirst => exact .fault (hfirst.mono hembeds (by simp))

/-- A search returns what the wiring yields. -/
theorem Coherent.yields (h : net.Coherent) (hlt : id < net.size) :
    net.Yields id (net.search id).1 := by
  have hstart := h.visitable hlt
  rcases h.search_cases hlt with
    ⟨value, net', hvisits, hvalue, hsearch⟩ | ⟨fault, net', hvisits, hsearch⟩
  · have hvisited := hvisits.visited hstart
    rw [hsearch]
    exact .word (hvisited.grows.wiring.denotes_iff.mpr (hvisited.coherent.denotes id value hvalue))
  · rcases hvisits.firstFault hstart with ⟨before, x, after, hsplit, _, hfirst⟩
    obtain rfl : id = x := by
      rcases List.cons_eq_append_iff.mp hsplit with ⟨rfl, hid⟩ | ⟨more, rfl, hmore⟩
      · exact (List.cons.inj hid).1.symm
      · simp at hmore
    rw [hsearch]
    exact .fault hfirst

/-- Where a wire is in two netlists, a search for it returns the same in both, whatever
words each of them knows. -/
theorem Embeds.search_eq (h : net.Embeds net') (hnet : net.Coherent) (hnet' : net'.Coherent)
    (hlt : id < net.size) : (net'.search id).1 = (net.search id).1 := by
  rcases exists_wire_of_lt hlt with ⟨wire, hwire⟩
  rcases h id wire hwire with ⟨value, hwire'⟩
  exact (hnet'.yields (lt_size_of_wire? hwire')).unique ((hnet.yields hlt).mono h)

end Netlist

end BitwiseCircuit
