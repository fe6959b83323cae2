import Mathlib.Data.List.Chain
import BitwiseCircuit.Netlist.Search
import BitwiseCircuit.Proofs.Netlist.Coherence

/-!
# Visits

A wire can be computed by recursion: visit the wires that its gate reads, the last
one first, and then compute the gate.  The path holds the wires whose gates wait
for others, so that a wire that is met on it depends on itself.  This file gives
the derivations of such runs, for lists of wires that are visited one after
another, and what a run leaves behind.

Main results:

- Definition `Netlist.Visits` is the derivation of a run.
- Theorem `Netlist.Visits.visited`: a run only adds words, keeps the netlist
  coherent, leaves the path without words, and gives each visited wire its word
  unless it fails.
- Theorem `Netlist.Visits.exists_needs`: a run computes only words of wires that the
  visited wires need.
- Theorem `Netlist.exists_visits`: there always is a run.
-/

namespace BitwiseCircuit

namespace Netlist

variable {net net' mid : Netlist} {path ids : List WireId} {id x operand : WireId}
  {driver : Driver} {fault? : Option WireFault} {value : Word}

/-! ## Runs -/

/-- An operand that has no word yet is on the path. -/
def reenters (net : Netlist) (path : List WireId) (operand : WireId) : Bool :=
  (net.value? operand).isNone && path.contains operand

private theorem mem_of_find?_reenters {wires : List WireId}
    (h : wires.find? (net.reenters path) = some operand) : operand ∈ path := by
  have hreenters := List.find?_some h
  simp only [reenters, Bool.and_eq_true, List.contains_iff_mem] at hreenters
  exact hreenters.2

/-- The fault of needing a wire that is on the path: the cycle is the path from
there on, closed by the wire itself, and it is shown where the wire is assigned. -/
def cycleFault (net : Netlist) (path : List WireId) (id : WireId) (assigned : Position) :
    WireFault :=
  .cyclic (net.nameOf id) ((path.dropWhile (· != id)).map net.nameOf ++ [net.nameOf id]) assigned

/-- `Visits path ids net fault? net'`: visiting the wires `ids` one after another,
below the wires of the path, leads from `net` to `net'`, and ends early if there is
a fault. -/
inductive Visits :
    List WireId → List WireId → Netlist → Option WireFault → Netlist → Prop where
  | nil {path : List WireId} {net : Netlist} :
      Visits path [] net none net
  /-- The word of the wire is known. -/
  | settled {path ids : List WireId} {id : WireId} {net net' : Netlist}
      {fault? : Option WireFault} (hvalue : (net.value? id).isSome)
      (hrest : Visits path ids net fault? net') :
      Visits path (id :: ids) net fault? net'
  /-- Nothing drives the wire. -/
  | undriven {path ids : List WireId} {id : WireId} {net : Netlist} {wire : Wire}
      (hvalue : net.value? id = none) (hwire : net.wire? id = some wire)
      (hdriver : wire.driver = none) :
      Visits path (id :: ids) net (some wire.undefined) net
  /-- The gate of the wire reads a wire of the path, or the wire itself. -/
  | cyclic {path ids : List WireId} {id operand : WireId} {net : Netlist}
      {driver assigned : Driver} (hvalue : net.value? id = none)
      (hdriver : net.driver? id = some driver)
      (hfind : driver.gate.wires.find? (net.reenters (path ++ [id])) = some operand)
      (hassigned : net.driver? operand = some assigned) :
      Visits path (id :: ids) net
        (some (net.cycleFault (path ++ [id]) operand assigned.position)) net
  /-- An operand of the gate of the wire fails. -/
  | failed {path ids : List WireId} {id : WireId} {net net' : Netlist} {driver : Driver}
      {fault : WireFault} (hvalue : net.value? id = none)
      (hdriver : net.driver? id = some driver)
      (hfind : driver.gate.wires.find? (net.reenters (path ++ [id])) = none)
      (hoperands : Visits (path ++ [id]) driver.gate.wires.reverse net (some fault) net') :
      Visits path (id :: ids) net (some fault) net'
  /-- The operands are known after their visits, and the gate is computed. -/
  | computed {path ids : List WireId} {id : WireId} {net mid net' : Netlist}
      {driver : Driver} {fault? : Option WireFault} {value : Word}
      (hvalue : net.value? id = none) (hdriver : net.driver? id = some driver)
      (hfind : driver.gate.wires.find? (net.reenters (path ++ [id])) = none)
      (hoperands : Visits (path ++ [id]) driver.gate.wires.reverse net none mid)
      (happly : driver.gate.apply mid.read? = some value)
      (hrest : Visits path ids (mid.settle id value) fault? net') :
      Visits path (id :: ids) net fault? net'

/-! ## Where runs start -/

/-- The path goes on to each operand of its last wire. -/
theorem isChain_concat (hchain : (path ++ [id]).IsChain net.Reads) (hreads : net.Reads id x) :
    (path ++ [id] ++ [x]).IsChain net.Reads := by
  rw [List.isChain_append]
  exact ⟨hchain, .singleton x, by simp [hreads]⟩

/-- Wires can be visited in a coherent netlist along a path of different wires that
have no word, each of which reads the next one, and the last one each of the wires
to be visited. -/
structure Visitable (net : Netlist) (path ids : List WireId) : Prop where
  coherent : net.Coherent
  nodup : path.Nodup
  unsettled : ∀ x ∈ path, net.value? x = none
  lt_size : ∀ id ∈ ids, id < net.size
  not_mem : ∀ id ∈ ids, id ∉ path
  chain : ∀ id ∈ ids, (path ++ [id]).IsChain net.Reads

/-- One wire can be visited first. -/
theorem Coherent.visitable (h : net.Coherent) (hlt : id < net.size) :
    net.Visitable [] [id] where
  coherent := h
  nodup := List.nodup_nil
  unsettled := by simp
  lt_size := by simpa using hlt
  not_mem := by simp
  chain := by simp

/-- Where some words were added off the path, the wires that are left can be
visited. -/
theorem Visitable.rest (h : net.Visitable path (id :: ids)) (hgrows : net.Grows net')
    (hcoherent : net'.Coherent) (hunsettled : ∀ x ∈ path, net'.value? x = none) :
    net'.Visitable path ids where
  coherent := hcoherent
  nodup := h.nodup
  unsettled := hunsettled
  lt_size x hx := by
    rw [← hgrows.wiring.size_eq]
    exact h.lt_size x (List.mem_cons_of_mem id hx)
  not_mem x hx := h.not_mem x (List.mem_cons_of_mem id hx)
  chain x hx := by
    rw [← hgrows.wiring.reads_eq]
    exact h.chain x (List.mem_cons_of_mem id hx)

/-- The wires left can be visited when the first one has its word already. -/
theorem Visitable.tail (h : net.Visitable path (id :: ids)) : net.Visitable path ids :=
  h.rest (.refl net) h.coherent h.unsettled

/-- The first wire alone can be visited. -/
theorem Visitable.head (h : net.Visitable path (id :: ids)) : net.Visitable path [id] where
  coherent := h.coherent
  nodup := h.nodup
  unsettled := h.unsettled
  lt_size x hx := h.lt_size x (List.mem_singleton.mp hx ▸ List.mem_cons_self)
  not_mem x hx := h.not_mem x (List.mem_singleton.mp hx ▸ List.mem_cons_self)
  chain x hx := h.chain x (List.mem_singleton.mp hx ▸ List.mem_cons_self)

/-- No wire of the path that ends with a wire without a word has its word. -/
theorem Visitable.unsettled_append (h : net.Visitable path (id :: ids))
    (hvalue : net.value? id = none) : ∀ x ∈ path ++ [id], net.value? x = none := by
  intro x hx
  rcases List.mem_append.mp hx with hx | hx
  · exact h.unsettled x hx
  · rwa [List.mem_singleton.mp hx]

/-- Below a wire without a word whose operands are not on the path, the operands can
be visited. -/
theorem Visitable.operands (h : net.Visitable path (id :: ids)) (hvalue : net.value? id = none)
    (hdriver : net.driver? id = some driver)
    (hfind : driver.gate.wires.find? (net.reenters (path ++ [id])) = none) :
    net.Visitable (path ++ [id]) driver.gate.wires.reverse := by
  have hreads : ∀ y ∈ driver.gate.wires.reverse, net.Reads id y := by
    intro y hy
    exact ⟨driver, hdriver, List.mem_reverse.mp hy⟩
  have hunsettled := h.unsettled_append hvalue
  refine ⟨h.coherent, ?_, hunsettled, ?_, ?_, ?_⟩
  · have hid : id ∉ path := h.not_mem id List.mem_cons_self
    exact List.nodup_append.mpr ⟨h.nodup, by simp, by grind⟩
  · intro y hy
    exact h.coherent.operand_lt id y (hreads y hy)
  · intro y hy hmem
    have hnot := List.find?_eq_none.mp hfind y (List.mem_reverse.mp hy)
    simp [reenters, hunsettled y hmem, hmem] at hnot
  · intro y hy
    exact isChain_concat (h.chain id List.mem_cons_self) (hreads y hy)

/-- The wires of the path are driven. -/
theorem Visitable.exists_driver (h : net.Visitable path (id :: ids)) (hx : x ∈ path) :
    ∃ driver, net.driver? x = some driver := by
  rcases List.append_of_mem hx with ⟨before, after, rfl⟩
  have hchain : (x :: (after ++ [id])).IsChain net.Reads := by
    have hwhole := h.chain id List.mem_cons_self
    rw [List.append_assoc, List.cons_append, List.isChain_append] at hwhole
    exact hwhole.2.1
  cases after with
  | nil =>
      rcases (List.isChain_cons_cons.mp hchain).1 with ⟨driver, hdriver, _⟩
      exact ⟨driver, hdriver⟩
  | cons y after =>
      rcases (List.isChain_cons_cons.mp hchain).1 with ⟨driver, hdriver, _⟩
      exact ⟨driver, hdriver⟩

/-- An operand that is on the path is a driven wire. -/
theorem Visitable.exists_driver_of_reenters (h : net.Visitable path (id :: ids))
    (hdriver : net.driver? id = some driver)
    (hfind : driver.gate.wires.find? (net.reenters (path ++ [id])) = some operand) :
    ∃ assigned, net.driver? operand = some assigned := by
  rcases List.mem_append.mp (mem_of_find?_reenters hfind) with hmem | hmem
  · exact h.exists_driver hmem
  · rw [List.mem_singleton.mp hmem]
    exact ⟨driver, hdriver⟩

/-! ## What runs leave -/

/-- What a run that visits the wires `ids` leaves behind. -/
structure Visited (path ids : List WireId) (net : Netlist) (fault? : Option WireFault)
    (net' : Netlist) : Prop where
  grows : net.Grows net'
  coherent : net'.Coherent
  unsettled : ∀ x ∈ path, net'.value? x = none
  settled : fault? = none → ∀ id ∈ ids, (net'.value? id).isSome

/-- The gate of a wire whose operands have been visited can be computed. -/
theorem Visited.exists_apply (h : Visited (path ++ [id]) driver.gate.wires.reverse net none mid)
    (hdriver : net.driver? id = some driver) :
    ∃ value, driver.gate.apply mid.read? = some value ∧ mid.Denotes id value := by
  refine h.coherent.exists_apply (h.grows.wiring.driver?_eq id ▸ hdriver) fun y hy => ?_
  exact h.settled rfl y (List.mem_reverse.mpr hy)

/-- Computing the gate of a wire whose operands have been visited. -/
theorem Visited.settle (h : Visited (path ++ [id]) driver.gate.wires.reverse net none mid)
    (hdriver : net.driver? id = some driver) (hpath : id ∉ path)
    (happly : driver.gate.apply mid.read? = some value) :
    net.Grows (mid.settle id value) ∧ (mid.settle id value).Coherent ∧
      (∀ x ∈ path, (mid.settle id value).value? x = none) ∧
      (mid.settle id value).value? id = some value := by
  have hdriver' : mid.driver? id = some driver := h.grows.wiring.driver?_eq id ▸ hdriver
  have hlt : id < mid.size := lt_size_of_driver? hdriver'
  have hvalue : mid.value? id = none := h.unsettled id (by simp)
  have hdenotes : mid.Denotes id value := by
    rcases h.exists_apply hdriver with ⟨value', happly', hdenotes⟩
    obtain rfl : value = value' := Option.some.inj (happly.symm.trans happly')
    exact hdenotes
  refine ⟨h.grows.trans (grows_settle hvalue), ?_, ?_, value?_settle_self hlt⟩
  · refine h.coherent.settle hvalue hdenotes hlt ?_
    rintro y ⟨driver', hdriver'', hy⟩
    obtain rfl : driver = driver' := Option.some.inj (hdriver'.symm.trans hdriver'')
    exact h.settled rfl y (List.mem_reverse.mpr hy)
  · intro x hx
    have hne : x ≠ id := fun heq => hpath (heq ▸ hx)
    rw [value?_settle_of_ne hne]
    exact h.unsettled x (List.mem_append_left _ hx)

/-- After a wire has got its word there are fewer wires without one. -/
theorem Visited.card_unsettled_lt (h : Visited (path ++ [id]) ids net none mid)
    (hvalue : net.value? id = none) (hlt : id < net.size) (hpath : id ∉ path) :
    ((mid.settle id value).unsettled path).card < (net.unsettled path).card := by
  have hcard := card_unsettled_append hvalue hlt hpath
  have hgrows := h.grows.card_unsettled_le (path ++ [id])
  rw [unsettled_settle (h.grows.wiring.size_eq ▸ hlt)]
  omega

/-- A run only adds words, keeps the netlist coherent and the path without words, and
gives each visited wire its word unless it fails. -/
theorem Visits.visited (h : Visits path ids net fault? net') (hstart : net.Visitable path ids) :
    Visited path ids net fault? net' := by
  induction h with
  | nil =>
      exact ⟨.refl _, hstart.coherent, hstart.unsettled, by simp⟩
  | settled hvalue _ ihrest =>
      have hrest := ihrest hstart.tail
      refine ⟨hrest.grows, hrest.coherent, hrest.unsettled, fun hnone x hx => ?_⟩
      rcases List.mem_cons.mp hx with rfl | hx
      · exact hrest.grows.isSome hvalue
      · exact hrest.settled hnone x hx
  | undriven => exact ⟨.refl _, hstart.coherent, hstart.unsettled, by simp⟩
  | cyclic => exact ⟨.refl _, hstart.coherent, hstart.unsettled, by simp⟩
  | failed hvalue hdriver hfind _ ihoperands =>
      have hbelow := ihoperands (hstart.operands hvalue hdriver hfind)
      exact ⟨hbelow.grows, hbelow.coherent,
        fun x hx => hbelow.unsettled x (List.mem_append_left _ hx), by simp⟩
  | @computed path ids id net mid net' driver fault? value hvalue hdriver hfind _ happly _
      ihoperands ihrest =>
      have hbelow := ihoperands (hstart.operands hvalue hdriver hfind)
      have hpath : id ∉ path := hstart.not_mem id List.mem_cons_self
      rcases hbelow.settle hdriver hpath happly with ⟨hgrows, hcoherent, hunsettled, hid⟩
      have hrest := ihrest (hstart.rest hgrows hcoherent hunsettled)
      refine ⟨hgrows.trans hrest.grows, hrest.coherent, hrest.unsettled, fun hnone x hx => ?_⟩
      rcases List.mem_cons.mp hx with rfl | hx
      · exact hrest.grows.isSome (by simp [hid])
      · exact hrest.settled hnone x hx

/-! ## What runs compute -/

/-- A run keeps the wiring. -/
theorem Visits.wiring (h : Visits path ids net fault? net') : net.SameWiring net' := by
  induction h with
  | nil => exact .refl _
  | settled _ _ ihrest => exact ihrest
  | undriven => exact .refl _
  | cyclic => exact .refl _
  | failed _ _ _ _ ihoperands => exact ihoperands
  | computed _ _ _ _ _ _ ihoperands ihrest =>
      exact ihoperands.trans ((sameWiring_settle _ _ _).trans ihrest)

/-- A run computes only words of wires that the visited wires need. -/
theorem Visits.exists_needs (h : Visits path ids net fault? net') (hold : net.value? x = none)
    (hnew : (net'.value? x).isSome) : ∃ id ∈ ids, net.Needs id x := by
  induction h with
  | nil => simp [hold] at hnew
  | settled _ _ ihrest =>
      rcases ihrest hold hnew with ⟨y, hy, hneeds⟩
      exact ⟨y, List.mem_cons_of_mem _ hy, hneeds⟩
  | undriven => simp [hold] at hnew
  | cyclic => simp [hold] at hnew
  | @failed path ids id net net' driver _ _ hdriver _ _ ihoperands =>
      rcases ihoperands hold hnew with ⟨y, hy, hneeds⟩
      exact ⟨id, List.mem_cons_self,
        (needs_iff hdriver).mpr (.inr ⟨y, List.mem_reverse.mp hy, hneeds⟩)⟩
  | @computed path ids id net mid net' driver _ value _ hdriver _ hoperands _ _ ihoperands
      ihrest =>
      by_cases hx : x = id
      · exact ⟨id, List.mem_cons_self, hx ▸ .refl⟩
      · cases hmid : mid.value? x with
        | some known =>
            rcases ihoperands hold (by simp [hmid]) with ⟨y, hy, hneeds⟩
            exact ⟨id, List.mem_cons_self,
              (needs_iff hdriver).mpr (.inr ⟨y, List.mem_reverse.mp hy, hneeds⟩)⟩
        | none =>
            have hwiring := hoperands.wiring.trans (sameWiring_settle mid id value)
            rw [← value?_settle_of_ne hx] at hmid
            rcases ihrest hmid hnew with ⟨y, hy, hneeds⟩
            refine ⟨y, List.mem_cons_of_mem id hy, ?_⟩
            rwa [Needs, hwiring.reads_eq]

/-! ## There is a run -/

/-- Where wires can be visited there is a run.  The path grows only by wires without
a word, and after a wire has got its word there are fewer of these. -/
theorem exists_visits (hstart : net.Visitable path ids) :
    ∃ fault? net', Visits path ids net fault? net' := by
  induction hcount : (net.unsettled path).card using Nat.strong_induction_on
    generalizing net path ids with
  | _ count ih =>
      induction ids with
      | nil => exact ⟨none, net, .nil⟩
      | cons id ids ihids =>
          cases hvalue : net.value? id with
          | some value =>
              rcases ihids hstart.tail with ⟨fault?, net', hrest⟩
              exact ⟨fault?, net', .settled (by simp [hvalue]) hrest⟩
          | none =>
              have hlt : id < net.size := hstart.lt_size id List.mem_cons_self
              have hpath : id ∉ path := hstart.not_mem id List.mem_cons_self
              rcases exists_wire_of_lt hlt with ⟨wire, hwire⟩
              cases hwireDriver : wire.driver with
              | none => exact ⟨_, _, .undriven hvalue hwire hwireDriver⟩
              | some driver =>
                  have hdriver : net.driver? id = some driver := by
                    rw [driver?_of_wire? hwire, hwireDriver]
                  have hless : (net.unsettled (path ++ [id])).card < count := by
                    have hcard := card_unsettled_append hvalue hlt hpath
                    omega
                  cases hfind : driver.gate.wires.find? (net.reenters (path ++ [id])) with
                  | some operand =>
                      rcases hstart.exists_driver_of_reenters hdriver hfind with
                        ⟨assigned, hassigned⟩
                      exact ⟨_, _, .cyclic hvalue hdriver hfind hassigned⟩
                  | none =>
                      have hoperandsStart := hstart.operands hvalue hdriver hfind
                      rcases ih _ hless hoperandsStart rfl with ⟨fault?, mid, hoperands⟩
                      have hbelow := hoperands.visited hoperandsStart
                      cases fault? with
                      | some fault => exact ⟨_, _, .failed hvalue hdriver hfind hoperands⟩
                      | none =>
                          rcases hbelow.exists_apply hdriver with ⟨value, happly, _⟩
                          rcases hbelow.settle hdriver hpath happly with
                            ⟨hgrows, hcoherent, hunsettled, _⟩
                          have hrestStart := hstart.rest hgrows hcoherent hunsettled
                          have hrestLess : ((mid.settle id value).unsettled path).card < count :=
                            hcount ▸ hbelow.card_unsettled_lt hvalue hlt hpath
                          rcases ih _ hrestLess hrestStart rfl with ⟨fault?, net', hrest⟩
                          exact ⟨_, _, .computed hvalue hdriver hfind hoperands happly hrest⟩

end Netlist

end BitwiseCircuit
