import BitwiseCircuit.Proofs.Resolution.Cycle

/-!
# What a resolution computes

A wire is resolved by computing what it depends on and nothing else, and each gate once,
however many wires read it.  What is known already is not computed again.

Main results:

- Definition `Netlist.closure` is the set of the wires that a wire depends on.
- Definition `Netlist.Memoises` says which words a resolution adds and how far it advances
  the counter; Theorem `Netlist.Coherent.memoises` proves it of every resolution.
- Theorem `Netlist.Reachable.resolve_memoises`: the same for reachable netlists, by number
  and by name, with the two extremes of a netlist just built and of a repeated request.
-/

namespace BitwiseCircuit

namespace Netlist

variable {net net' : Netlist} {id x : WireId} {value : Word}

/-! ## Dependency closures -/

open Classical in
/-- The wires that the wire `id` depends on, itself included. -/
noncomputable def closure (net : Netlist) (id : WireId) : Finset WireId :=
  {x ∈ Finset.range net.size | net.Needs id x}

/-- The closure of a wire has the wires that it needs. -/
theorem WellWired.mem_closure (h : net.WellWired) (hlt : id < net.size) :
    x ∈ net.closure id ↔ net.Needs id x := by
  simp only [closure, Finset.mem_filter, Finset.mem_range, and_iff_right_iff_imp]
  exact h.lt_size_of_needs hlt

/-- Where a wire has its word, so have all wires that it depends on. -/
theorem Coherent.isSome_of_needs (h : net.Coherent) (hneeds : net.Needs id x)
    (hvalue : (net.value? id).isSome) : (net.value? x).isSome := by
  induction hneeds with
  | refl => exact hvalue
  | tail _ hreads ih => exact h.closed _ _ ih hreads

/-- A wire that has its word is not computed again. -/
theorem search_of_value? (h : net.value? id = some value) : net.search id = (.ok value, net) :=
  search_eq_ok (.next (Search.turn_of_settled h) (.done rfl)) (Nat.le_add_left _ _) h

/-- The word that a search returns is kept. -/
theorem Coherent.value?_of_search (h : net.Coherent) (hlt : id < net.size)
    (hok : (net.search id).1 = .ok value) : (net.search id).2.value? id = some value := by
  rcases h.search_cases hlt with ⟨value', net', _, hvalue, hsearch⟩ | ⟨fault, net', _, hsearch⟩
  · rw [hsearch] at hok ⊢
    cases hok
    exact hvalue
  · rw [hsearch] at hok
    cases hok

/-! ## Words that are added -/

/-- What resolving the wire `id` in `net` does when it returns `result` and leaves `net'`.
The wiring stays, and so do the words that were known.  Words are added only for wires that
`id` depends on, for all of them if there is no fault, and each advances the counter by
one. -/
structure Memoises (net : Netlist) (id : WireId) (result : Except WireFault Word)
    (net' : Netlist) : Prop where
  grows : net.Grows net'
  denotes : ∀ x value, net'.value? x = some value → net.Denotes x value
  settled_subset : net'.settled ⊆ net.settled ∪ net.closure id
  evaluations_eq : net'.evaluations = net.evaluations + (net'.settled \ net.settled).card
  settled_of_ok : ∀ value, result = .ok value → net'.settled = net.settled ∪ net.closure id
  evaluations_of_ok : ∀ value, result = .ok value →
    net'.evaluations = net.evaluations + (net.closure id \ net.settled).card

/-- The counter of a coherent netlist that grows counts the words that are added. -/
theorem Grows.evaluations_eq (h : net.Grows net') (hold : net.Coherent) (hnew : net'.Coherent) :
    net'.evaluations = net.evaluations + (net'.settled \ net.settled).card := by
  have hcard := Finset.card_sdiff_add_card_eq_card h.settled_subset
  rw [hold.evaluations_eq, hnew.evaluations_eq]
  omega

/-- Resolving a wire of a coherent netlist adds words of its closure only, and all of
them if there is no fault. -/
theorem Coherent.memoises (h : net.Coherent) (hlt : id < net.size) :
    net.Memoises id (net.search id).1 (net.search id).2 := by
  rcases h.ends_cases hlt with ⟨iterations, fault?, net', hbound, hvisits, hends⟩
  have hvisited := hvisits.visited (h.visitable hlt)
  have hgrows := hvisited.grows
  have hsubset : net'.settled ⊆ net.settled ∪ net.closure id := by
    intro x hx
    rw [mem_settled] at hx
    rw [Finset.mem_union, mem_settled, h.mem_closure hlt]
    cases hold : net.value? x with
    | some value => exact .inl rfl
    | none =>
        rcases hvisits.exists_needs hold hx with ⟨y, hy, hneeds⟩
        exact .inr (List.mem_singleton.mp hy ▸ hneeds)
  have hdenotes : ∀ x value, net'.value? x = some value → net.Denotes x value :=
    fun x value hvalue => hgrows.wiring.denotes_iff.mpr (hvisited.coherent.denotes x value hvalue)
  have hcount := hgrows.evaluations_eq h hvisited.coherent
  cases fault? with
  | some fault =>
      rw [search_eq_error hends hbound]
      exact ⟨hgrows, hdenotes, hsubset, hcount, nofun, nofun⟩
  | none =>
      have hsettled := hvisited.settled rfl id List.mem_cons_self
      have hall : net'.settled = net.settled ∪ net.closure id := by
        refine hsubset.antisymm (Finset.union_subset hgrows.settled_subset fun x hx => ?_)
        have hneeds : net'.Needs id x := by
          rw [Needs, ← hgrows.wiring.reads_eq]
          exact (h.mem_closure hlt).mp hx
        exact mem_settled.mpr (hvisited.coherent.isSome_of_needs hneeds hsettled)
      rcases Option.isSome_iff_exists.mp hsettled with ⟨value, hvalue⟩
      rw [search_eq_ok hends hbound hvalue]
      refine ⟨hgrows, hdenotes, hsubset, hcount, fun _ _ => hall, fun _ _ => ?_⟩
      rw [hcount, hall, Finset.union_sdiff_left]

/-- Resolving a wire of a reachable netlist, by number or by name, computes what the wire
depends on and is not known yet, each word once.  If the netlist was just built, a
resolution that succeeds counts the wires of the closure; and one that is repeated returns
the word again and changes nothing. -/
theorem Reachable.resolve_memoises (h : net.Reachable) (hlt : id < net.size) :
    net.Memoises id ((resolveId id).on net).1 ((resolveId id).on net).2 ∧
      (∀ value, ((resolveId id).on net).1 = .ok value →
        (∀ schematic, ofSchematic schematic = .ok net →
          ((resolveId id).on net).2.evaluations = (net.closure id).card) ∧
        (resolveId id).on ((resolveId id).on net).2 = (.ok value, ((resolveId id).on net).2)) ∧
      ∀ name, net.IsNamed id name → (resolve name).on net = (resolveId id).on net := by
  have hmemoises := h.coherent.memoises hlt
  refine ⟨hmemoises, fun value hok => ⟨fun schematic hbuilt => ?_, ?_⟩, fun name hnamed => ?_⟩
  · have hrealizes := realizes_ofSchematic hbuilt
    have hnone : net.settled = ∅ := by
      ext x
      simp [hrealizes.value]
    have hcount := hmemoises.evaluations_of_ok value hok
    rwa [hnone, Finset.sdiff_empty, hrealizes.evaluations, Nat.zero_add] at hcount
  · exact search_of_value? (h.coherent.value?_of_search hlt hok)
  · rw [on_resolve_of_find?_eq_some ((h.coherent.find?_iff name id).mpr hnamed), on_resolveId]

/-- The wire `c` reads `l` and `r`, and each of these reads `w` twice. -/
def diamond : Schematic :=
  ⟨[⟨.literal ⟨"1", ⟨1, 1⟩⟩, ⟨"w", ⟨1, 6⟩⟩⟩,
    ⟨.binary .and ⟨"w", ⟨2, 1⟩⟩ ⟨"w", ⟨2, 7⟩⟩, ⟨"l", ⟨2, 12⟩⟩⟩,
    ⟨.binary .or ⟨"w", ⟨3, 1⟩⟩ ⟨"w", ⟨3, 6⟩⟩, ⟨"r", ⟨3, 11⟩⟩⟩,
    ⟨.binary .or ⟨"l", ⟨4, 1⟩⟩ ⟨"r", ⟨4, 6⟩⟩, ⟨"c", ⟨4, 11⟩⟩⟩]⟩

/-- The netlist of `diamond`. -/
def diamondNet : Netlist :=
  (ofSchematic diamond).toOption.getD empty

/-- Resolving `c` computes four words, one for each wire of its closure, and then no more. -/
theorem diamond_resolve_memoises :
    diamondNet.Reachable ∧ 3 < diamondNet.size ∧ ((resolve "c").on diamondNet).1 = .ok 1 ∧
      (diamondNet.closure 3).card = 4 ∧
      (resolveId 3).on ((resolve "c").on diamondNet).2 =
        (.ok 1, ((resolve "c").on diamondNet).2) := by
  have hbuilt : ofSchematic diamond = .ok diamondNet := rfl
  have hreachable : diamondNet.Reachable := .built hbuilt
  have hlt : 3 < diamondNet.size := by decide +kernel
  have hok : ((resolveId 3).on diamondNet).1 = .ok 1 := by decide +kernel
  have hcount : ((resolveId 3).on diamondNet).2.evaluations = 4 := by decide +kernel
  have h := (hreachable.resolve_memoises hlt).2
  rcases h.1 1 hok with ⟨hclosure, hagain⟩
  rw [h.2 "c" ⟨_, rfl, rfl⟩]
  exact ⟨hreachable, hlt, hok, (hclosure diamond hbuilt).symm.trans hcount, hagain⟩

end Netlist

end BitwiseCircuit
