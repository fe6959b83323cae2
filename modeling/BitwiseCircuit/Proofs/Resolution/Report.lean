import BitwiseCircuit.Proofs.Except
import BitwiseCircuit.Proofs.Resolution.Outcome

/-!
# Reports of all wires

A report of all wires lists each of them once, whatever the order, and each with the
word that the wiring gives for it.

Main results:

- Theorems `Netlist.WellWired.mem_listing_iff` and `Netlist.WellWired.nodup_names_listing`:
  both orders list the same wires, and no name twice.
- Definition `Netlist.Tabulates` relates a netlist to a report of all its wires, and
  Theorem `Netlist.Coherent.tabulates`: resolving all wires returns such a report.
-/

namespace BitwiseCircuit

namespace Netlist

variable {net : Netlist} {order : Order} {id : WireId} {name : String} {value : Word}
  {report : Report}

/-! ## Listing the wires -/

/-- Both orders list the wires with their names. -/
theorem WellWired.mem_listing_iff (h : net.WellWired) (order : Order) :
    (name, id) ∈ net.listing order ↔ net.IsNamed id name := by
  cases order with
  | byName =>
      rw [listing, Std.TreeMap.mem_toList_iff_getElem?_eq_some]
      exact h.find?_iff name id
  | byMention =>
      simp only [listing, List.mem_map, Prod.exists, Prod.mk.injEq, List.mk_mem_zipIdx_iff_getElem?,
        Array.getElem?_toList]
      constructor
      · rintro ⟨wire, _, hwire, hname, rfl⟩
        exact ⟨wire, hwire, hname⟩
      · rintro ⟨wire, hwire, hname⟩
        exact ⟨wire, id, hwire, hname, rfl⟩

/-- No order lists a wire twice. -/
theorem nodup_listing (net : Netlist) (order : Order) : (net.listing order).Nodup := by
  cases order with
  | byName =>
      have hkeys : ((net.listing .byName).map Prod.fst).Nodup := by
        rw [listing, Std.TreeMap.map_fst_toList_eq_keys]
        exact Std.TreeMap.nodup_keys
      exact hkeys.of_map
  | byMention =>
      have hnumbers : ((net.listing .byMention).map Prod.snd).Nodup := by
        have hrange : (net.listing .byMention).map Prod.snd =
            List.range' 0 net.wires.toList.length := by
          rw [listing, List.map_map, ← List.zipIdx_map_snd 0 net.wires.toList]
          rfl
        rw [hrange]
        exact List.nodup_range'
      exact hnumbers.of_map

/-- No order lists a name twice. -/
theorem WellWired.nodup_names_listing (h : net.WellWired) (order : Order) :
    ((net.listing order).map Prod.fst).Nodup := by
  refine (net.nodup_listing order).map_on ?_
  rintro ⟨name, x⟩ hx ⟨name', y⟩ hy (rfl : name = name')
  rw [h.mem_listing_iff] at hx hy
  rw [h.eq_of_isNamed hx hy]

/-! ## Resolving all wires -/

/-- The report has each wire of the netlist once, with the word that the wiring gives. -/
structure Tabulates (net : Netlist) (report : Report) : Prop where
  nodup : (report.map Prod.fst).Nodup
  mem_iff : ∀ name value, (name, value) ∈ report ↔
    ∃ id, net.IsNamed id name ∧ net.Denotes id value
  exists_mem : ∀ id name, net.IsNamed id name → ∃ value, (name, value) ∈ report

/-- The names in a report of all wires are the names of the wires. -/
theorem Tabulates.mem_names_iff (h : net.Tabulates report) (name : String) :
    name ∈ report.map Prod.fst ↔ ∃ id, net.IsNamed id name := by
  constructor
  · intro hname
    rcases List.mem_map.mp hname with ⟨⟨_, value⟩, hmem, rfl⟩
    rcases (h.mem_iff _ value).mp hmem with ⟨id, hnamed, _⟩
    exact ⟨id, hnamed⟩
  · rintro ⟨id, hnamed⟩
    rcases h.exists_mem id name hnamed with ⟨value, hmem⟩
    exact List.mem_map_of_mem hmem

/-- When all wires are resolved, each listed wire has its entry in the report. -/
theorem Coherent.forall₂_of_resolveAll (h : net.Coherent)
    (hok : ((resolveAll order).on net).1 = .ok report) :
    List.Forall₂ (fun wire entry => wire.1 = entry.1 ∧ net.Denotes wire.2 entry.2)
      (net.listing order) report := by
  simp only [resolveAll, Resolution.on_bind, Resolution.on_get] at hok
  refine Resolution.forall₂_of_on_mapM (P := fun now => net.Grows now ∧ now.Coherent)
    ?_ ?_ ⟨.refl net, h⟩ hok
  · rintro ⟨name, id⟩ now ⟨hgrows, hnow⟩
    rw [on_labelled]
    exact ⟨hgrows.trans (hnow.after_resolveId id).1, (hnow.after_resolveId id).2⟩
  · rintro ⟨name, id⟩ hmem now entry ⟨hgrows, hnow⟩ hentry
    rw [on_labelled] at hentry
    have hlt : id < now.size := by
      rw [← hgrows.wiring.size_eq]
      exact ((h.mem_listing_iff order).mp hmem).lt_size
    have houtcome := (hnow.search_outcome hlt).2.1
    rw [on_resolveId] at hentry
    cases hsearch : (now.search id).1 with
    | error fault =>
        rw [hsearch] at hentry
        cases hentry
    | ok value =>
        rw [hsearch] at hentry
        cases hentry
        exact ⟨rfl, hgrows.wiring.denotes_iff.mpr (houtcome value hsearch)⟩

/-- Resolving all wires, if it succeeds, reports each wire once, with the word that the
wiring gives. -/
theorem Coherent.tabulates (h : net.Coherent)
    (hok : ((resolveAll order).on net).1 = .ok report) : net.Tabulates report := by
  have hentries := h.forall₂_of_resolveAll hok
  have hexists : ∀ id name, net.IsNamed id name →
      ∃ value, (name, value) ∈ report ∧ net.Denotes id value := by
    intro id name hnamed
    rcases exists_of_forall₂ hentries.flip ((h.mem_listing_iff order).mpr hnamed) with
      ⟨⟨_, value⟩, hmem, rfl, hdenotes⟩
    exact ⟨value, hmem, hdenotes⟩
  constructor
  · have hnames : (net.listing order).map Prod.fst = report.map Prod.fst := by
      rw [← List.forall₂_eq_eq_eq, List.forall₂_map_left_iff, List.forall₂_map_right_iff]
      exact hentries.imp fun _ _ hentry => hentry.1
    rw [← hnames]
    exact h.nodup_names_listing order
  · intro name value
    constructor
    · intro hmem
      rcases exists_of_forall₂ hentries hmem with ⟨⟨_, id⟩, hlisted, rfl, hdenotes⟩
      exact ⟨id, (h.mem_listing_iff order).mp hlisted, hdenotes⟩
    · rintro ⟨id, hnamed, hdenotes⟩
      rcases hexists id name hnamed with ⟨value', hmem, hdenotes'⟩
      rwa [hdenotes.unique hdenotes']
  · intro id name hnamed
    rcases hexists id name hnamed with ⟨value, hmem, _⟩
    exact ⟨value, hmem⟩

end Netlist

end BitwiseCircuit
