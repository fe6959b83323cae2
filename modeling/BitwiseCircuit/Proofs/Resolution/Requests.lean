import BitwiseCircuit.Proofs.Resolution.Laziness
import BitwiseCircuit.Proofs.Resolution.Pointwise

/-!
# What a report computes

A report resolves its wires one after another.  Together they compute what any of them depends
on, each wire once, in whatever order they are listed and however often.

Main results:

- Theorem `Resolution.holds_of_on_mapM_eq_ok`: what every one of several resolutions keeps, about
  those done so far and the netlist, holds of all of them in the end.
- Definition `Netlist.closureOf` is the set of the wires that some names depend on, and Theorem
  `Netlist.Coherent.settled_of_resolveWires`: these are the wires whose words a report adds.
-/

namespace BitwiseCircuit

namespace Resolution

variable {α β : Type} {f : α → Resolution β} {as : List α} {bs : List β} {net : Netlist}

/-- A property of the elements done so far and the netlist, kept by every resolution that
succeeds, holds at the end of several resolutions that succeed. -/
theorem holds_of_on_mapM_eq_ok {P : List α → Netlist → Prop}
    (hstep : ∀ done a net b, P done net → ((f a).on net).1 = .ok b →
      P (done ++ [a]) ((f a).on net).2)
    (hstart : P [] net) (hok : ((as.mapM f).on net).1 = .ok bs) : P as ((as.mapM f).on net).2 := by
  suffices hall : ∀ (rest done : List α) (net : Netlist) (bs : List β), P done net →
      ((rest.mapM f).on net).1 = .ok bs → P (done ++ rest) ((rest.mapM f).on net).2 from
    hall as [] net bs hstart hok
  intro rest
  induction rest with
  | nil =>
      intro done net bs hdone _
      rwa [List.append_nil]
  | cons a rest ih =>
      intro done net bs hdone hok
      have hnext := hstep done a net
      rw [List.mapM_cons, on_bind] at hok ⊢
      rcases hfa : (f a).on net with ⟨result, mid⟩
      rw [hfa] at hok hnext
      cases result with
      | error fault => cases hok
      | ok b =>
          have hrest := ih (done ++ [a]) mid
          simp only [on_bind] at hok ⊢
          rcases hfas : (rest.mapM f).on mid with ⟨result, net'⟩
          rw [hfas] at hok hrest
          cases result with
          | error fault => cases hok
          | ok others =>
              rw [List.append_cons]
              exact hrest others (hnext b hdone rfl) rfl

/-- The first of several resolutions that fails is the last one, and the netlist stays as that
one leaves it. -/
theorem on_mapM_of_error {before : List α} {a : α} {fault : WireFault}
    (hbefore : ((before.mapM f).on net).1 = .ok bs)
    (ha : ((f a).on ((before.mapM f).on net).2).1 = .error fault) (after : List α) :
    ((before ++ a :: after).mapM f).on net =
      (.error fault, ((f a).on ((before.mapM f).on net).2).2) := by
  rw [List.mapM_append, on_bind]
  rcases hmid : (before.mapM f).on net with ⟨result, mid⟩
  rw [hmid] at hbefore ha
  cases hbefore
  simp only [List.mapM_cons, on_bind]
  rcases hfa : (f a).on mid with ⟨result, net'⟩
  rw [hfa] at ha
  cases ha
  rfl

end Resolution

namespace Netlist

variable {net net' : Netlist} {id x : WireId} {name : String} {names : List String}
  {order : Order} {report : Report}

/-! ## Reports by name -/

/-- A report that succeeds lists the names that it is about. -/
theorem Coherent.names_of_report (h : net.Coherent)
    (hok : ((Netlist.report names order).on net).1 = .ok report) :
    report.map Prod.fst = net.requested names order := by
  rw [h.report_eq, mapM_eq_ok_iff] at hok
  rw [← List.forall₂_eq_eq_eq, List.forall₂_map_left_iff]
  exact hok.flip.imp fun pair name hpair => (entry_eq_ok_iff.mp hpair).1

/-- A report that succeeds is about wires of the netlist. -/
theorem Coherent.isNamed_of_mem_report (h : net.Coherent)
    (hok : ((Netlist.report names order).on net).1 = .ok report) :
    ∀ entry ∈ report, ∃ id, net.IsNamed id entry.1 := by
  intro entry hmem
  rw [h.report_eq, mapM_eq_ok_iff] at hok
  rcases exists_of_forall₂ hok hmem with ⟨name, -, hentry⟩
  rcases entry_eq_ok_iff.mp hentry with ⟨rfl, hresolved⟩
  rcases resolve_eq_ok_iff.mp hresolved with ⟨id, hfind, -⟩
  exact ⟨id, (h.find?_iff entry.1 id).mp hfind⟩

/-! ## What some names depend on -/

open Classical in
/-- The wires that the wires with the given names depend on, themselves included. -/
noncomputable def closureOf (net : Netlist) (names : List String) : Finset WireId :=
  {x ∈ Finset.range net.size | ∃ name ∈ names, ∃ id, net.find? name = some id ∧ net.Needs id x}

/-- The closure of names has the wires that one of them needs. -/
theorem WellWired.mem_closureOf (h : net.WellWired) :
    x ∈ net.closureOf names ↔
      ∃ name ∈ names, ∃ id, net.find? name = some id ∧ net.Needs id x := by
  simp only [closureOf, Finset.mem_filter, Finset.mem_range, and_iff_right_iff_imp]
  rintro ⟨name, -, id, hfind, hneeds⟩
  exact h.lt_size_of_needs (h.lt_size_of_find? hfind) hneeds

/-- The wires that a further name depends on are those that its wire depends on. -/
theorem WellWired.closureOf_concat (h : net.WellWired) (hfind : net.find? name = some id)
    (names : List String) :
    net.closureOf (names ++ [name]) = net.closureOf names ∪ net.closure id := by
  have hlt : id < net.size := h.lt_size_of_find? hfind
  ext x
  rw [Finset.mem_union, h.mem_closureOf, h.mem_closureOf, h.mem_closure hlt]
  simp [or_and_right, exists_or, hfind]

/-- More names depend on more wires. -/
theorem closureOf_mono {others : List String} (h : ∀ name ∈ names, name ∈ others) :
    net.closureOf names ⊆ net.closureOf others := by
  intro x
  simp only [closureOf, Finset.mem_filter]
  rintro ⟨hlt, name, hname, hneeds⟩
  exact ⟨hlt, name, h name hname, hneeds⟩

/-- The closure of a wire does not depend on the words computed so far. -/
theorem SameWiring.closure_eq (h : net.SameWiring net') (id : WireId) :
    net'.closure id = net.closure id := by
  ext x
  simp only [closure, Finset.mem_filter, Finset.mem_range]
  rw [Needs, Needs, h.size_eq, h.reads_eq]

/-! ## Words that a report adds -/

/-- Names that all resolve add the words of the wires that they depend on, and of no others. -/
theorem Coherent.settled_of_resolveWires (h : net.Coherent)
    (hok : ((resolveWires names).on net).1 = .ok report) :
    ((resolveWires names).on net).2.settled = net.settled ∪ net.closureOf names := by
  refine (Resolution.holds_of_on_mapM_eq_ok (P := fun done now => net.Grows now ∧ now.Coherent ∧
    now.settled = net.settled ∪ net.closureOf done) ?_ ⟨.refl net, h, ?_⟩ hok).2.2
  · rintro done name now entry ⟨hgrows, hnow, hsettled⟩ hentry
    rw [on_labelled] at hentry ⊢
    rcases exists_of_map_eq_ok hentry with ⟨value, hresolved, -⟩
    rcases resolve_eq_ok_iff.mp hresolved with ⟨id, hfind, hresult⟩
    have hafter := hnow.after_resolve name
    refine ⟨hgrows.trans hafter.1, hafter.2, ?_⟩
    have hmemoises := hnow.memoises (hnow.lt_size_of_find? hfind)
    have hfind' : net.find? name = some id := by rwa [hgrows.wiring.find?_eq]
    rw [on_resolve_of_find?_eq_some hfind, hmemoises.settled_of_ok value hresult, hsettled,
      hgrows.wiring.closure_eq, h.closureOf_concat hfind', Finset.union_assoc]
  · ext x
    simp [h.mem_closureOf]

/-- On a netlist without words, a report that succeeds counts the wires that its names depend
on. -/
theorem Coherent.evaluations_of_report (h : net.Coherent) (hvalue : ∀ id, net.value? id = none)
    (hok : ((Netlist.report names order).on net).1 = .ok report) :
    ((Netlist.report names order).on net).2.evaluations =
      (net.closureOf (report.map Prod.fst)).card := by
  have hnone : net.settled = ∅ := by
    ext x
    simp [hvalue]
  rw [h.names_of_report hok, h.on_report_eq]
  rw [h.on_report_eq] at hok
  rw [(h.after_resolveWires _).2.evaluations_eq, h.settled_of_resolveWires hok, hnone,
    Finset.empty_union]

end Netlist

end BitwiseCircuit
