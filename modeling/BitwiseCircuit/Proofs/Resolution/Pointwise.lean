import Mathlib.Data.String.Basic
import BitwiseCircuit.Proofs.Resolution.Report

/-!
# Reports wire by wire

The wires of a report are resolved one after another on one netlist, and each resolution
leaves words behind for the next ones.  What is reported is nevertheless what each wire
resolves to by itself, and the first wire that fails by itself fails the report.

Main results:

- Theorem `Resolution.on_mapM_fst`: resolutions that do not change what the others return
  return together what each returns by itself.
- Theorem `Netlist.Coherent.on_report_eq`: a report of all wires is the report of their names.
- Theorem `Netlist.Coherent.report_eq`: a report is made wire by wire.
- Definition `Netlist.Collects` says what names resolve to if each of them is resolved by itself.
- Theorem `Netlist.WellWired.names_listing_byName_eq`: the wires are listed by name in the same
  order whatever their numbers are.
-/

namespace BitwiseCircuit

namespace Resolution

variable {α β : Type} {P : Netlist → Prop} {f : α → Resolution β} {as : List α} {net : Netlist}

/-- Where no resolution changes what the others return, they return together what each of
them returns by itself. -/
theorem on_mapM_fst {g : α → Except WireFault β} (hkeeps : ∀ a net, P net → P ((f a).on net).2)
    (hresult : ∀ a ∈ as, ∀ net, P net → ((f a).on net).1 = g a) (h : P net) :
    ((as.mapM f).on net).1 = as.mapM g := by
  induction as generalizing net with
  | nil => rfl
  | cons a as ih =>
      have hafter := hkeeps a net h
      have hrest := @ih ((f a).on net).2 (fun b hb => hresult b (List.mem_cons_of_mem a hb)) hafter
      rw [List.mapM_cons, List.mapM_cons, on_bind, ← hresult a List.mem_cons_self net h]
      rcases hfa : (f a).on net with ⟨result, mid⟩
      rw [hfa] at hrest
      cases result with
      | error fault => rfl
      | ok b =>
          rw [← hrest]
          simp only [on_bind]
          rcases (as.mapM f).on mid with ⟨others, net'⟩
          cases others <;> rfl

/-- Resolutions that do the same one by one do the same together. -/
theorem on_mapM_congr {g : α → Resolution β} (hkeeps : ∀ a net, P net → P ((f a).on net).2)
    (hsame : ∀ a ∈ as, ∀ net, P net → (f a).on net = (g a).on net) (h : P net) :
    (as.mapM f).on net = (as.mapM g).on net := by
  induction as generalizing net with
  | nil => rfl
  | cons a as ih =>
      have hafter := hkeeps a net h
      have hrest := @ih ((f a).on net).2 (fun b hb => hsame b (List.mem_cons_of_mem a hb)) hafter
      rw [List.mapM_cons, List.mapM_cons, on_bind, on_bind, ← hsame a List.mem_cons_self net h]
      rcases hfa : (f a).on net with ⟨result, mid⟩
      rw [hfa] at hrest
      cases result with
      | error fault => rfl
      | ok b => simp only [on_bind, hrest]

end Resolution

namespace Netlist

variable {net net' : Netlist} {id : WireId} {name : String} {fault : WireFault}

/-! ## One wire after others -/

/-- A search returns the same once more words are known. -/
theorem Grows.search_eq (h : net.Grows net') (hnet : net.Coherent) (hnet' : net'.Coherent)
    (hlt : id < net.size) : (net'.search id).1 = (net.search id).1 :=
  h.wiring.embeds.search_eq hnet hnet' hlt

/-- A name resolves to the same once more words are known. -/
theorem Grows.resolve_eq (h : net.Grows net') (hnet : net.Coherent) (hnet' : net'.Coherent)
    (name : String) : ((resolve name).on net').1 = ((resolve name).on net).1 := by
  have hfind' := h.wiring.find?_eq name
  cases hfind : net.find? name with
  | none =>
      rw [hfind] at hfind'
      rw [on_resolve_of_find?_eq_none hfind, on_resolve_of_find?_eq_none hfind'.symm]
  | some id =>
      rw [hfind] at hfind'
      rw [on_resolve_of_find?_eq_some hfind, on_resolve_of_find?_eq_some hfind'.symm]
      exact h.search_eq hnet hnet' (hnet.lt_size_of_find? hfind)

/-! ## Reports -/

/-- What a name resolves to by itself, as an entry of a report. -/
def entry (net : Netlist) (name : String) : Except WireFault (String × Word) :=
  ((resolve name).on net).1.map (name, ·)

/-- The names that a report is about, in order. -/
def requested (net : Netlist) (names : List String) (order : Order) : List String :=
  if names.isEmpty then (net.listing order).map Prod.fst else names

/-- The names asked for are reported one by one. -/
theorem Coherent.resolveWires_eq (h : net.Coherent) (names : List String) :
    ((resolveWires names).on net).1 = names.mapM net.entry := by
  refine Resolution.on_mapM_fst (P := fun now => net.Grows now ∧ now.Coherent) ?_ ?_ ⟨.refl net, h⟩
  · rintro name now ⟨hgrows, hnow⟩
    rw [on_labelled]
    exact ⟨hgrows.trans (hnow.after_resolve name).1, (hnow.after_resolve name).2⟩
  · rintro name _ now ⟨hgrows, hnow⟩
    rw [on_labelled, hgrows.resolve_eq h hnow, entry]

/-- Resolving all wires is resolving the names of all wires. -/
theorem Coherent.on_resolveAll_eq (h : net.Coherent) (order : Order) :
    (resolveAll order).on net =
      (resolveWires ((net.listing order).map Prod.fst)).on net := by
  rw [resolveWires, List.mapM_map]
  simp only [resolveAll, Resolution.on_bind, Resolution.on_get]
  refine Resolution.on_mapM_congr (P := fun now => net.Grows now ∧ now.Coherent) ?_ ?_
    ⟨.refl net, h⟩
  · rintro ⟨name, id⟩ now ⟨hgrows, hnow⟩
    rw [on_labelled]
    exact ⟨hgrows.trans (hnow.after_resolveId id).1, (hnow.after_resolveId id).2⟩
  · rintro ⟨name, id⟩ hmem now ⟨hgrows, hnow⟩
    have hfind : now.find? name = some id := by
      rw [← hgrows.wiring.find?_eq, h.find?_iff]
      exact (h.mem_listing_iff order).mp hmem
    rw [Function.comp_apply, on_labelled, on_labelled, on_resolve_of_find?_eq_some hfind,
      on_resolveId]

/-- All wires are reported one by one. -/
theorem Coherent.resolveAll_eq (h : net.Coherent) (order : Order) :
    ((resolveAll order).on net).1 = ((net.listing order).map Prod.fst).mapM net.entry := by
  rw [h.on_resolveAll_eq, h.resolveWires_eq]

/-- A report is the report of the names that it is about. -/
theorem Coherent.on_report_eq (h : net.Coherent) (names : List String) (order : Order) :
    (Netlist.report names order).on net = (resolveWires (net.requested names order)).on net := by
  rw [Netlist.report, requested]
  split
  · exact h.on_resolveAll_eq order
  · rfl

/-- A report has the entry of each of its names, or the first fault among them. -/
theorem Coherent.report_eq (h : net.Coherent) (names : List String) (order : Order) :
    ((report names order).on net).1 = (net.requested names order).mapM net.entry := by
  rw [h.on_report_eq, h.resolveWires_eq]

/-! ## Reports without what is known -/

/-- A name has an entry if it resolves, and then the entry has the word. -/
theorem entry_eq_ok_iff {pair : String × Word} :
    net.entry name = .ok pair ↔ pair.1 = name ∧ ((resolve name).on net).1 = .ok pair.2 := by
  rcases pair with ⟨label, value⟩
  rw [entry]
  cases ((resolve name).on net).1 with
  | error fault => simp [Except.map]
  | ok word => simp [Except.map, eq_comm]

/-- A name has an entry exactly if it resolves. -/
theorem exists_entry_eq_ok_iff :
    (∃ pair, net.entry name = .ok pair) ↔ ∃ value, ((resolve name).on net).1 = .ok value :=
  exists_map_eq_ok_iff

/-- A name has no entry exactly if it does not resolve, for the same fault. -/
theorem entry_eq_error_iff :
    net.entry name = .error fault ↔ ((resolve name).on net).1 = .error fault := by
  rw [entry]
  cases ((resolve name).on net).1 <;> simp [Except.map]

/-- Where some names are not all reported, one of them does not resolve. -/
theorem exists_of_mapM_entry_eq_error {names : List String}
    (h : names.mapM net.entry = .error fault) :
    ∃ name ∈ names, ((resolve name).on net).1 = .error fault := by
  rcases mapM_eq_error_iff.mp h with ⟨before, name, after, rfl, -, hentry⟩
  exact ⟨name, by simp, entry_eq_error_iff.mp hentry⟩

/-- Words that are known make no difference to an entry. -/
theorem Coherent.entry_fresh (h : net.Coherent) : net.fresh.entry = net.entry := by
  funext name
  rw [entry, entry, (grows_fresh net).resolve_eq h.coherent_fresh h name]

/-- The result is what the names resolve to on the netlist, each of them by itself: all names
with their words, as they are listed, or the fault of the first name that fails. -/
structure Collects (net : Netlist) (names : List String) (result : Except WireFault Report) :
    Prop where
  ok_iff : ∀ report, result = .ok report ↔ List.Forall₂
    (fun name pair => pair.1 = name ∧ ((resolve name).on net).1 = .ok pair.2) names report
  error_iff : ∀ fault, result = .error fault ↔ ∃ before name after,
    names = before ++ name :: after ∧
      (∀ other ∈ before, ∃ value, ((resolve other).on net).1 = .ok value) ∧
      ((resolve name).on net).1 = .error fault

/-- The entries of names say what each name resolves to by itself. -/
theorem collects_mapM_entry (net : Netlist) (names : List String) :
    net.Collects names (names.mapM net.entry) where
  ok_iff report := by simp only [mapM_eq_ok_iff, entry_eq_ok_iff]
  error_iff fault := by
    simp only [mapM_eq_error_iff, exists_entry_eq_ok_iff, entry_eq_error_iff]

/-! ## The order of names -/

/-- The names in a list of all wires are the known ones. -/
theorem WellWired.mem_names_listing_iff (h : net.WellWired) (order : Order) :
    name ∈ (net.listing order).map Prod.fst ↔ (net.find? name).isSome := by
  simp [h.mem_listing_iff, Option.isSome_iff_exists, h.find?_iff]

/-- Listed by name, the names ascend. -/
theorem pairwise_names_listing_byName (net : Netlist) :
    ((net.listing .byName).map Prod.fst).Pairwise (· < ·) := by
  rw [listing, Std.TreeMap.map_fst_toList_eq_keys]
  exact Std.TreeMap.ordered_keys.imp compare_lt_iff_lt.mp

/-- Netlists with wires of the same names list these names in the same order when they list
them by name. -/
theorem WellWired.names_listing_byName_eq (h : net.WellWired) (h' : net'.WellWired)
    (hnames : ∀ name, (net.find? name).isSome ↔ (net'.find? name).isSome) :
    (net.listing .byName).map Prod.fst = (net'.listing .byName).map Prod.fst := by
  have hperm : ((net.listing .byName).map Prod.fst).Perm ((net'.listing .byName).map Prod.fst) := by
    rw [List.perm_ext_iff_of_nodup (h.nodup_names_listing _) (h'.nodup_names_listing _)]
    intro name
    rw [h.mem_names_listing_iff, h'.mem_names_listing_iff, hnames]
  refine hperm.eq_of_pairwise (fun a b _ _ hab hba => ?_) net.pairwise_names_listing_byName
    net'.pairwise_names_listing_byName
  exact absurd hba (lt_asymm hab)

end Netlist

end BitwiseCircuit
