import BitwiseCircuit.Proofs.Netlist.Mentions
import BitwiseCircuit.Proofs.Resolution.Consistency
import BitwiseCircuit.Proofs.Resolution.Laziness
import BitwiseCircuit.Proofs.Resolution.Pointwise

/-!
# All wires, by name or by mention

A report of all wires goes through the table in one of two orders, and the words that it finds or
computes on the way make no difference to what it returns: each wire has the word that it has by
itself, and if there are wires that cannot be resolved, the first of them in the order decides.

Main results:

- Definition `Netlist.Arranges` describes the lists of all names in one of the two orders.
- Theorem `Netlist.Coherent.mentions_serveAll`: looking up names goes on with the list of first
  mentions, and no other call changes it.
- Theorem `Netlist.Reachable.resolveAll_collects`: what resolving all wires returns.
-/

namespace BitwiseCircuit

namespace Netlist

variable {net : Netlist} {names : List String} {order : Order} {report report' : Report}
  {done : List Mention}

/-! ## The two orders -/

/-- The list has the name of every wire once: ascending, or as the wires are first mentioned. -/
structure Arranges (net : Netlist) (order : Order) (names : List String) : Prop where
  perm : names.Perm (net.mentions.map (·.name))
  nodup : names.Nodup
  ascending : order = .byName → names.Pairwise (· < ·)
  mentioned : order = .byMention → names = net.mentions.map (·.name)

/-- By mention, the names are listed in the order of the mentions. -/
theorem names_listing_byMention (net : Netlist) :
    (net.listing .byMention).map Prod.fst = net.mentions.map (·.name) := by
  calc
    (net.listing .byMention).map Prod.fst = net.wires.toList.zipIdx.map (·.1.name) := by
      rw [listing, List.map_map]
      rfl
    _ = (net.wires.toList.zipIdx.map Prod.fst).map (·.name) := by
      rw [List.map_map]
      rfl
    _ = net.mentions.map (·.name) := by
      rw [List.zipIdx_map_fst, mentions, List.map_map]
      rfl

private theorem WellWired.arranges_listing (h : net.WellWired) (order : Order) :
    net.Arranges order ((net.listing order).map Prod.fst) where
  perm := by
    rw [← names_listing_byMention,
      List.perm_ext_iff_of_nodup (h.nodup_names_listing _) (h.nodup_names_listing _)]
    intro name
    rw [h.mem_names_listing_iff, h.mem_names_listing_iff]
  nodup := h.nodup_names_listing order
  ascending := by
    rintro rfl
    exact net.pairwise_names_listing_byName
  mentioned := by
    rintro rfl
    exact net.names_listing_byMention

/-- The order of the names has nothing to do with words. -/
theorem Arranges.fresh (h : net.Arranges order names) : net.fresh.Arranges order names where
  perm := by
    rw [mentions_fresh]
    exact h.perm
  nodup := h.nodup
  ascending := h.ascending
  mentioned := by
    rw [mentions_fresh]
    exact h.mentioned

/-- Names arranged so are those of all wires. -/
theorem Arranges.mem_iff (h : net.Arranges order names) (hwired : net.WellWired) (name : String) :
    name ∈ names ↔ (net.find? name).isSome := by
  rw [h.perm.mem_iff, ← names_listing_byMention, hwired.mem_names_listing_iff]

/-- All names resolve if all numbers do. -/
theorem Arranges.forall_resolve_iff (h : net.Arranges order names) (hwired : net.WellWired) :
    (∀ name ∈ names, ∃ value, ((resolve name).on net).1 = .ok value) ↔
      ∀ id < net.size, ∃ value, ((resolveId id).on net).1 = .ok value := by
  constructor
  · intro hnames id hlt
    have hfind := (hwired.find?_iff _ id).mpr (isNamed_nameOf hlt)
    have hmem := (h.mem_iff hwired (net.nameOf id)).mpr (by rw [hfind, Option.isSome_some])
    have hresolves := hnames _ hmem
    rwa [on_resolve_of_find?_eq_some hfind] at hresolves
  · intro hids name hname
    rcases Option.isSome_iff_exists.mp ((h.mem_iff hwired name).mp hname) with ⟨id, hfind⟩
    rw [on_resolve_of_find?_eq_some hfind]
    exact hids id (hwired.lt_size_of_find? hfind)

/-! ## Mentions in calls -/

/-- The mention that a call looks up. -/
def Call.mentions : Call → List Mention
  | .intern name position => [⟨name, position⟩]
  | .resolve _ | .resolveId _ | .resolveAll _ | .resolveWires _ => []

/-- A call adds a wire only for a name that it looks up, and that is new. -/
theorem Coherent.mentions_serve (h : net.Coherent) (hdone : net.mentions = Mention.firsts done)
    (call : Call) : (net.serve call).mentions = Mention.firsts (done ++ call.mentions) := by
  cases call with
  | intern name position =>
      have hadded : (net.internAll [⟨name, position⟩]).mentions = _ := h.mentions_internAll hdone
      exact hadded
  | _ =>
      rw [Call.mentions, List.append_nil, ← hdone]
      exact ((h.intern_or_grows _).resolve_left (by simp)).wiring.mentions_eq.symm

/-- Calls go on with the list of first mentions. -/
theorem Coherent.mentions_serveAll (h : net.Coherent) (hdone : net.mentions = Mention.firsts done)
    (calls : List Call) :
    (net.serveAll calls).mentions = Mention.firsts (done ++ calls.flatMap Call.mentions) := by
  induction calls generalizing net done with
  | nil => rw [serveAll_nil, List.flatMap_nil, List.append_nil, hdone]
  | cons call calls ih =>
      rw [serveAll_cons, List.flatMap_cons, ← List.append_assoc]
      exact ih (h.serve call) (h.mentions_serve hdone call)

/-! ## Reports of all wires -/

/-- Two reports of all wires have the same entries. -/
theorem Tabulates.perm (h : net.Tabulates report) (h' : net.Tabulates report') :
    report.Perm report' := by
  rw [List.perm_ext_iff_of_nodup h.nodup.of_map h'.nodup.of_map]
  rintro ⟨name, value⟩
  rw [h.mem_iff, h'.mem_iff]

/-- Resolving all wires of a reachable netlist returns what the names of the wires, ascending or
in the order of their first mentions, resolve to by themselves on the netlist without words.  It
succeeds exactly if every wire does, and then both orders return the same entries.  First
mentions are those of the schematic, followed by those of the names that were looked up. -/
theorem Reachable.resolveAll_collects (h : net.Reachable) (order : Order) :
    (∃ names, net.Arranges order names ∧
        net.fresh.Collects names ((resolveAll order).on net).1) ∧
      ((∃ report, ((resolveAll order).on net).1 = .ok report) ↔
        ∀ id < net.size, ∃ value, ((resolveId id).on net.fresh).1 = .ok value) ∧
      (∀ order' report report', ((resolveAll order).on net).1 = .ok report →
        ((resolveAll order').on net).1 = .ok report' → report.Perm report') ∧
      ∀ schematic built calls, ofSchematic schematic = .ok built → built.serveAll calls = net →
        net.mentions = Mention.firsts (schematic.mentions ++ calls.flatMap Call.mentions) := by
  have hcoherent := h.coherent
  have harranges := hcoherent.arranges_listing order
  have hresult : ((resolveAll order).on net).1 =
      ((net.listing order).map Prod.fst).mapM net.fresh.entry := by
    rw [hcoherent.entry_fresh, hcoherent.resolveAll_eq]
  refine ⟨⟨_, harranges, ?_⟩, ?_, ?_, ?_⟩
  · rw [hresult]
    exact collects_mapM_entry _ _
  · rw [hresult, exists_mapM_eq_ok_iff]
    simp only [exists_entry_eq_ok_iff]
    rw [harranges.fresh.forall_resolve_iff hcoherent.coherent_fresh.toWellWired, size_fresh]
  · intro order' report report' hok hok'
    exact (hcoherent.tabulates hok).perm (hcoherent.tabulates hok')
  · rintro schematic built calls hbuilt rfl
    exact (Reachable.built hbuilt).coherent.mentions_serveAll (mentions_ofSchematic hbuilt) calls

/-- In `tangled`, `w` is the first wire by name, and its cycle is what is reported; in `diamondNet`
the wires are reported with the same words in both orders, after `l` has been resolved. -/
theorem tangled_resolveAll_collects :
    tangled.Reachable ∧
      (∃ before name after, tangled.Arranges .byName (before ++ name :: after) ∧
        ((resolve name).on tangled.fresh).1 = .error (.cyclic "w" ["w", "x", "w"] ⟨2, 10⟩)) ∧
      ∃ net, net = diamondNet.serve (.resolve "l") ∧ net.Reachable ∧
        (∀ id < net.size, ∃ value, ((resolveId id).on net.fresh).1 = .ok value) ∧
        [("c", (1 : Word)), ("l", 1), ("r", 1), ("w", 1)].Perm
          [("w", 1), ("l", 1), ("r", 1), ("c", 1)] := by
  have hbuilt : ofSchematic diamond = .ok diamondNet := rfl
  have hreachable : (diamondNet.serve (.resolve "l")).Reachable := .served (.built hbuilt) _
  have herror : ((resolveAll .byName).on tangled).1 =
      .error (.cyclic "w" ["w", "x", "w"] ⟨2, 10⟩) := by decide +kernel
  have hbyName : ((resolveAll .byName).on (diamondNet.serve (.resolve "l"))).1 =
      .ok [("c", 1), ("l", 1), ("r", 1), ("w", 1)] := by decide +kernel
  have hbyMention : ((resolveAll .byMention).on (diamondNet.serve (.resolve "l"))).1 =
      .ok [("w", 1), ("l", 1), ("r", 1), ("c", 1)] := by decide +kernel
  rcases (reachable_tangled.resolveAll_collects .byName).1 with ⟨names, harranges, hcollects⟩
  rcases (hcollects.error_iff _).mp herror with ⟨before, name, after, rfl, -, hname⟩
  have hall := (hreachable.resolveAll_collects .byName).2
  exact ⟨reachable_tangled, ⟨before, name, after, harranges, hname⟩, _, rfl, hreachable,
    hall.1.mp ⟨_, hbyName⟩, hall.2.1 .byMention _ _ hbyName hbyMention⟩

end Netlist

end BitwiseCircuit
