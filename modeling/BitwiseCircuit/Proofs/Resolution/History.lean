import BitwiseCircuit.Netlist.Resolve
import BitwiseCircuit.Proofs.Search.FirstFault

/-!
# Netlists with a history

A netlist that was built for a schematic is used again and again: wires are
resolved on it one by one or all together, and names are looked up that may be
new.  Every call starts from what the earlier ones left, also from what a call
left that failed.

Main results:

- Definition `Netlist.Reachable` holds of the netlists that such calls lead to.
- Theorems `Netlist.resolve_eq_ok_iff` and `Netlist.resolve_eq_error_iff`: a name resolves as
  its wire does.
- Theorem `Netlist.Coherent.resolves`: what resolving one wire returns and leaves,
  on any coherent netlist.
- Theorem `Netlist.Reachable.coherent`: every reachable netlist is coherent.
-/

namespace BitwiseCircuit

/-! ## Resolutions -/

namespace Resolution

variable {α β : Type} {net : Netlist}

@[simp]
theorem on_pure (net : Netlist) (a : α) : (pure a : Resolution α).on net = (.ok a, net) :=
  rfl

@[simp]
theorem on_throw (net : Netlist) (fault : WireFault) :
    (throw fault : Resolution α).on net = (.error fault, net) :=
  rfl

@[simp]
theorem on_get (net : Netlist) : (get : Resolution Netlist).on net = (.ok net, net) :=
  rfl

@[simp]
theorem on_bind (net : Netlist) (first : Resolution α) (next : α → Resolution β) :
    (first >>= next).on net =
      match first.on net with
      | (.ok a, net') => (next a).on net'
      | (.error fault, net') => (.error fault, net') := by
  rcases hfirst : first.on net with ⟨result, net'⟩
  have hrun : (ExceptT.run first).run net = (result, net') := hfirst
  simp only [on, ExceptT.run_bind, StateT.run_bind, hrun]
  cases result <;> rfl

/-- What each of several resolutions keeps, all of them together keep. -/
theorem on_mapM_keeps {P : Netlist → Prop} {f : α → Resolution β}
    (hkeeps : ∀ a net, P net → P ((f a).on net).2) (as : List α) (h : P net) :
    P ((as.mapM f).on net).2 := by
  induction as generalizing net with
  | nil => exact h
  | cons a as ih =>
      have hfirst := hkeeps a net h
      rw [List.mapM_cons, on_bind]
      rcases hfa : (f a).on net with ⟨result, mid⟩
      rw [hfa] at hfirst
      cases result with
      | error fault => exact hfirst
      | ok b =>
          have hrest := ih hfirst
          simp only [on_bind]
          rcases hfas : (as.mapM f).on mid with ⟨result, net'⟩
          rw [hfas] at hrest
          cases result <;> exact hrest

/-- When several resolutions succeed, each result fits the element that it is for. -/
theorem forall₂_of_on_mapM {P : Netlist → Prop} {R : α → β → Prop} {f : α → Resolution β}
    {as : List α} {bs : List β} (hkeeps : ∀ a net, P net → P ((f a).on net).2)
    (hfits : ∀ a ∈ as, ∀ net b, P net → ((f a).on net).1 = .ok b → R a b) (h : P net)
    (hok : ((as.mapM f).on net).1 = .ok bs) : List.Forall₂ R as bs := by
  induction as generalizing net bs with
  | nil =>
      cases hok
      exact .nil
  | cons a as ih =>
      have hfirst := hkeeps a net h
      have hfirstFits := hfits a List.mem_cons_self net
      rw [List.mapM_cons, on_bind] at hok
      rcases hfa : (f a).on net with ⟨result, mid⟩
      rw [hfa] at hok hfirst hfirstFits
      cases result with
      | error fault => cases hok
      | ok b =>
          have hrest := fun others => @ih mid others
            (fun a' ha' => hfits a' (List.mem_cons_of_mem a ha')) hfirst
          simp only [on_bind] at hok
          rcases hfas : (as.mapM f).on mid with ⟨result, net'⟩
          rw [hfas] at hok hrest
          cases result with
          | error fault => cases hok
          | ok others =>
              cases hok
              exact .cons (hfirstFits b h rfl) (hrest others rfl)

end Resolution

namespace Netlist

variable {net net' : Netlist} {id : WireId} {name : String} {fault : WireFault} {value : Word}

/-! ## Resolving one wire -/

@[simp]
theorem on_resolveId (net : Netlist) (id : WireId) : (resolveId id).on net = net.search id :=
  rfl

/-- To resolve a known name is to search for its wire. -/
theorem on_resolve_of_find?_eq_some (h : net.find? name = some id) :
    (resolve name).on net = net.search id := by
  simp [resolve, h]

/-- To resolve an unknown name fails and leaves the netlist as it is. -/
theorem on_resolve_of_find?_eq_none (h : net.find? name = none) :
    (resolve name).on net = (.error (.undefined name none), net) := by
  simp [resolve, h]

/-- A name resolves if it is known and the search for its wire succeeds. -/
theorem resolve_eq_ok_iff : ((resolve name).on net).1 = .ok value ↔
    ∃ id, net.find? name = some id ∧ (net.search id).1 = .ok value := by
  cases hfind : net.find? name with
  | none => simp [on_resolve_of_find?_eq_none hfind]
  | some id => simp [on_resolve_of_find?_eq_some hfind]

/-- A name does not resolve if it is unknown or the search for its wire fails. -/
theorem resolve_eq_error_iff : ((resolve name).on net).1 = .error fault ↔
    net.find? name = none ∧ fault = .undefined name none ∨
      ∃ id, net.find? name = some id ∧ (net.search id).1 = .error fault := by
  cases hfind : net.find? name with
  | none => simp [on_resolve_of_find?_eq_none hfind, eq_comm]
  | some id => simp [on_resolve_of_find?_eq_some hfind]

/-- Resolving a wire of a coherent netlist returns the word that the wiring gives for
it or a fault that the wiring below it has, and only adds words. -/
theorem Coherent.resolves (h : net.Coherent) (hlt : id < net.size) :
    ((∃ value, ((resolveId id).on net).1 = .ok value ∧ net.Denotes id value) ∨
        ∃ fault, ((resolveId id).on net).1 = .error fault ∧ net.Obstructs [] id fault) ∧
      net.Grows ((resolveId id).on net).2 ∧ ((resolveId id).on net).2.Coherent := by
  have hyields := h.yields hlt
  have hafter : net.Grows (net.search id).2 ∧ (net.search id).2.Coherent := by
    rcases h.search_cases hlt with ⟨_, net', hvisits, _, hsearch⟩ | ⟨_, net', hvisits, hsearch⟩
    all_goals
      have hvisited := hvisits.visited (h.visitable hlt)
      rw [hsearch]
      exact ⟨hvisited.grows, hvisited.coherent⟩
  refine ⟨?_, hafter⟩
  rw [on_resolveId]
  generalize (net.search id).1 = result at hyields ⊢
  cases hyields with
  | word hdenotes => exact .inl ⟨_, rfl, hdenotes⟩
  | fault hfirst => exact .inr ⟨_, rfl, hfirst.obstructs (List.nodup_singleton id) (.singleton id)⟩

/-- The search for a number that names no wire fails and changes nothing. -/
theorem search_of_not_lt (h : ¬ id < net.size) :
    net.search id = (.error (.undefined "" none), net) := by
  have hwire : net.wire? id = none := wire?_eq_none h
  have hrun : (Search.start net id).run net.turnBound = (none, net) := by
    simp [turnBound, Search.run, Search.start, Search.turn, hwire]
  simp [search, hrun, value?, hwire]

/-- Resolving a number keeps a netlist coherent, and only adds words. -/
theorem Coherent.after_resolveId (h : net.Coherent) (id : WireId) :
    net.Grows ((resolveId id).on net).2 ∧ ((resolveId id).on net).2.Coherent := by
  by_cases hlt : id < net.size
  · exact (h.resolves hlt).2
  · rw [on_resolveId, search_of_not_lt hlt]
    exact ⟨.refl net, h⟩

/-- Resolving a name keeps a netlist coherent, and only adds words. -/
theorem Coherent.after_resolve (h : net.Coherent) (name : String) :
    net.Grows ((resolve name).on net).2 ∧ ((resolve name).on net).2.Coherent := by
  cases hfind : net.find? name with
  | some id =>
      rw [on_resolve_of_find?_eq_some hfind]
      exact h.after_resolveId id
  | none =>
      rw [on_resolve_of_find?_eq_none hfind]
      exact ⟨.refl net, h⟩

/-! ## Resolving several wires -/

/-- A word is reported with a label. -/
theorem on_labelled (net : Netlist) (label : String) (resolution : Resolution Word) :
    (do return (label, ← resolution) : Resolution (String × Word)).on net =
      ((resolution.on net).1.map (label, ·), (resolution.on net).2) := by
  rcases hon : resolution.on net with ⟨result, net'⟩
  cases result <;> simp only [Resolution.on_bind, Resolution.on_pure, hon, Except.map]

/-- Resolving all wires keeps a netlist coherent, and only adds words. -/
theorem Coherent.after_resolveAll (h : net.Coherent) (order : Order) :
    net.Grows ((resolveAll order).on net).2 ∧ ((resolveAll order).on net).2.Coherent := by
  simp only [resolveAll, Resolution.on_bind, Resolution.on_get]
  refine Resolution.on_mapM_keeps (P := fun now => net.Grows now ∧ now.Coherent) ?_ _ ⟨.refl net, h⟩
  rintro ⟨name, id⟩ now ⟨hgrows, hnow⟩
  rw [on_labelled]
  exact ⟨hgrows.trans (hnow.after_resolveId id).1, (hnow.after_resolveId id).2⟩

/-- Resolving some names keeps a netlist coherent, and only adds words. -/
theorem Coherent.after_resolveWires (h : net.Coherent) (names : List String) :
    net.Grows ((resolveWires names).on net).2 ∧ ((resolveWires names).on net).2.Coherent := by
  refine Resolution.on_mapM_keeps (P := fun now => net.Grows now ∧ now.Coherent) ?_ _ ⟨.refl net, h⟩
  rintro name now ⟨hgrows, hnow⟩
  rw [on_labelled]
  exact ⟨hgrows.trans (hnow.after_resolve name).1, (hnow.after_resolve name).2⟩

/-! ## Calls -/

/-- The calls that a netlist serves. -/
inductive Call where
  /-- Looks up a name, which becomes a wire if it is new. -/
  | intern (name : String) (position : Position)
  | resolve (name : String)
  | resolveId (id : WireId)
  | resolveAll (order : Order)
  | resolveWires (names : List String)
deriving DecidableEq, Repr

/-- The netlist that a call leaves, whether it fails or not. -/
def serve (net : Netlist) : Call → Netlist
  | .intern name position => (net.intern name position).2
  | .resolve name => ((resolve name).on net).2
  | .resolveId id => ((resolveId id).on net).2
  | .resolveAll order => ((resolveAll order).on net).2
  | .resolveWires names => ((resolveWires names).on net).2

/-- The empty netlist and the netlists of schematics, and what any calls make of
them. -/
inductive Reachable : Netlist → Prop where
  | empty : Reachable empty
  | built {schematic : Schematic} {net : Netlist} (hbuilt : ofSchematic schematic = .ok net) :
      Reachable net
  | served {net : Netlist} (hnet : Reachable net) (call : Call) : Reachable (net.serve call)

/-- Every call keeps a netlist coherent. -/
theorem Coherent.serve (h : net.Coherent) (call : Call) : (net.serve call).Coherent := by
  cases call with
  | intern name position => exact h.intern name position
  | resolve name => exact (h.after_resolve name).2
  | resolveId id => exact (h.after_resolveId id).2
  | resolveAll order => exact (h.after_resolveAll order).2
  | resolveWires names => exact (h.after_resolveWires names).2

/-- Every reachable netlist is coherent. -/
theorem Reachable.coherent (h : net.Reachable) : net.Coherent := by
  induction h with
  | empty => exact wellWired_empty.coherent realizes_empty.value rfl
  | built hbuilt =>
      have hrealizes := realizes_ofSchematic hbuilt
      exact hrealizes.wellWired.coherent hrealizes.value hrealizes.evaluations
  | served _ call ih => exact ih.serve call

/-! ## An example -/

/-- The wires `x` and `w` depend on each other, and `z` reads both `x` and the
constant `y`. -/
def tangle : Schematic :=
  ⟨[⟨.wire ⟨"w", ⟨1, 1⟩⟩, ⟨"x", ⟨1, 6⟩⟩⟩,
    ⟨.unary .not ⟨"x", ⟨2, 5⟩⟩, ⟨"w", ⟨2, 10⟩⟩⟩,
    ⟨.literal ⟨"5", ⟨3, 1⟩⟩, ⟨"y", ⟨3, 6⟩⟩⟩,
    ⟨.binary .or ⟨"x", ⟨4, 1⟩⟩ ⟨"y", ⟨4, 6⟩⟩, ⟨"z", ⟨4, 11⟩⟩⟩]⟩

/-- The netlist of `tangle` after `z` could not be resolved. -/
def tangled : Netlist :=
  ((ofSchematic tangle).toOption.getD empty).serve (.resolve "z")

/-- A call on a built netlist leaves `tangled`. -/
theorem reachable_tangled : tangled.Reachable := by
  have hbuilt : ofSchematic tangle = .ok ((ofSchematic tangle).toOption.getD empty) := rfl
  exact .served (.built hbuilt) (.resolve "z")

end Netlist

end BitwiseCircuit
