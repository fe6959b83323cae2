import BitwiseCircuit.Proofs.Resolution.Requests

/-!
# Wires that are asked for

A report of some names resolves them one after the other and stops at the first one that fails.
What it returns is what the names resolve to by themselves; what it leaves is made by the set of
the names, in whatever order they are listed and however often.

Main results:

- Theorem `Netlist.Coherent.settled_subset_of_resolveWires`: names after the first one that fails
  are not resolved.
- Theorem `Netlist.Coherent.resolveWires_congr`: the same names leave the same netlist.
- Theorem `Netlist.Reachable.resolveWires_collects`: what resolving some names returns and
  leaves.
-/

namespace BitwiseCircuit

namespace Netlist

variable {net : Netlist} {name : String} {names others : List String} {fault : WireFault}
  {report : Report}

/-- The first name that fails ends the report: words are added only for wires that it, or a name
before it, depends on. -/
theorem Coherent.settled_subset_of_resolveWires (h : net.Coherent)
    (hbefore : ((resolveWires names).on net).1 = .ok report)
    (hfault : ((resolve name).on net).1 = .error fault) (after : List String) :
    ((resolveWires (names ++ name :: after)).on net).2.settled ⊆
      net.settled ∪ net.closureOf (names ++ [name]) := by
  have hsettled := h.settled_of_resolveWires hbefore
  rcases h.after_resolveWires names with ⟨hgrows, hmid⟩
  -- The fault is that of the wire by itself, whatever words the names before it have left.
  have hstops : ((resolveWires (names ++ name :: after)).on net).2 =
      ((resolve name).on ((resolveWires names).on net).2).2 := by
    rw [resolveWires, Resolution.on_mapM_of_error hbefore, on_labelled]
    · rfl
    · rw [on_labelled]
      exact congrArg (Except.map (name, ·)) ((hgrows.resolve_eq h hmid name).trans hfault)
  rw [hstops]
  cases hfind : net.find? name with
  | none =>
      have hfind' : ((resolveWires names).on net).2.find? name = none := by
        rw [← hgrows.wiring.find?_eq, hfind]
      rw [on_resolve_of_find?_eq_none hfind', hsettled]
      exact Finset.union_subset_union_right
        (closureOf_mono fun other hmem => List.mem_append_left [name] hmem)
  | some id =>
      have hfind' : ((resolveWires names).on net).2.find? name = some id := by
        rw [← hgrows.wiring.find?_eq, hfind]
      have hlt : id < ((resolveWires names).on net).2.size := hmid.lt_size_of_find? hfind'
      rw [on_resolve_of_find?_eq_some hfind', h.closureOf_concat hfind, ← Finset.union_assoc,
        ← hsettled, ← hgrows.wiring.closure_eq]
      exact (hmid.memoises hlt).settled_subset

/-- Names that all resolve leave the same netlist in whatever order they are listed, and however
often. -/
theorem Coherent.resolveWires_congr (h : net.Coherent)
    (hok : ((resolveWires names).on net).1 = .ok report)
    (hsame : ∀ name, name ∈ others ↔ name ∈ names) :
    ((resolveWires others).on net).2 = ((resolveWires names).on net).2 := by
  have hothers : ∃ report', ((resolveWires others).on net).1 = .ok report' := by
    rw [h.resolveWires_eq] at hok
    rw [h.resolveWires_eq, exists_mapM_eq_ok_iff]
    intro name hname
    exact exists_mapM_eq_ok_iff.mp ⟨report, hok⟩ name ((hsame name).mp hname)
  rcases hothers with ⟨report', hok'⟩
  rcases h.after_resolveWires names with ⟨hgrows, hafter⟩
  rcases h.after_resolveWires others with ⟨hgrows', hafter'⟩
  have hclosure : net.closureOf others = net.closureOf names :=
    (closureOf_mono fun name => (hsame name).mp).antisymm
      (closureOf_mono fun name => (hsame name).mpr)
  refine hafter'.eq_of_settled_eq hafter (hgrows'.wiring.symm.trans hgrows.wiring) ?_
  rw [h.settled_of_resolveWires hok, h.settled_of_resolveWires hok', hclosure]

/-- Resolving some names on a reachable netlist returns what they resolve to by themselves on the
netlist without words.  A name that fails keeps those after it from being resolved; if none fails,
all lists of the same names leave the same netlist. -/
theorem Reachable.resolveWires_collects (h : net.Reachable) (names : List String) :
    net.fresh.Collects names ((resolveWires names).on net).1 ∧
      (∀ fault, ((resolveWires names).on net).1 = .error fault →
        ∃ before name after, names = before ++ name :: after ∧
          (∀ other ∈ before, ∃ value, ((resolve other).on net.fresh).1 = .ok value) ∧
          ((resolve name).on net.fresh).1 = .error fault ∧
          ((resolveWires names).on net).2.settled ⊆
            net.settled ∪ net.closureOf (before ++ [name])) ∧
      ∀ report others, ((resolveWires names).on net).1 = .ok report →
        (∀ name, name ∈ others ↔ name ∈ names) →
        ((resolveWires others).on net).2 = ((resolveWires names).on net).2 := by
  have hcoherent := h.coherent
  have hcollects : net.fresh.Collects names ((resolveWires names).on net).1 := by
    rw [hcoherent.resolveWires_eq, ← hcoherent.entry_fresh]
    exact collects_mapM_entry _ _
  refine ⟨hcollects, fun fault herror => ?_, fun report others => hcoherent.resolveWires_congr⟩
  rcases (hcollects.error_iff fault).mp herror with ⟨before, name, after, rfl, hbefore, hname⟩
  refine ⟨before, name, after, rfl, hbefore, hname, ?_⟩
  have hreport : ∃ report, ((resolveWires before).on net).1 = .ok report := by
    rw [hcoherent.resolveWires_eq, ← hcoherent.entry_fresh, exists_mapM_eq_ok_iff]
    exact fun other hother => exists_entry_eq_ok_iff.mpr (hbefore other hother)
  rcases hreport with ⟨report, hreport⟩
  rw [← (grows_fresh net).resolve_eq hcoherent.coherent_fresh hcoherent] at hname
  exact hcoherent.settled_subset_of_resolveWires hreport hname after

/-- In `diamondNet` the unknown name `v` fails, and keeps `r` from being resolved.  Without it, it
does not matter that `r` is asked for first, and twice. -/
theorem diamond_resolveWires_collects :
    diamondNet.Reachable ∧
      (∃ before name after, ["l", "v", "r"] = before ++ name :: after ∧
        ((resolve name).on diamondNet.fresh).1 = .error (.undefined "v" none) ∧
        ((resolveWires ["l", "v", "r"]).on diamondNet).2.settled ⊆
          diamondNet.settled ∪ diamondNet.closureOf (before ++ [name])) ∧
      ((resolveWires ["l", "r"]).on diamondNet).2 =
        ((resolveWires ["r", "l", "r"]).on diamondNet).2 := by
  have hbuilt : ofSchematic diamond = .ok diamondNet := rfl
  have hreachable : diamondNet.Reachable := .built hbuilt
  have herror : ((resolveWires ["l", "v", "r"]).on diamondNet).1 =
      .error (.undefined "v" none) := by decide +kernel
  have hok : ((resolveWires ["r", "l", "r"]).on diamondNet).1 =
      .ok [("r", 1), ("l", 1), ("r", 1)] := by decide +kernel
  rcases (hreachable.resolveWires_collects _).2.1 _ herror with
    ⟨before, name, after, hnames, -, hname, hsettled⟩
  exact ⟨hreachable, ⟨before, name, after, hnames, hname, hsettled⟩,
    (hreachable.resolveWires_collects _).2.2 _ _ hok (by simp [or_comm])⟩

end Netlist

end BitwiseCircuit
