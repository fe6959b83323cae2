import Mathlib.Data.List.Chain
import BitwiseCircuit.Proofs.Resolution.Laziness
import BitwiseCircuit.Proofs.Search.Expansion

/-!
# The stack of a resolution

A frame is put on the stack because some gate lacks its wire, and it stays above the frame of that
gate as long as it is there.  In between there may be further frames that wait for the same gate,
but no expanded one.  So one rule holds for all frames above the bottom one, expanded or not: the
nearest expanded frame below reads their wire.

Main results:

- Definition `Search.Threaded` is this rule; Theorems `Search.Threaded.step` and
  `Search.Steps.threaded` carry it through a search.
- Theorem `Search.Threaded.isChain_path`: along the path each wire reads the next one.
- Definition `Search.WellFramed` gathers what holds of the frames, the path and the active wires,
  and Theorem `Search.Steps.wellFramed` says that it holds at every turn of a search.
-/

namespace BitwiseCircuit

namespace Search

variable {search later : Search} {net net' : Netlist} {stack stack' above below : List Frame}
  {active : Std.TreeSet WireId} {frame reader : Frame} {ids : List WireId} {id : WireId}
  {turns : Nat}

/-! ## Frames above others -/

/-- Each frame but the bottom one is for a wire that the nearest expanded frame below it reads. -/
inductive Threaded (net : Netlist) : List Frame → Prop where
  | nil : Threaded net []
  | bottom (frame : Frame) : Threaded net [frame]
  | above {frame reader : Frame} {below : List Frame}
      (hreader : below.find? (·.expanded) = some reader) (hreads : net.Reads reader.wire frame.wire)
      (hbelow : Threaded net below) : Threaded net (frame :: below)

private theorem Threaded.of_cons (h : Threaded net (frame :: below)) : Threaded net below := by
  cases h with
  | bottom => exact .nil
  | above _ _ hbelow => exact hbelow

/-- The lower part of a threaded stack is threaded. -/
theorem Threaded.of_append (h : Threaded net (above ++ stack)) : Threaded net stack := by
  induction above with
  | nil => exact h
  | cons frame above ih => exact ih h.of_cons

/-- Whether a stack is threaded does not depend on the words computed so far. -/
theorem Threaded.congr (h : Threaded net stack) (hwiring : net.SameWiring net') :
    Threaded net' stack := by
  induction h with
  | nil => exact .nil
  | bottom frame => exact .bottom frame
  | above hreader hreads _ ih => exact .above hreader (hwiring.reads_eq ▸ hreads) ih

/-- Expanding the top frame changes nothing below it. -/
theorem Threaded.expand (h : Threaded net (⟨id, false⟩ :: below)) :
    Threaded net (⟨id, true⟩ :: below) := by
  cases h with
  | bottom => exact .bottom _
  | above hreader hreads hbelow => exact .above hreader hreads hbelow

/-- The operands of the nearest expanded frame may be put on the stack. -/
theorem Threaded.demand (h : Threaded net stack) (hreader : stack.find? (·.expanded) = some reader)
    (hreads : ∀ x ∈ ids, net.Reads reader.wire x)
    (hdemand : Search.demand net active stack ids = .ok stack') : Threaded net stack' := by
  induction ids generalizing stack with
  | nil =>
      cases hdemand
      exact h
  | cons id ids ih =>
      have hrest : ∀ x ∈ ids, net.Reads reader.wire x := fun x hx =>
        hreads x (List.mem_cons_of_mem id hx)
      rw [Search.demand] at hdemand
      split_ifs at hdemand
      · exact ih h hreader hrest hdemand
      · -- the frame that is put on the stack is not expanded, so the nearest one stays the same
        have hpushed : Threaded net (⟨id, false⟩ :: stack) :=
          .above hreader (hreads id List.mem_cons_self) h
        exact ih hpushed hreader hrest hdemand

/-- Every turn keeps the frames in this order. -/
theorem Threaded.step (h : Threaded search.netlist search.stack) (hstep : Step search later) :
    Threaded later.netlist later.stack := by
  cases hstep with
  | settled _ => exact h.of_cons
  | @expanded net id below stack active driver _ hdriver hdemand =>
      have hreads : ∀ x ∈ driver.gate.wires, net.Reads id x := fun x hx => ⟨driver, hdriver, hx⟩
      exact h.expand.demand rfl hreads hdemand
  | @computed net id below active driver value _ _ _ =>
      exact h.of_cons.congr (Netlist.sameWiring_settle net id value)

/-- The stack stays threaded throughout a search. -/
theorem Steps.threaded {first last : Search} (h : Steps turns first last)
    (hfirst : Threaded first.netlist first.stack) : Threaded last.netlist last.stack := by
  induction h with
  | refl => exact hfirst
  | next hturn _ ih => exact ih (hfirst.step (step_of_turn hturn))

/-! ## The path -/

/-- The path ends with the wire of the nearest expanded frame. -/
theorem getLast?_path (stack : List Frame) :
    (path stack).getLast? = (stack.find? (·.expanded)).map (·.wire) := by
  rw [path, List.getLast?_reverse, List.head?_map, List.head?_filter]

/-- Along the path each wire reads the next one. -/
theorem Threaded.isChain_path (h : Threaded net stack) : (path stack).IsChain net.Reads := by
  induction h with
  | nil => exact .nil
  | bottom frame =>
      rcases frame with ⟨id, expanded⟩
      cases expanded with
      | false => exact .nil
      | true => exact .singleton id
  | @above frame reader below hreader hreads _ ih =>
      rcases frame with ⟨id, expanded⟩
      cases expanded with
      | false => rwa [path_cons_false]
      | true =>
          rw [path_cons_true, List.isChain_append]
          refine ⟨ih, .singleton id, ?_⟩
          simpa [getLast?_path, hreader] using hreads

/-- No two expanded frames are for the same wire. -/
theorem Orderly.nodup_path (h : Orderly search) : (path search.stack).Nodup := by
  rw [path, List.nodup_reverse, List.Nodup, List.pairwise_map]
  refine (h.distinct.filter _).imp_of_mem fun _ hbelow hdistinct => hdistinct ?_
  exact (List.mem_filter.mp hbelow).2

/-! ## Every turn of a search -/

/-- What holds of a search whenever it looks at the top of its stack.  The path lists the wires of
the expanded frames, from the bottom up: these are the active wires, they are all different, none
of them has its word, and each of them reads the next one.  Any frame but the bottom one, whether
it is expanded or waits, is for a wire that the nearest expanded frame below it reads. -/
structure WellFramed (search : Search) : Prop where
  mem_active_iff : ∀ x, x ∈ search.active ↔ x ∈ path search.stack
  nodup : (path search.stack).Nodup
  unsettled : ∀ x ∈ path search.stack, search.netlist.value? x = none
  chain : (path search.stack).IsChain search.netlist.Reads
  operand : ∀ above frame below, search.stack = above ++ frame :: below → below ≠ [] →
    ∃ reader, below.find? (·.expanded) = some reader ∧
      search.netlist.Reads reader.wire frame.wire

private theorem Orderly.wellFramed_of_threaded (h : Orderly search)
    (hthreaded : Threaded search.netlist search.stack) : WellFramed search where
  mem_active_iff := h.follows.mem_active
  nodup := h.nodup_path
  unsettled := h.unsettled
  chain := hthreaded.isChain_path
  operand := by
    intro above frame below hstack hne
    rw [hstack] at hthreaded
    cases hthreaded.of_append with
    | bottom => exact absurd rfl hne
    | above hreader hreads _ => exact ⟨_, hreader, hreads⟩

/-- A frame whose wire has its word has never been expanded. -/
theorem WellFramed.not_expanded (h : WellFramed search) (hframe : frame ∈ search.stack)
    (hvalue : (search.netlist.value? frame.wire).isSome) : frame.expanded = false := by
  by_contra hexpanded
  have hunsettled := h.unsettled frame.wire (wire_mem_path hframe (by simpa using hexpanded))
  simp [hunsettled] at hvalue

/-- Whenever the search for a wire looks at the top of its stack, in any netlist and for any wire,
the frames are as `WellFramed` describes them.  A frame that is taken off because its wire has its
word already has never been expanded, so the path stays as it is, and the active wires may as
well. -/
theorem Steps.wellFramed (h : Steps turns (start net id) search) :
    search.WellFramed ∧ ∀ frame below, search.stack = frame :: below →
      (search.netlist.value? frame.wire).isSome →
        frame.expanded = false ∧ path below = path search.stack ∧
          search.turn = .next ⟨search.netlist, below, search.active⟩ := by
  have hframed : search.WellFramed :=
    (h.orderly (orderly_start net id)).wellFramed_of_threaded (h.threaded (.bottom ⟨id, false⟩))
  refine ⟨hframed, fun frame below hstack hvalue => ?_⟩
  have hexpanded : frame.expanded = false :=
    hframed.not_expanded (by simp [hstack]) hvalue
  rcases search with ⟨net', stack, active⟩
  rcases frame with ⟨wire, expanded⟩
  obtain rfl : expanded = false := hexpanded
  obtain rfl : stack = ⟨wire, false⟩ :: below := hstack
  rcases Option.isSome_iff_exists.mp hvalue with ⟨value, hvalue⟩
  exact ⟨rfl, rfl, turn_of_settled hvalue⟩

open Netlist in
/-- In `diamond` the gate of `r` reads `w` twice, and the gate of `c` reads `l` and `r`.  After four
turns of the search for `c`, the wire `w` has its word, and the second frame for it is on top. -/
theorem diamond_wellFramed : ∃ search, Steps 4 (start diamondNet 3) search ∧ search.WellFramed ∧
    search.stack = [⟨0, false⟩, ⟨2, true⟩, ⟨1, false⟩, ⟨3, true⟩] ∧ path search.stack = [3, 2] ∧
    search.netlist.value? 0 = some 1 ∧
    search.turn = .next ⟨search.netlist, [⟨2, true⟩, ⟨1, false⟩, ⟨3, true⟩], search.active⟩ := by
  have hsteps : ∃ search, Steps 4 (start diamondNet 3) search ∧
      search.stack = [⟨0, false⟩, ⟨2, true⟩, ⟨1, false⟩, ⟨3, true⟩] ∧
      search.netlist.value? 0 = some 1 :=
    ⟨_, .next rfl (.next rfl (.next rfl (.next rfl .refl))), rfl, rfl⟩
  rcases hsteps with ⟨search, hsteps, hstack, hvalue⟩
  rcases hsteps.wellFramed with ⟨hframed, hsettled⟩
  have hturn := (hsettled _ _ hstack (by simp [hvalue])).2.2
  have hpath : path search.stack = [3, 2] := by rw [hstack]; rfl
  exact ⟨search, hsteps, hframed, hstack, hpath, hvalue, hturn⟩

end Search

end BitwiseCircuit
