import BitwiseCircuit.Proofs.Search.Simulation

/-!
# Expansions in a search

The stack of a search grows and shrinks, and may hold several frames for one wire.
Still no wire is expanded twice: a wire that has been expanded is on the path until it
has its word, and neither a wire on the path nor one with its word is expanded.  Both
facts are kept by every single turn.

Main results:

- Definition `Search.Step` lists the turns after which a search goes on, and Theorem
  `Search.step_of_turn` says that there are no others.
- Definition `Search.Orderly` is the invariant of the stack; Theorems
  `Search.Orderly.step` and `Search.Steps.orderly` carry it through a search.
- Theorem `Search.Steps.expands_once`: a wire is expanded in one turn at most.
-/

namespace BitwiseCircuit

namespace Search

variable {search later first middle last : Search} {net : Netlist}
  {stack stack' below : List Frame} {active : Std.TreeSet WireId} {frame : Frame}
  {ids : List WireId} {id x : WireId} {turns turns' more : Nat}

/-! ## Kinds of turns -/

/-- The turns after which a search goes on: a frame is taken off because its wire has
its word, a frame is expanded, or the gate of an expanded frame is computed. -/
inductive Step : Search → Search → Prop where
  | settled {net : Netlist} {id : WireId} {expanded : Bool} {below : List Frame}
      {active : Std.TreeSet WireId} (hvalue : (net.value? id).isSome) :
      Step ⟨net, ⟨id, expanded⟩ :: below, active⟩ ⟨net, below, active⟩
  | expanded {net : Netlist} {id : WireId} {below stack : List Frame}
      {active : Std.TreeSet WireId} {driver : Driver} (hvalue : net.value? id = none)
      (hdriver : net.driver? id = some driver)
      (hdemand : demand net (active.insert id) (⟨id, true⟩ :: below) driver.gate.wires =
        .ok stack) :
      Step ⟨net, ⟨id, false⟩ :: below, active⟩ ⟨net, stack, active.insert id⟩
  | computed {net : Netlist} {id : WireId} {below : List Frame}
      {active : Std.TreeSet WireId} {driver : Driver} {value : Word}
      (hvalue : net.value? id = none) (hdriver : net.driver? id = some driver)
      (happly : driver.gate.apply net.read? = some value) :
      Step ⟨net, ⟨id, true⟩ :: below, active⟩ ⟨net.settle id value, below, active.erase id⟩

/-- A search goes on after no other turns. -/
theorem step_of_turn (h : search.turn = .next later) : Step search later := by
  rcases search with ⟨net, stack, active⟩
  dsimp only [turn] at h
  split at h
  · cases h
  · rename_i id expanded below
    split at h
    · cases h
    · rename_i wire hwire
      have hvalue := Netlist.value?_of_wire? hwire
      have hdriver := Netlist.driver?_of_wire? hwire
      split at h <;> rename_i hsettled
      · cases h
        exact .settled (hvalue ▸ hsettled)
      · rw [Option.not_isSome_iff_eq_none.mp hsettled] at hvalue
        split at h <;> rename_i hwireDriver
        · cases h
        · rw [hwireDriver] at hdriver
          split at h <;> rename_i hexpanded
          · subst expanded
            split at h <;> rename_i happly <;> cases h
            exact .computed hvalue hdriver happly
          · obtain rfl : expanded = false := by simpa using hexpanded
            split at h <;> rename_i hdemand <;> cases h
            exact .expanded hvalue hdriver hdemand

/-! ## The stack -/

/-- The path has the wires of the expanded frames. -/
theorem mem_path : x ∈ path stack ↔ ⟨x, true⟩ ∈ stack := by
  simp only [path, List.mem_reverse, List.mem_map, List.mem_filter]
  constructor
  · rintro ⟨⟨wire, expanded⟩, ⟨hmem, rfl⟩, rfl⟩
    exact hmem
  · intro hmem
    exact ⟨⟨x, true⟩, ⟨hmem, rfl⟩, rfl⟩

/-- The wire of an expanded frame is on the path. -/
theorem wire_mem_path (h : frame ∈ stack) (hexpanded : frame.expanded) :
    frame.wire ∈ path stack := by
  rw [mem_path, ← hexpanded]
  exact h

@[simp]
theorem path_cons_false : path (⟨id, false⟩ :: below) = path below :=
  rfl

@[simp]
theorem path_cons_true : path (⟨id, true⟩ :: below) = path below ++ [id] := by
  simp [path]

/-- Frames that are not expanded may stand above each other in any way. -/
theorem pairwise_pending (ids : List WireId) :
    (pending ids).Pairwise fun above below => below.expanded → above.wire ≠ below.wire :=
  List.pairwise_map.mpr (List.pairwise_of_forall (by simp))

/-- Demanding operands leaves the path as it is. -/
theorem path_of_demand (h : demand net active stack ids = .ok stack') :
    path stack' = path stack := by
  induction ids generalizing stack with
  | nil =>
      cases h
      rfl
  | cons id ids ih =>
      rw [demand] at h
      split_ifs at h
      · exact ih h
      · rw [ih h, path_cons_false]

/-- The active wires are those of the path, none of these has its word, and no frame
stands above an expanded frame for the same wire. -/
structure Orderly (search : Search) : Prop where
  follows : Follows search.stack search.active (path search.stack)
  unsettled : ∀ x ∈ path search.stack, search.netlist.value? x = none
  distinct : search.stack.Pairwise fun above below => below.expanded → above.wire ≠ below.wire

/-- A search starts in order. -/
theorem orderly_start (net : Netlist) (id : WireId) : Orderly (start net id) where
  follows := ⟨rfl, by simp [start, path]⟩
  unsettled := by simp [start, path]
  distinct := List.pairwise_singleton _ _

/-- A frame on top that is not expanded adds nothing to the path. -/
theorem Orderly.follows_below (h : Orderly ⟨net, ⟨id, false⟩ :: below, active⟩) :
    Follows below active (path below) :=
  ⟨rfl, h.follows.mem_active⟩

/-- The wire of the top frame is not on the path below it. -/
theorem Orderly.not_mem_path (h : Orderly ⟨net, frame :: below, active⟩) :
    frame.wire ∉ path below := by
  intro hmem
  exact (List.pairwise_cons.mp h.distinct).1 _ (mem_path.mp hmem) rfl rfl

/-- Expanding the top frame keeps a search orderly if no operand without a word is on
the path then. -/
theorem Orderly.expand (h : Orderly ⟨net, ⟨id, false⟩ :: below, active⟩)
    (hvalue : net.value? id = none)
    (hfind : ids.find? (net.reenters (path below ++ [id])) = none) :
    Orderly ⟨net,
      pending (ids.reverse.filter fun x => (net.value? x).isNone) ++ ⟨id, true⟩ :: below,
      active.insert id⟩ := by
  have hfollows : Follows (⟨id, true⟩ :: below) (active.insert id) (path below ++ [id]) :=
    h.follows_below.expand id
  have hbelow := List.pairwise_cons.mp h.distinct
  constructor
  · rw [path_pending_append, path_cons_true]
    exact hfollows.append_pending _
  · rw [path_pending_append, path_cons_true]
    intro x hx
    rcases List.mem_append.mp hx with hx | hx
    · exact h.unsettled x hx
    · rwa [List.mem_singleton.mp hx]
  · refine List.pairwise_append.mpr ⟨pairwise_pending _, List.pairwise_cons.mpr hbelow, ?_⟩
    -- a frame that was put on the stack is for an operand that was not on the path
    intro above habove frame hframe hexpanded heq
    simp only [pending, List.mem_map, List.mem_filter, List.mem_reverse] at habove
    rcases habove with ⟨y, ⟨hy, hunsettled⟩, rfl⟩
    have hmem : y ∈ path below ++ [id] := by
      rw [← path_cons_true, show y = frame.wire from heq]
      exact wire_mem_path hframe hexpanded
    have hnot := List.find?_eq_none.mp hfind y hy
    simp [Netlist.reenters, hmem, hunsettled] at hnot

/-- Every turn keeps a search orderly. -/
theorem Orderly.step (h : Orderly search) (hstep : Step search later) : Orderly later := by
  cases hstep with
  | @settled net id expanded below active hvalue =>
      -- the frame of a wire that has its word is not expanded
      obtain rfl : expanded = false := by
        by_contra hexpanded
        have hid := h.unsettled id (by simp [hexpanded])
        simp [hid] at hvalue
      exact ⟨h.follows_below, h.unsettled, (List.pairwise_cons.mp h.distinct).2⟩
  | @expanded net id below stack active driver hvalue hdriver hdemand =>
      have hfollows : Follows (⟨id, true⟩ :: below) (active.insert id) (path below ++ [id]) :=
        h.follows_below.expand id
      rw [hfollows.demand_eq net] at hdemand
      split at hdemand <;> rename_i hfind <;> cases hdemand
      exact h.expand hvalue hfind
  | @computed net id below active driver value hvalue hdriver happly =>
      have hpath : id ∉ path below := h.not_mem_path
      refine ⟨Follows.collapse (path_cons_true ▸ h.follows) hpath, fun x hx => ?_,
        (List.pairwise_cons.mp h.distinct).2⟩
      have hne : x ≠ id := fun heq => hpath (heq ▸ hx)
      rw [Netlist.value?_settle_of_ne hne]
      exact h.unsettled x (by simp [hx])

/-- A search stays in order. -/
theorem Steps.orderly (h : Steps turns first last) (hfirst : Orderly first) : Orderly last := by
  induction h with
  | refl => exact hfirst
  | next hturn _ ih => exact ih (hfirst.step (step_of_turn hturn))

/-! ## Expanding a wire -/

/-- The next turn expands the wire `id`: it has no word yet, and the frame of it that is
on top of the stack has not been expanded. -/
def Expands (search : Search) (id : WireId) : Prop :=
  ∃ below driver, search.stack = ⟨id, false⟩ :: below ∧ search.netlist.value? id = none ∧
    search.netlist.driver? id = some driver

/-- The next turn applies the gate of the wire `id`: it has no word yet, and the frame of
it that is on top of the stack has been expanded. -/
def Applies (search : Search) (id : WireId) (gate : Gate WireId) : Prop :=
  ∃ below driver, search.stack = ⟨id, true⟩ :: below ∧ search.netlist.value? id = none ∧
    search.netlist.driver? id = some driver ∧ driver.gate = gate

/-- The wire `id` is on the path or has its word. -/
def Begun (search : Search) (id : WireId) : Prop :=
  (search.netlist.value? id).isSome ∨ id ∈ path search.stack

/-- A wire that is on the path stays there until it has its word. -/
theorem Begun.step (h : Begun search x) (hstep : Step search later) : Begun later x := by
  cases hstep with
  | @settled net id expanded below active hvalue =>
      rcases h with h | h
      · exact .inl h
      · cases expanded with
        | false => exact .inr h
        | true =>
            rw [path_cons_true, List.mem_append, List.mem_singleton] at h
            rcases h with h | rfl
            · exact .inr h
            · exact .inl hvalue
  | @expanded net id below stack active driver _ _ hdemand =>
      rcases h with h | h
      · exact .inl h
      · right
        rw [path_of_demand hdemand, path_cons_true]
        exact List.mem_append_left [id] h
  | @computed net id below active driver value hvalue hdriver _ =>
      rcases h with h | h
      · exact .inl ((Netlist.grows_settle hvalue).isSome h)
      · rw [path_cons_true, List.mem_append, List.mem_singleton] at h
        rcases h with h | rfl
        · exact .inr h
        · left
          rw [Netlist.value?_settle_self (Netlist.lt_size_of_driver? hdriver)]
          rfl

private theorem Steps.begun (h : Steps turns first last) (hfirst : Begun first x) :
    Begun last x := by
  induction h with
  | refl => exact hfirst
  | next hturn _ ih => exact ih (hfirst.step (step_of_turn hturn))

/-- A wire that is expanded is on the path afterwards. -/
theorem Expands.begun (h : Expands search x) (hstep : Step search later) : Begun later x := by
  rcases h with ⟨below, driver, hstack, hvalue, _⟩
  cases hstep with
  | settled hsettled =>
      cases hstack
      simp [hvalue] at hsettled
  | expanded _ _ hdemand =>
      cases hstack
      right
      rw [path_of_demand hdemand, path_cons_true]
      exact List.mem_concat_self
  | computed => cases hstack

/-- A wire that is on the path or has its word is not expanded. -/
theorem Orderly.not_begun (h : Orderly search) (hx : Expands search x) : ¬ Begun search x := by
  rcases search with ⟨net, stack, active⟩
  rcases hx with ⟨below, driver, rfl, hvalue, _⟩
  rintro (hsettled | hpath)
  · simp [hvalue] at hsettled
  · exact h.not_mem_path hpath

/-- Turns taken from the same start agree, as far as both go. -/
theorem Steps.rest (h : Steps turns first middle) (h' : Steps (turns + more) first last) :
    Steps more middle last := by
  induction h with
  | refl => rwa [Nat.zero_add] at h'
  | next hturn _ ih =>
      rw [Nat.add_right_comm] at h'
      cases h' with
      | next hturn' hsteps =>
          cases hturn.symm.trans hturn'
          exact ih hsteps

/-- A search that is orderly at first expands a wire in one turn at most. -/
theorem Steps.expands_once (hfirst : Orderly first) (h : Steps turns first middle)
    (h' : Steps turns' first last) (hx : Expands middle x) (hx' : Expands last x) :
    turns = turns' := by
  -- of two turns that both expand `x`, neither is before the other
  have hlater : ∀ {turns more middle last}, Steps turns first middle →
      Steps (turns + (more + 1)) first last → Expands middle x → ¬ Expands last x := by
    intro turns more middle last hmiddle hlast hx hx'
    cases hmiddle.rest hlast with
    | next hturn hrest =>
        have hbegun := hrest.begun (hx.begun (step_of_turn hturn))
        exact (hlast.orderly hfirst).not_begun hx' hbegun
  rcases Nat.lt_trichotomy turns turns' with hlt | heq | hlt
  · obtain ⟨more, rfl⟩ := Nat.exists_eq_add_of_lt hlt
    exact absurd hx' (hlater h h' hx)
  · exact heq
  · obtain ⟨more, rfl⟩ := Nat.exists_eq_add_of_lt hlt
    exact absurd hx (hlater h' h hx')

end Search

end BitwiseCircuit
