import Mathlib.Data.Finset.Card
import Mathlib.Data.Finset.Range
import BitwiseCircuit.Proofs.Netlist.Denotation

/-!
# Coherent netlists

A netlist keeps the words that it has computed.  It is coherent if its index fits
its table of wires, every word that it keeps is the one that the wiring gives,
whatever such a wire reads is kept too, and the counter tells how many words are
kept.

Main results:

- Definition `Netlist.Coherent` is this invariant, and `Netlist.WellWired` its part
  that says nothing about words.
- Definition `Netlist.Grows` is how a netlist changes while words are computed.
- Theorem `Netlist.Coherent.evaluations_eq`: the counter of a coherent netlist is the number
  of wires that have their words.
- Theorem `Netlist.Coherent.eq_of_settled_eq`: the wiring and the set of the wires that have
  their words make a coherent netlist.
- Theorems `Netlist.Coherent.settle` and `Netlist.Coherent.intern`: computing a word
  whose operands are known, and looking up a name, keep a netlist coherent.
- Theorem `Netlist.Coherent.exists_apply`: a gate whose operands are known can be
  computed, and gives what its wire stands for.
-/

namespace BitwiseCircuit

namespace Netlist

variable {net net' net'' : Netlist} {id x y : WireId} {path : List WireId} {name : String}
  {value : Word}

/-! ## Wiring that fits together -/

/-- The index gives each name the number of the wire that has it, and gates read
only wires that exist. -/
structure WellWired (net : Netlist) : Prop where
  find?_iff : ∀ name id, net.find? name = some id ↔ net.IsNamed id name
  operand_lt : ∀ x y, net.Reads x y → y < net.size

/-- The name of a wire is the one that it is named by. -/
theorem IsNamed.nameOf_eq (h : net.IsNamed id name) : net.nameOf id = name := by
  rcases h with ⟨wire, hwire, rfl⟩
  simp [nameOf, hwire]

/-- Only the wires of the netlist are named. -/
theorem IsNamed.lt_size (h : net.IsNamed id name) : id < net.size := by
  rcases h with ⟨wire, hwire, _⟩
  exact lt_size_of_wire? hwire

/-- Every wire of the netlist has its name. -/
theorem isNamed_nameOf (h : id < net.size) : net.IsNamed id (net.nameOf id) := by
  rcases exists_wire_of_lt h with ⟨wire, hwire⟩
  exact ⟨wire, hwire, by simp [nameOf, hwire]⟩

/-- A lookup finds wires of the netlist only. -/
theorem WellWired.lt_size_of_find? (h : net.WellWired) (hfind : net.find? name = some id) :
    id < net.size :=
  ((h.find?_iff name id).mp hfind).lt_size

/-- Different wires have different names. -/
theorem WellWired.eq_of_isNamed (h : net.WellWired) (hx : net.IsNamed x name)
    (hy : net.IsNamed y name) : x = y :=
  Option.some.inj (((h.find?_iff name x).mpr hx).symm.trans ((h.find?_iff name y).mpr hy))

/-- Whether a netlist is well wired depends on its wiring only. -/
theorem WellWired.congr (h : net.WellWired) (hwiring : net.SameWiring net') :
    net'.WellWired := by
  constructor
  · intro name id
    rw [← hwiring.find?_eq, ← hwiring.isNamed_iff]
    exact h.find?_iff name id
  · intro x y hreads
    rw [← hwiring.size_eq]
    exact h.operand_lt x y (hwiring.reads_eq ▸ hreads)

/-- The netlist without wires is well wired. -/
theorem wellWired_empty : empty.WellWired := by
  constructor
  · intro name id
    constructor
    · intro hfind
      simp [find?, empty] at hfind
    · rintro ⟨wire, hwire, _⟩
      simp [wire?, empty] at hwire
  · rintro x y ⟨driver, hdriver, _⟩
    simp [driver?, wire?, empty] at hdriver

/-- Looking up a name, which may add a wire, keeps the wiring consistent. -/
theorem WellWired.intern (h : net.WellWired) (name : String) (position : Position) :
    (net.intern name position).2.WellWired := by
  constructor
  · intro other id
    rw [find?_intern_eq]
    cases hfind : net.find? name with
    | some known =>
        rw [intern_of_find?_eq_some position hfind, ← h.find?_iff, ← hfind]
        split_ifs with hother
        · rw [hother]
        · rfl
    | none =>
        simp only [IsNamed, wire?_intern, hfind, true_and]
        by_cases hid : id = net.size
        · -- only the new name has the new number
          have hold : net.find? other ≠ some net.size := by
            intro hfind'
            exact Nat.lt_irrefl _ (h.lt_size_of_find? hfind')
          subst id
          by_cases hother : other = name
          · simp [hother, Netlist.intern, hfind]
          · simp [hother, hold, Ne.symm hother]
        · rw [if_neg hid]
          by_cases hother : other = name
          · subst other
            have hold : ¬ net.IsNamed id name := by
              rw [← h.find?_iff, hfind]
              simp
            simpa [Netlist.intern, hfind, Ne.symm hid] using fun wire hwire hname =>
              hold ⟨wire, hwire, hname⟩
          · rw [if_neg hother]
            exact h.find?_iff other id
  · rintro x y ⟨driver, hdriver, hmem⟩
    rw [driver?_intern] at hdriver
    have hlt : y < net.size := h.operand_lt x y ⟨driver, hdriver, hmem⟩
    rw [size_intern]
    split_ifs
    · exact Nat.lt_succ_of_lt hlt
    · exact hlt

/-! ## Growing -/

/-- Some more words may be known, and nothing else is different. -/
structure Grows (net net' : Netlist) : Prop where
  wiring : net.SameWiring net'
  value : ∀ id value, net.value? id = some value → net'.value? id = some value

/-- Growing is reflexive. -/
theorem Grows.refl (net : Netlist) : net.Grows net :=
  ⟨.refl net, fun _ _ h => h⟩

/-- Growing is transitive. -/
theorem Grows.trans (h : net.Grows net') (h' : net'.Grows net'') : net.Grows net'' :=
  ⟨h.wiring.trans h'.wiring, fun id value hvalue => h'.value id value (h.value id value hvalue)⟩

/-- A wire keeps having a word. -/
theorem Grows.isSome (h : net.Grows net') (hvalue : (net.value? id).isSome) :
    (net'.value? id).isSome := by
  rcases Option.isSome_iff_exists.mp hvalue with ⟨value, hvalue⟩
  exact Option.isSome_iff_exists.mpr ⟨value, h.value id value hvalue⟩

/-- A netlist grows by a word that it lacked. -/
theorem grows_settle (h : net.value? id = none) : net.Grows (net.settle id value) := by
  refine ⟨sameWiring_settle net id value, fun x known hknown => ?_⟩
  have hne : x ≠ id := by
    rintro rfl
    simp [h] at hknown
  rwa [value?_settle_of_ne hne]

/-- Every word is one more than before any was computed. -/
theorem grows_fresh (net : Netlist) : net.fresh.Grows net :=
  ⟨sameWiring_fresh net, by simp⟩

/-! ## Wires without a word -/

/-- The wires without a word, those of a path left out. -/
def unsettled (net : Netlist) (path : List WireId) : Finset WireId :=
  {x ∈ Finset.range net.size | net.value? x = none ∧ x ∉ path}

@[simp]
theorem mem_unsettled : x ∈ net.unsettled path ↔ x < net.size ∧ net.value? x = none ∧ x ∉ path := by
  simp [unsettled]

/-- There are no more unsettled wires than wires. -/
theorem card_unsettled_le (net : Netlist) (path : List WireId) :
    (net.unsettled path).card ≤ net.size := by
  calc
    (net.unsettled path).card ≤ (Finset.range net.size).card := Finset.card_filter_le _ _
    _ = net.size := Finset.card_range _

/-- Words are only added. -/
theorem Grows.card_unsettled_le (h : net.Grows net') (path : List WireId) :
    (net'.unsettled path).card ≤ (net.unsettled path).card := by
  apply Finset.card_le_card
  intro x hx
  rw [mem_unsettled] at hx ⊢
  refine ⟨h.wiring.size_eq ▸ hx.1, ?_, hx.2.2⟩
  cases hvalue : net.value? x with
  | none => rfl
  | some value => simp [h.value x value hvalue] at hx

/-- Putting a wire without a word on the path takes it out of the count. -/
theorem card_unsettled_append (hvalue : net.value? id = none) (hlt : id < net.size)
    (hpath : id ∉ path) :
    (net.unsettled (path ++ [id])).card + 1 = (net.unsettled path).card := by
  have herase : net.unsettled (path ++ [id]) = (net.unsettled path).erase id := by
    ext x
    simp only [mem_unsettled, List.mem_append, List.mem_singleton, Finset.mem_erase]
    tauto
  rw [herase]
  exact Finset.card_erase_add_one (mem_unsettled.mpr ⟨hlt, hvalue, hpath⟩)

/-- Computing the word of a wire counts like putting the wire on the path. -/
theorem unsettled_settle (hlt : id < net.size) :
    (net.settle id value).unsettled path = net.unsettled (path ++ [id]) := by
  ext x
  simp only [mem_unsettled, size_settle, List.mem_append, List.mem_singleton]
  by_cases hx : x = id
  · subst x
    simp [value?_settle_self hlt]
  · simp [value?_settle_of_ne hx, hx]

/-- The wires that have their word. -/
def settled (net : Netlist) : Finset WireId :=
  {x ∈ Finset.range net.size | (net.value? x).isSome}

@[simp]
theorem mem_settled : x ∈ net.settled ↔ (net.value? x).isSome := by
  rw [settled, Finset.mem_filter, Finset.mem_range, and_iff_right_iff_imp]
  intro hvalue
  rcases Option.isSome_iff_exists.mp hvalue with ⟨value, hvalue⟩
  exact lt_size_of_value? hvalue

/-- Every wire has its word or lacks it. -/
theorem card_settled_add (net : Netlist) :
    net.settled.card + (net.unsettled []).card = net.size := by
  have hunsettled : net.unsettled [] =
      {x ∈ Finset.range net.size | ¬ (net.value? x).isSome} := by
    ext x
    simp
  rw [hunsettled, settled, Finset.card_filter_add_card_filter_not, Finset.card_range]

/-- A wire that has a word keeps having one. -/
theorem Grows.settled_subset (h : net.Grows net') : net.settled ⊆ net'.settled := by
  intro x hx
  rw [mem_settled] at hx ⊢
  exact h.isSome hx

/-! ## Coherence -/

/-- The words that a netlist keeps are those that its wiring gives; they are kept
from the constants up, and each of them is counted. -/
structure Coherent (net : Netlist) : Prop extends WellWired net where
  denotes : ∀ id value, net.value? id = some value → net.Denotes id value
  closed : ∀ x y, (net.value? x).isSome → net.Reads x y → (net.value? y).isSome
  evaluations_add : net.evaluations + (net.unsettled []).card = net.size

/-- Consistent wiring without any words is coherent. -/
theorem WellWired.coherent (h : net.WellWired) (hvalue : ∀ id, net.value? id = none)
    (hevaluations : net.evaluations = 0) : net.Coherent where
  toWellWired := h
  denotes id value hknown := by simp [hvalue] at hknown
  closed x y hknown := by simp [hvalue] at hknown
  evaluations_add := by
    have hall : net.unsettled [] = Finset.range net.size := by
      ext x
      simp [hvalue]
    rw [hevaluations, hall, Finset.card_range, Nat.zero_add]

/-- Forgetting all words leaves a coherent netlist. -/
theorem WellWired.coherent_fresh (h : net.WellWired) : net.fresh.Coherent :=
  (h.congr (sameWiring_fresh net).symm).coherent (value?_fresh net) rfl

/-- The counter tells how many words are kept. -/
theorem Coherent.evaluations_eq (h : net.Coherent) : net.evaluations = net.settled.card := by
  have hadd := h.evaluations_add
  have hcard := card_settled_add net
  omega

/-- A coherent netlist is made by its wiring and by which of its wires have their words. -/
theorem Coherent.eq_of_settled_eq (h : net.Coherent) (h' : net'.Coherent)
    (hwiring : net.SameWiring net') (hsettled : net.settled = net'.settled) : net = net' := by
  refine hwiring.eq_of_value?_eq (fun id => ?_) ?_
  · have hknown : (net.value? id).isSome = (net'.value? id).isSome := by
      rw [Bool.eq_iff_iff, ← mem_settled, ← mem_settled, hsettled]
    cases hvalue : net.value? id with
    | none =>
        rw [hvalue, Option.isSome_none] at hknown
        exact (Option.isNone_iff_eq_none.mp (Option.isSome_eq_false_iff.mp hknown.symm)).symm
    | some value =>
        rw [hvalue, Option.isSome_some] at hknown
        rcases Option.isSome_iff_exists.mp hknown.symm with ⟨value', hvalue'⟩
        have hdenotes' : net.Denotes id value' :=
          hwiring.denotes_iff.mpr (h'.denotes id value' hvalue')
        rw [hvalue', (h.denotes id value hvalue).unique hdenotes']
  · rw [h.evaluations_eq, h'.evaluations_eq, hsettled]

/-- A gate whose operands are known can be computed, and gives what its wire stands
for. -/
theorem Coherent.exists_apply (h : net.Coherent) {driver : Driver}
    (hdriver : net.driver? id = some driver)
    (hoperands : ∀ y ∈ driver.gate.wires, (net.value? y).isSome) :
    ∃ value, driver.gate.apply net.read? = some value ∧ net.Denotes id value := by
  let word : WireId → Word := fun y => (net.value? y).getD 0
  have hword : ∀ y ∈ driver.gate.wires, net.value? y = some (word y) := by
    intro y hy
    rcases Option.isSome_iff_exists.mp (hoperands y hy) with ⟨value, hvalue⟩
    simp [word, hvalue]
  refine ⟨driver.gate.eval word, ?_, ?_⟩
  · apply Gate.apply_eq_some_eval
    intro operand hmem
    cases operand with
    | literal value => rfl
    | wire y => exact hword y (Gate.mem_wires_iff.mpr hmem)
  · exact .gate word hdriver fun y hy => h.denotes y (word y) (hword y hy)

/-- Keeping a word that the wiring gives, once the operands are known, keeps a
netlist coherent. -/
theorem Coherent.settle (h : net.Coherent) (hvalue : net.value? id = none)
    (hdenotes : net.Denotes id value) (hlt : id < net.size)
    (hoperands : ∀ y, net.Reads id y → (net.value? y).isSome) :
    (net.settle id value).Coherent where
  toWellWired := h.toWellWired.congr (sameWiring_settle net id value)
  denotes x known hknown := by
    rw [← (sameWiring_settle net id value).denotes_iff]
    by_cases hx : x = id
    · subst x
      rw [value?_settle_self hlt, Option.some.injEq] at hknown
      rwa [← hknown]
    · rw [value?_settle_of_ne hx] at hknown
      exact h.denotes x known hknown
  closed x y hknown hreads := by
    rw [← (sameWiring_settle net id value).reads_eq] at hreads
    apply (grows_settle hvalue).isSome
    by_cases hx : x = id
    · subst x
      exact hoperands y hreads
    · rw [value?_settle_of_ne hx] at hknown
      exact h.closed x y hknown hreads
  evaluations_add := by
    have hcard := card_unsettled_append hvalue hlt List.not_mem_nil
    have hold := h.evaluations_add
    rw [unsettled_settle hlt, size_settle]
    simp only [Netlist.settle]
    omega

/-- Looking up a name, which may add a wire, keeps a netlist coherent. -/
theorem Coherent.intern (h : net.Coherent) (name : String) (position : Position) :
    (net.intern name position).2.Coherent where
  toWellWired := h.toWellWired.intern name position
  denotes id value hvalue := by
    rw [value?_intern] at hvalue
    refine (h.denotes id value hvalue).mono fun x driver hdriver => ?_
    rw [driver?_intern, hdriver]
  closed x y hknown hreads := by
    simp only [Reads, driver?_intern] at hreads
    rw [value?_intern] at hknown ⊢
    exact h.closed x y hknown hreads
  evaluations_add := by
    cases hfind : net.find? name with
    | some id =>
        rw [intern_of_find?_eq_some position hfind]
        exact h.evaluations_add
    | none =>
        have hinsert : (net.intern name position).2.unsettled [] =
            insert net.size (net.unsettled []) := by
          ext x
          have hnew : net.value? net.size = none := by
            simp [value?, wire?_eq_none (Nat.lt_irrefl net.size)]
          simp only [mem_unsettled, size_intern, hfind, value?_intern, Finset.mem_insert]
          rcases Nat.lt_trichotomy x net.size with hx | rfl | hx
          · simp [hx.ne, hx, Nat.lt_succ_of_lt hx]
          · simp [hnew]
          · simp [hx.ne', Nat.not_lt.mpr hx.le, Nat.not_lt.mpr (Nat.succ_le_of_lt hx)]
        have hcard : (insert net.size (net.unsettled [])).card = (net.unsettled []).card + 1 :=
          Finset.card_insert_of_notMem (by simp)
        have hold := h.evaluations_add
        rw [hinsert, hcard, evaluations_intern, size_intern, if_pos hfind]
        omega

end Netlist

end BitwiseCircuit
