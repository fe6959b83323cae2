import BitwiseCircuit.Proofs.Netlist.Construction

/-!
# Which schematics become netlists

Two things can go wrong while a netlist is built: a statement may drive a wire that an
earlier one drives, and a literal may have no word.  The first statement with one of these
decides the fault, and the former wins within a statement.

Main results:

- Theorem `Expression.toGate_eq_error_iff`: an expression without a gate has a literal without a
  word.
- Theorem `Netlist.Realizes.driver?_eq_none_iff`: a wire is driven exactly if it is the result
  of a statement.
- Definition `Netlist.Adds` lists what adding a statement can lead to, and Theorem
  `Netlist.Realizes.adds` says that this is what it leads to.
- Theorem `Netlist.exists_ofSchematic_eq_ok_iff`: the schematics that become netlists.
- Theorem `Netlist.exists_of_ofSchematic_eq_error`: the faults of the others.
-/

namespace BitwiseCircuit

/-! ## Literals without a word -/

/-- The literals of an expression. -/
def Expression.numerals : Expression → List Numeral
  | literal value => [value]
  | wire _ | unary .. | binary .. => []
  | shift _ _ amount => [amount]

/-- A literal that is no word is out of range, with its spelling and its place. -/
theorem Numeral.eq_of_toWord_eq_error {numeral : Numeral} {fault : WireFault}
    (h : numeral.toWord = .error fault) :
    fault = .literalOutOfRange numeral.spelling numeral.position := by
  unfold toWord at h
  split at h <;> cases h
  rfl

/-- An expression describes no gate exactly if its literal has no word. -/
theorem Expression.toGate_eq_error_iff {expression : Expression} {fault : WireFault} :
    expression.toGate = .error fault ↔
      ∃ numeral ∈ expression.numerals, numeral.toWord = .error fault := by
  cases expression with
  | literal value =>
      cases h : value.toWord <;> simp [toGate, numerals, h, bind, Except.bind, pure, Except.pure]
  | wire source => simp [toGate, numerals, pure, Except.pure]
  | unary op operand => simp [toGate, numerals, pure, Except.pure]
  | binary op left right => simp [toGate, numerals, pure, Except.pure]
  | shift op operand amount =>
      cases h : amount.toWord <;> simp [toGate, numerals, h, bind, Except.bind, pure, Except.pure]

namespace Netlist

variable {net : Netlist} {id : WireId} {name : String} {done statements : List Statement}
  {statement : Statement} {schematic : Schematic} {fault : WireFault}

/-- A wire is driven by nothing exactly if it is the result of no statement. -/
theorem Realizes.driver?_eq_none_iff (h : net.Realizes statements) (hnamed : net.IsNamed id name) :
    net.driver? id = none ↔ ∀ statement ∈ statements, statement.result.name ≠ name := by
  constructor
  · rintro hnone statement hmem rfl
    rcases h.statement statement hmem with ⟨x, driver, hdriver, himplements⟩
    obtain rfl : x = id :=
      h.wellWired.eq_of_isNamed ((h.wellWired.find?_iff _ x).mp himplements.result) hnamed
    rw [hnone] at hdriver
    cases hdriver
  · intro hnew
    cases hdriver : net.driver? id with
    | none => rfl
    | some driver =>
        rcases h.driven id driver hdriver with ⟨statement, hmem, himplements⟩
        have hresult := (h.wellWired.find?_iff _ id).mp himplements.result
        exact absurd (hresult.nameOf_eq.symm.trans hnamed.nameOf_eq) (hnew statement hmem)

/-! ## Adding a statement -/

/-- What adding a statement after the statements `done` leads to. -/
inductive Adds (done : List Statement) (statement : Statement) :
    Except WireFault Netlist → Prop where
  /-- An earlier statement has the same result. -/
  | reassigned {earlier : Statement} (hmem : earlier ∈ done)
      (hname : earlier.result.name = statement.result.name) :
      Adds done statement (.error
        (.reassigned statement.result.name earlier.result.position statement.result.position))
  /-- A literal has no word. -/
  | outOfRange {fault : WireFault}
      (hnew : ∀ earlier ∈ done, earlier.result.name ≠ statement.result.name)
      (hgate : statement.expression.toGate = .error fault) : Adds done statement (.error fault)
  | added {gate : Gate Mention} {net : Netlist}
      (hnew : ∀ earlier ∈ done, earlier.result.name ≠ statement.result.name)
      (hgate : statement.expression.toGate = .ok gate) : Adds done statement (.ok net)

/-- Once a name has a number, its wire is undriven exactly if no earlier statement has the name as
its result. -/
theorem Realizes.intern_result (h : net.Realizes done) (name : String) (position : Position) :
    (net.intern name position).2.driver? (net.intern name position).1 = none ↔
      ∀ earlier ∈ done, earlier.result.name ≠ name := by
  rw [driver?_intern]
  cases hfind : net.find? name with
  | some id =>
      rw [intern_of_find?_eq_some position hfind]
      exact h.driver?_eq_none_iff ((h.wellWired.find?_iff name id).mp hfind)
  | none =>
      have hnew : net.driver? net.size = none := by
        simp [driver?, wire?_eq_none (Nat.lt_irrefl net.size)]
      simp only [intern, hfind, hnew, true_iff]
      rintro earlier hmem rfl
      have hknown := (h.mentioned earlier.result.name).mpr
        ⟨earlier, hmem, earlier.result, List.mem_cons_self, rfl⟩
      simp [hfind] at hknown

/-- If the wire of a name is driven once the name has a number, then it is the result of an earlier
statement. -/
theorem Realizes.exists_of_driver?_intern (h : net.Realizes done) (name : String)
    (position : Position) (driver : Driver)
    (hdriver : (net.intern name position).2.driver? (net.intern name position).1 = some driver) :
    ∃ earlier ∈ done, earlier.result.name = name ∧ driver.position = earlier.result.position := by
  rw [driver?_intern] at hdriver
  rcases h.driven _ driver hdriver with ⟨earlier, hmem, himplements⟩
  have hwired := h.wellWired.intern name position
  have hearlier := findsAll_intern net name position _ _ himplements.result
  have hfind := find?_intern net name position
  refine ⟨earlier, hmem, ?_, himplements.position⟩
  rw [← ((hwired.find?_iff _ _).mp hearlier).nameOf_eq,
    ((hwired.find?_iff _ _).mp hfind).nameOf_eq]

/-- Adding a statement leads to one of the three. -/
theorem Realizes.adds (h : net.Realizes done) (statement : Statement) :
    Adds done statement (net.assign statement) := by
  have hundriven := h.intern_result statement.result.name statement.result.position
  have hdriven := h.exists_of_driver?_intern statement.result.name statement.result.position
  rcases hintern : net.intern statement.result.name statement.result.position with ⟨id, net'⟩
  rw [hintern] at hundriven hdriven
  cases hdriver : net'.driver? id with
  | some driver =>
      rcases hdriven driver hdriver with ⟨earlier, hmem, hname, hposition⟩
      have hassign : net.assign statement = .error (.reassigned statement.result.name
          earlier.result.position statement.result.position) := by
        simp [Netlist.assign, hintern, hdriver, hposition]
      rw [hassign]
      exact .reassigned hmem hname
  | none =>
      have hnew := hundriven.mp hdriver
      cases hgate : statement.expression.toGate with
      | error fault =>
          have hassign : net.assign statement = .error fault := by
            simp [Netlist.assign, hintern, hdriver, hgate, bind, Except.bind]
          rw [hassign]
          exact .outOfRange hnew hgate
      | ok gate =>
          rcases hrun : (gate.mapWires internMention).run net' with ⟨numbered, later⟩
          have hassign : net.assign statement =
              .ok (later.drive id ⟨numbered, statement.result.position⟩) := by
            simp [Netlist.assign, hintern, hdriver, hgate, hrun, bind, Except.bind, pure,
              Except.pure]
          rw [hassign]
          exact .added hnew hgate

/-! ## Whole schematics -/

/-- A netlist cannot be built from the first statement on that repeats the result of an
earlier one or has a literal without a word. -/
theorem exists_of_ofSchematic_eq_error (h : ofSchematic schematic = .error fault) :
    ∃ before statement after net, schematic.statements = before ++ statement :: after ∧
      ofSchematic ⟨before⟩ = .ok net ∧ net.assign statement = .error fault ∧
      Adds before statement (.error fault) := by
  rcases exists_of_foldlM_eq_error h with ⟨before, statement, after, net, hsplit, hbefore, hassign⟩
  have hbuilt : ofSchematic ⟨before⟩ = .ok net := hbefore
  have hrealizes : net.Realizes before := realizes_ofSchematic hbuilt
  refine ⟨before, statement, after, net, hsplit, hbuilt, hassign, ?_⟩
  rw [← hassign]
  exact hrealizes.adds statement

/-- A statement that is added has a result of its own, and its expression describes a gate. -/
theorem Adds.extends (h : Adds done statement (.ok net))
    (hnodup : (done.map (·.result.name)).Nodup)
    (hgates : ∀ other ∈ done, ∃ gate, other.expression.toGate = .ok gate) :
    ((done ++ [statement]).map (·.result.name)).Nodup ∧
      ∀ other ∈ done ++ [statement], ∃ gate, other.expression.toGate = .ok gate := by
  cases h with
  | @added gate _ hnew hgate =>
      constructor
      · rw [List.map_append, List.map_singleton, ← List.concat_eq_append, List.nodup_concat]
        refine ⟨?_, hnodup⟩
        simpa using hnew
      · intro other hother
        rcases List.mem_append.mp hother with hother | hother
        · exact hgates other hother
        · rw [List.mem_singleton.mp hother]
          exact ⟨gate, hgate⟩

/-- A schematic becomes a netlist exactly if its statements have different results and all
of them describe gates. -/
theorem exists_ofSchematic_eq_ok_iff : (∃ net, ofSchematic schematic = .ok net) ↔
    (schematic.statements.map (·.result.name)).Nodup ∧
      ∀ statement ∈ schematic.statements, ∃ gate, statement.expression.toGate = .ok gate := by
  constructor
  · rintro ⟨net, hbuilt⟩
    refine (holds_of_foldlM_eq_ok (P := fun done net => net.Realizes done ∧
      (done.map (·.result.name)).Nodup ∧
        ∀ statement ∈ done, ∃ gate, statement.expression.toGate = .ok gate)
      ?_ ⟨realizes_empty, by simp, by simp⟩ hbuilt).2
    rintro done statement before after ⟨hrealizes, hnodup, hgates⟩ hassign
    have hadds := hrealizes.adds statement
    rw [hassign] at hadds
    exact ⟨hrealizes.assign hassign, hadds.extends hnodup hgates⟩
  · rintro ⟨hnodup, hgates⟩
    cases hbuilt : ofSchematic schematic with
    | ok net => exact ⟨net, rfl⟩
    | error fault =>
        rcases exists_of_ofSchematic_eq_error hbuilt with
          ⟨before, statement, after, _, hsplit, -, -, hadds⟩
        rw [hsplit] at hnodup hgates
        cases hadds with
        | @reassigned earlier hmem hname =>
            rw [List.map_append, List.map_cons, List.nodup_append] at hnodup
            exact absurd hname
              (hnodup.2.2 _ (List.mem_map_of_mem hmem) _ List.mem_cons_self)
        | outOfRange _ hgate =>
            rcases hgates statement (by simp) with ⟨gate, hok⟩
            rw [hgate] at hok
            cases hok

end Netlist

end BitwiseCircuit
