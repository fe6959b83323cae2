import BitwiseCircuit.Netlist.OfSchematic
import BitwiseCircuit.Proofs.Except
import BitwiseCircuit.Proofs.Netlist.Coherence

/-!
# From schematics to netlists

A netlist is built statement by statement, and a wire may be read long before it is
assigned.  This file says what the finished netlist has to do with the statements.

Main results:

- Definition `Netlist.Implements` relates a driver to the statement that it comes
  from, and `Netlist.Realizes` a netlist to a list of statements.
- Theorem `Netlist.realizes_ofSchematic`: the wires of the netlist of a schematic are
  those that it mentions, and its drivers are the statements.
-/

namespace BitwiseCircuit

/-- A literal becomes the word that its spelling is read as. -/
theorem Numeral.toWord_eq_ok_iff {numeral : Numeral} {word : Word} :
    numeral.toWord = .ok word ↔ Word.ofDecimal? numeral.spelling = some word := by
  rw [toWord]
  cases Word.ofDecimal? numeral.spelling <;> simp

namespace Expression

variable {gate : Gate Mention} {value amount : Numeral} {op : ShiftOp} {operand : Mention}

/-- The gate of a literal is a buffer of its word. -/
theorem exists_of_toGate_literal (h : (literal value).toGate = .ok gate) :
    ∃ word, value.toWord = .ok word ∧ gate = .buffer (.literal word) := by
  rcases exists_of_bind_eq_ok h with ⟨word, hword, hgate⟩
  cases hgate
  exact ⟨word, hword, rfl⟩

/-- The gate of a shift holds the word of its amount. -/
theorem exists_of_toGate_shift (h : (shift op operand amount).toGate = .ok gate) :
    ∃ word, amount.toWord = .ok word ∧ gate = .shift op (.wire operand) (.literal word) := by
  rcases exists_of_bind_eq_ok h with ⟨word, hword, hgate⟩
  cases hgate
  exact ⟨word, hword, rfl⟩

/-- The gate of an expression reads the wires that the expression reads. -/
theorem wires_of_toGate {expression : Expression} (h : expression.toGate = .ok gate) :
    gate.wires = expression.operands := by
  cases expression with
  | literal value =>
      rcases exists_of_toGate_literal h with ⟨word, _, rfl⟩
      rfl
  | wire source =>
      cases h
      rfl
  | unary op operand =>
      cases h
      rfl
  | binary op left right =>
      cases h
      rfl
  | shift op operand amount =>
      rcases exists_of_toGate_shift h with ⟨word, _, rfl⟩
      rfl

end Expression

namespace Netlist

variable {net net' later : Netlist} {id x : WireId} {name : String} {mentions : List Mention}
  {statement : Statement} {statements : List Statement} {driver : Driver}

/-! ## Looking up the mentions of a statement -/

/-- The netlist after the names of some mentions have been looked up in turn. -/
def internAll (net : Netlist) (mentions : List Mention) : Netlist :=
  mentions.foldl (fun net mention => (net.intern mention.name mention.position).2) net

@[simp]
theorem internAll_nil (net : Netlist) : net.internAll [] = net :=
  rfl

@[simp]
theorem internAll_cons (net : Netlist) (mention : Mention) (mentions : List Mention) :
    net.internAll (mention :: mentions) =
      (net.intern mention.name mention.position).2.internAll mentions :=
  rfl

private theorem internAll_append (net : Netlist) (first second : List Mention) :
    net.internAll (first ++ second) = (net.internAll first).internAll second :=
  List.foldl_append

/-- What every lookup keeps, all lookups together keep. -/
theorem internAll_induction {motive : Netlist → Prop}
    (hintern : ∀ net name position, motive net → motive (net.intern name position).2)
    (h : motive net) (mentions : List Mention) : motive (net.internAll mentions) := by
  induction mentions generalizing net with
  | nil => exact h
  | cons mention mentions ih => exact ih (hintern net mention.name mention.position h)

/-- Lookups that may add wires keep a netlist well wired. -/
theorem WellWired.internAll (h : net.WellWired) (mentions : List Mention) :
    (net.internAll mentions).WellWired :=
  internAll_induction (fun _ name position hwired => hwired.intern name position) h mentions

private theorem driver?_internAll (net : Netlist) (mentions : List Mention) (x : WireId) :
    (net.internAll mentions).driver? x = net.driver? x := by
  refine internAll_induction (motive := fun later => later.driver? x = net.driver? x)
    ?_ rfl mentions
  intro later name position hlater
  rw [driver?_intern, hlater]

private theorem value?_internAll (net : Netlist) (mentions : List Mention) (x : WireId) :
    (net.internAll mentions).value? x = net.value? x := by
  refine internAll_induction (motive := fun later => later.value? x = net.value? x)
    ?_ rfl mentions
  intro later name position hlater
  rw [value?_intern, hlater]

private theorem evaluations_internAll (net : Netlist) (mentions : List Mention) :
    (net.internAll mentions).evaluations = net.evaluations := by
  refine internAll_induction (motive := fun later => later.evaluations = net.evaluations)
    ?_ rfl mentions
  intro later name position hlater
  rw [evaluations_intern, hlater]

/-- Every name is found as before. -/
def FindsAll (net net' : Netlist) : Prop :=
  ∀ name id, net.find? name = some id → net'.find? name = some id

/-- Finding every name as before is transitive. -/
theorem FindsAll.trans {net'' : Netlist} (h : net.FindsAll net') (h' : net'.FindsAll net'') :
    net.FindsAll net'' :=
  fun name id hfind => h' name id (h name id hfind)

/-- After a lookup that may add a wire, every name is found as before. -/
theorem findsAll_intern (net : Netlist) (name : String) (position : Position) :
    net.FindsAll (net.intern name position).2 := by
  intro other id hfind
  rw [find?_intern_eq]
  split_ifs with hname
  · subst other
    rw [intern_of_find?_eq_some position hfind]
  · exact hfind

private theorem findsAll_internAll (net : Netlist) (mentions : List Mention) :
    net.FindsAll (net.internAll mentions) := by
  refine internAll_induction (fun later name position hlater => ?_) (fun _ _ h => h) mentions
  exact hlater.trans (findsAll_intern later name position)

/-- The names that are found afterwards are the old ones and the mentioned ones. -/
theorem isSome_find?_internAll (net : Netlist) (mentions : List Mention) (name : String) :
    ((net.internAll mentions).find? name).isSome ↔
      (net.find? name).isSome ∨ ∃ mention ∈ mentions, mention.name = name := by
  induction mentions generalizing net with
  | nil => simp
  | cons mention mentions ih =>
      rw [internAll_cons, ih, find?_intern_eq]
      by_cases hname : name = mention.name
      · simp [hname]
      · simp [hname, Ne.symm hname]

/-! ## The gate of a statement -/

private theorem run_bind_of_run_eq {α β : Type} {first : StateM Netlist α}
    {next : α → StateM Netlist β} {a : α} (h : first.run net = (a, net')) :
    (first >>= next).run net = (next a).run net' := by
  rw [StateT.run_bind, h]
  rfl

/-- Looking up the wire of an operand gives the number that the wire keeps. -/
theorem exists_run_mapWire (net : Netlist) (operand : Operand Mention) :
    ∃ numbered, (operand.mapWire internMention).run net =
        (numbered, net.internAll operand.wire?.toList) ∧
      ∀ later, (net.internAll operand.wire?.toList).FindsAll later →
        operand.mapWire (fun mention => later.find? mention.name) = some numbered := by
  cases operand with
  | literal value => exact ⟨.literal value, rfl, fun _ _ => rfl⟩
  | wire mention =>
      refine ⟨.wire (net.intern mention.name mention.position).1, rfl, fun later hlater => ?_⟩
      have hfind := hlater mention.name _ (find?_intern net mention.name mention.position)
      simp [Operand.mapWire, hfind]

/-- Two operands are looked up from left to right. -/
theorem exists_run_mapWire_two (net : Netlist) (left right : Operand Mention) :
    ∃ first second middle, (left.mapWire internMention).run net = (first, middle) ∧
      (right.mapWire internMention).run middle =
        (second, net.internAll (left.wire?.toList ++ right.wire?.toList)) ∧
      ∀ later, (net.internAll (left.wire?.toList ++ right.wire?.toList)).FindsAll later →
        left.mapWire (fun mention => later.find? mention.name) = some first ∧
          right.mapWire (fun mention => later.find? mention.name) = some second := by
  rcases exists_run_mapWire net left with ⟨first, hfirst, hfirstLater⟩
  rcases exists_run_mapWire (net.internAll left.wire?.toList) right with
    ⟨second, hsecond, hsecondLater⟩
  rw [← internAll_append] at hsecond hsecondLater
  refine ⟨first, second, _, hfirst, hsecond, fun later hlater => ⟨?_, hsecondLater later hlater⟩⟩
  apply hfirstLater later
  rw [internAll_append] at hlater
  exact (findsAll_internAll _ _).trans hlater

/-- Looking up the wires of a gate adds its mentions, and gives the numbers that they
keep. -/
theorem exists_run_mapWires (net : Netlist) (gate : Gate Mention) :
    ∃ numbered, (gate.mapWires internMention).run net = (numbered, net.internAll gate.wires) ∧
      ∀ later, (net.internAll gate.wires).FindsAll later →
        gate.mapWires (fun mention => later.find? mention.name) = some numbered := by
  rw [gate.wires_eq_flatMap]
  cases gate with
  | buffer input =>
      rcases exists_run_mapWire net input with ⟨numbered, hrun, hlater⟩
      refine ⟨.buffer numbered, ?_, fun later hfinds => ?_⟩
      · rw [Gate.mapWires, run_bind_of_run_eq hrun]
        simp only [Gate.operands, List.flatMap_cons, List.flatMap_nil, List.append_nil]
        rfl
      · simp [Gate.mapWires, hlater later (by simpa [Gate.operands] using hfinds)]
  | unary op input =>
      rcases exists_run_mapWire net input with ⟨numbered, hrun, hlater⟩
      refine ⟨.unary op numbered, ?_, fun later hfinds => ?_⟩
      · rw [Gate.mapWires, run_bind_of_run_eq hrun]
        simp only [Gate.operands, List.flatMap_cons, List.flatMap_nil, List.append_nil]
        rfl
      · simp [Gate.mapWires, hlater later (by simpa [Gate.operands] using hfinds)]
  | binary op left right =>
      rcases exists_run_mapWire_two net left right with
        ⟨first, second, middle, hleft, hright, hlater⟩
      refine ⟨.binary op first second, ?_, fun later hfinds => ?_⟩
      · rw [Gate.mapWires, run_bind_of_run_eq hleft, run_bind_of_run_eq hright]
        simp only [Gate.operands, List.flatMap_cons, List.flatMap_nil, List.append_nil]
        rfl
      · rcases hlater later (by simpa [Gate.operands] using hfinds) with ⟨hfirst, hsecond⟩
        simp [Gate.mapWires, hfirst, hsecond]
  | shift op input amount =>
      rcases exists_run_mapWire_two net input amount with
        ⟨first, second, middle, hleft, hright, hlater⟩
      refine ⟨.shift op first second, ?_, fun later hfinds => ?_⟩
      · rw [Gate.mapWires, run_bind_of_run_eq hleft, run_bind_of_run_eq hright]
        simp only [Gate.operands, List.flatMap_cons, List.flatMap_nil, List.append_nil]
        rfl
      · rcases hlater later (by simpa [Gate.operands] using hfinds) with ⟨hfirst, hsecond⟩
        simp [Gate.mapWires, hfirst, hsecond]

/-- The wire `id` is the result of a statement, and `driver` is its gate with the
numbers of the wires in place of their names. -/
structure Implements (net : Netlist) (statement : Statement) (id : WireId) (driver : Driver) :
    Prop where
  result : net.find? statement.result.name = some id
  position : driver.position = statement.result.position
  gate : ∃ gate, statement.expression.toGate = .ok gate ∧
    gate.Renamed (fun mention => net.find? mention.name) driver.gate

/-- What a statement does when it is added: its mentions are looked up, and its result
is driven, which nothing drove before. -/
theorem exists_of_assign (h : net.assign statement = .ok net') :
    ∃ id driver, net.driver? id = none ∧ net' = (net.internAll statement.mentions).drive id driver ∧
      ∀ later, (net.internAll statement.mentions).FindsAll later →
        later.Implements statement id driver := by
  rcases hintern : net.intern statement.result.name statement.result.position with ⟨id, result⟩
  have hresult : result = (net.intern statement.result.name statement.result.position).2 := by
    rw [hintern]
  have hdriver : result.driver? id = net.driver? id := by rw [hresult, driver?_intern]
  simp only [assign, hintern, hdriver] at h
  split at h
  · cases h
  · rename_i hnone
    rcases exists_of_bind_eq_ok h with ⟨gate, hgate, hassigned⟩
    rcases exists_run_mapWires result gate with ⟨numbered, hrun, hlater⟩
    have hall : net.internAll statement.mentions = result.internAll gate.wires := by
      rw [Statement.mentions, internAll_cons, ← hresult, Expression.wires_of_toGate hgate]
    rw [← hall] at hrun hlater
    simp only [hrun, pure, Except.pure, Except.ok.injEq] at hassigned
    refine ⟨id, ⟨numbered, statement.result.position⟩, hnone, hassigned.symm,
      fun later hfinds => ?_⟩
    have hid : result.find? statement.result.name = some id := by
      rw [hresult, find?_intern, hintern]
    have hfindsResult : result.FindsAll later := by
      rw [hall] at hfinds
      exact (findsAll_internAll result gate.wires).trans hfinds
    exact ⟨hfindsResult _ _ hid, rfl, gate, hgate,
      Gate.mapWires_eq_some_iff.mp (hlater later hfinds)⟩

/-! ## Adding statements one by one -/

/-- The netlist consists of the wires that some statements mention and of the drivers
that they describe, and nothing has been computed. -/
structure Realizes (net : Netlist) (statements : List Statement) : Prop where
  wellWired : net.WellWired
  value : ∀ id, net.value? id = none
  evaluations : net.evaluations = 0
  mentioned : ∀ name, (net.find? name).isSome ↔
    ∃ statement ∈ statements, ∃ mention ∈ statement.mentions, mention.name = name
  driven : ∀ id driver, net.driver? id = some driver →
    ∃ statement ∈ statements, net.Implements statement id driver
  statement : ∀ statement ∈ statements,
    ∃ id driver, net.driver? id = some driver ∧ net.Implements statement id driver

/-- The netlist without wires realizes no statements. -/
theorem realizes_empty : empty.Realizes [] where
  wellWired := wellWired_empty
  value id := by simp [value?, wire?, empty]
  evaluations := rfl
  mentioned name := by simp [find?, empty]
  driven id driver hdriver := by simp [driver?, wire?, empty] at hdriver
  statement := by simp

/-- Driving a wire changes the driver of that wire alone. -/
theorem driver?_drive (hlt : id < net.size) (driver : Driver) (x : WireId) :
    (net.drive id driver).driver? x = if x = id then some driver else net.driver? x := by
  rcases exists_wire_of_lt hlt with ⟨wire, hwire⟩
  simp only [driver?, wire?_drive]
  by_cases hx : x = id
  · subst x
    simp [hwire]
  · simp [hx, Ne.symm hx]

/-- Driving a wire changes no word. -/
theorem value?_drive (net : Netlist) (id : WireId) (driver : Driver) (x : WireId) :
    (net.drive id driver).value? x = net.value? x := by
  simp only [value?, wire?_drive]
  split_ifs
  · cases net.wire? x <;> rfl
  · rfl

/-- A statement stays implemented as long as every name is found as before. -/
theorem Implements.mono (h : net.Implements statement id driver) (hfinds : net.FindsAll net') :
    net'.Implements statement id driver := by
  rcases h.gate with ⟨gate, hgate, hrenamed⟩
  refine ⟨hfinds _ _ h.result, h.position, gate, hgate, hrenamed.mono ?_⟩
  intro mention id hfind
  exact hfinds mention.name id hfind

/-- The gate of a statement reads wires that are found by name. -/
theorem Implements.exists_find? (h : net.Implements statement id driver)
    (hx : x ∈ driver.gate.wires) : ∃ name, net.find? name = some x := by
  rcases h.gate with ⟨gate, _, hrenamed⟩
  have hmem : some x ∈ driver.gate.wires.map some := List.mem_map_of_mem hx
  rw [← hrenamed.map_wires] at hmem
  rcases List.mem_map.mp hmem with ⟨mention, _, hfind⟩
  exact ⟨mention.name, hfind⟩

/-- Driving a wire keeps the wiring consistent if the gate reads wires that exist. -/
theorem WellWired.drive (h : net.WellWired) (hlt : id < net.size)
    (hwires : ∀ y ∈ driver.gate.wires, y < net.size) : (net.drive id driver).WellWired := by
  constructor
  · intro name x
    rw [find?_drive, h.find?_iff, IsNamed, IsNamed, wire?_drive]
    split_ifs with hx
    · subst x
      simp
    · rfl
  · rintro x y ⟨driver', hdriver, hmem⟩
    rw [size_drive]
    rw [driver?_drive hlt] at hdriver
    split_ifs at hdriver with hx
    · obtain rfl := Option.some.inj hdriver
      exact hwires y hmem
    · exact h.operand_lt x y ⟨driver', hdriver, hmem⟩

/-- Adding a statement adds its mentions and its driver. -/
theorem Realizes.assign (h : net.Realizes statements) (hassign : net.assign statement = .ok net') :
    net'.Realizes (statements ++ [statement]) := by
  rcases exists_of_assign hassign with ⟨id, driver, hnone, rfl, himplements⟩
  have hnew : ((net.internAll statement.mentions).drive id driver).Implements statement id driver :=
    himplements _ fun _ _ hfind => hfind
  have hwired := h.wellWired.internAll statement.mentions
  have hlt : id < (net.internAll statement.mentions).size :=
    hwired.lt_size_of_find? hnew.result
  have hdriver : ∀ x, ((net.internAll statement.mentions).drive id driver).driver? x =
      if x = id then some driver else net.driver? x := by
    intro x
    rw [driver?_drive hlt, driver?_internAll]
  have hfinds : net.FindsAll ((net.internAll statement.mentions).drive id driver) :=
    findsAll_internAll net statement.mentions
  constructor
  · apply hwired.drive hlt
    intro y hy
    rcases hnew.exists_find? hy with ⟨name, hfind⟩
    exact hwired.lt_size_of_find? hfind
  · intro x
    rw [value?_drive, value?_internAll]
    exact h.value x
  · exact (evaluations_internAll net statement.mentions).trans h.evaluations
  · intro name
    rw [find?_drive, isSome_find?_internAll, h.mentioned]
    simp [or_and_right, exists_or]
  · intro x other hother
    rw [hdriver] at hother
    split_ifs at hother with hx
    · cases hother
      subst x
      exact ⟨statement, by simp, hnew⟩
    · rcases h.driven x other hother with ⟨earlier, hmem, hearlier⟩
      exact ⟨earlier, List.mem_append_left _ hmem, hearlier.mono hfinds⟩
  · intro earlier hmem
    rcases List.mem_append.mp hmem with hmem | hmem
    · rcases h.statement earlier hmem with ⟨x, other, hother, hearlier⟩
      have hx : x ≠ id := by
        rintro rfl
        simp [hnone] at hother
      refine ⟨x, other, ?_, hearlier.mono hfinds⟩
      rw [hdriver, if_neg hx, hother]
    · rw [List.mem_singleton.mp hmem]
      refine ⟨id, driver, ?_, hnew⟩
      rw [hdriver, if_pos rfl]

/-- The netlist of a schematic consists of the wires that the schematic mentions and of
the drivers that its statements describe. -/
theorem realizes_ofSchematic {schematic : Schematic} (h : ofSchematic schematic = .ok net) :
    net.Realizes schematic.statements := by
  refine holds_of_foldlM_eq_ok (P := fun done net => net.Realizes done) ?_ realizes_empty h
  intro done statement before after hbefore hassign
  exact hbefore.assign hassign

end Netlist

end BitwiseCircuit
