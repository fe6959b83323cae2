import BitwiseCircuit.Proofs.Netlist.Acceptance
import BitwiseCircuit.Proofs.Word.Range

/-!
# Which statement a netlist is refused for

The statements of a schematic can be checked one after the other without a netlist: for each of
them, its result and its literals have to be compared with the results of those before it.

Main results:

- Definition `Acceptable` describes the statements that become a netlist, and `Refuses` what is
  wrong with a statement that follows some others.
- Theorem `Netlist.Realizes.assign_eq_error_iff`: adding one statement fails for what is wrong
  with it.
- Theorem `Netlist.ofSchematic_refuses_first`: a netlist is built from acceptable statements, and
  refused for the first statement with which they stop being acceptable.
-/

namespace BitwiseCircuit

variable {numeral : Numeral} {expression : Expression} {fault fault' : WireFault}
  {before done statements statements' : List Statement} {statement statement' : Statement}

/-! ## Literals in range -/

/-- The literal writes a number below 65536. -/
def Numeral.InRange (numeral : Numeral) : Prop :=
  Word.InRange numeral.spelling

instance (numeral : Numeral) : Decidable numeral.InRange :=
  inferInstanceAs (Decidable (Word.InRange numeral.spelling))

/-- A literal is refused exactly if it is out of range, and with its spelling and its place. -/
theorem Numeral.toWord_eq_error_iff : numeral.toWord = .error fault ↔
    ¬ numeral.InRange ∧ fault = .literalOutOfRange numeral.spelling numeral.position := by
  rw [InRange, ← Word.exists_ofDecimal?_iff, toWord]
  cases Word.ofDecimal? numeral.spelling with
  | some word => simp
  | none => simp [eq_comm]

namespace Expression

/-- An expression has one literal at most. -/
theorem eq_of_mem_numerals {numeral' : Numeral} (h : numeral ∈ expression.numerals)
    (h' : numeral' ∈ expression.numerals) : numeral = numeral' := by
  cases expression <;> simp_all [numerals]

/-- An expression describes no gate exactly if its literal is out of range. -/
theorem toGate_eq_error_iff_not_inRange : expression.toGate = .error fault ↔
    ∃ numeral ∈ expression.numerals, ¬ numeral.InRange ∧
      fault = .literalOutOfRange numeral.spelling numeral.position := by
  rw [toGate_eq_error_iff]
  simp only [Numeral.toWord_eq_error_iff]

/-- An expression describes a gate exactly if its literal is in range. -/
theorem exists_toGate_eq_ok_iff : (∃ gate, expression.toGate = .ok gate) ↔
    ∀ numeral ∈ expression.numerals, numeral.InRange := by
  constructor
  · rintro ⟨gate, hgate⟩ numeral hmem
    by_contra hrange
    have hfault := toGate_eq_error_iff_not_inRange.mpr ⟨numeral, hmem, hrange, rfl⟩
    rw [hgate] at hfault
    cases hfault
  · intro h
    cases hgate : expression.toGate with
    | ok gate => exact ⟨gate, rfl⟩
    | error fault =>
        rcases toGate_eq_error_iff_not_inRange.mp hgate with ⟨numeral, hmem, hrange, -⟩
        exact absurd (h numeral hmem) hrange

end Expression

/-! ## Statements in order -/

/-- The statements drive different wires, and their literals are in range. -/
structure Acceptable (statements : List Statement) : Prop where
  results : (statements.map (·.result.name)).Nodup
  literals : ∀ statement ∈ statements, ∀ numeral ∈ statement.expression.numerals, numeral.InRange

/-- What is wrong with a statement after the statements `done`: exactly one of them has the same
result or, if none has, a literal of the statement is out of range. -/
inductive Refuses (done : List Statement) (statement : Statement) : WireFault → Prop where
  | reassigned {earlier : Statement} (hmem : earlier ∈ done)
      (hname : earlier.result.name = statement.result.name)
      (hone : ∀ other ∈ done, other.result.name = statement.result.name → other = earlier) :
      Refuses done statement
        (.reassigned statement.result.name earlier.result.position statement.result.position)
  | outOfRange {numeral : Numeral}
      (hnew : ∀ earlier ∈ done, earlier.result.name ≠ statement.result.name)
      (hmem : numeral ∈ statement.expression.numerals) (hrange : ¬ numeral.InRange) :
      Refuses done statement (.literalOutOfRange numeral.spelling numeral.position)

/-- One thing at most is wrong with a statement. -/
theorem Refuses.eq (h : Refuses done statement fault) (h' : Refuses done statement fault') :
    fault = fault' := by
  cases h with
  | reassigned hmem hname hone =>
      cases h' with
      | reassigned hmem' hname' _ => rw [hone _ hmem' hname']
      | outOfRange hnew' _ _ => exact absurd hname (hnew' _ hmem)
  | outOfRange hnew hmem _ =>
      cases h' with
      | reassigned hmem' hname' _ => exact absurd hname' (hnew _ hmem')
      | outOfRange _ hmem' _ => rw [Expression.eq_of_mem_numerals hmem hmem']

/-- A statement that repeats one of the results of acceptable statements is refused for that. -/
theorem Acceptable.refuses (h : Acceptable done) {earlier : Statement} (hmem : earlier ∈ done)
    (hname : earlier.result.name = statement.result.name) : Refuses done statement
      (.reassigned statement.result.name earlier.result.position statement.result.position) :=
  .reassigned hmem hname fun _ hother hother' =>
    List.inj_on_of_nodup_map h.results hother hmem (hother'.trans hname.symm)

/-! ## What is checked of a statement -/

/-- What is checked of a statement while a netlist is built: its result and its literals, but not
the wires that it reads. -/
def Statement.checked (statement : Statement) : Mention × List Numeral :=
  (statement.result, statement.expression.numerals)

private theorem Statement.checked_eq_iff : statement.checked = statement'.checked ↔
    statement.result = statement'.result ∧
      statement.expression.numerals = statement'.expression.numerals :=
  Prod.mk_inj

private theorem exists_of_map_checked
    (hsame : statements.map Statement.checked = statements'.map Statement.checked)
    (hmem : statement ∈ statements) : ∃ other ∈ statements', other.result = statement.result ∧
      other.expression.numerals = statement.expression.numerals := by
  have hchecked := List.mem_map_of_mem (f := Statement.checked) hmem
  rw [hsame] at hchecked
  rcases List.mem_map.mp hchecked with ⟨other, hother, heq⟩
  exact ⟨other, hother, Statement.checked_eq_iff.mp heq⟩

/-- Whether statements are acceptable depends on their results and their literals alone. -/
theorem Acceptable.congr (h : Acceptable statements)
    (hsame : statements.map Statement.checked = statements'.map Statement.checked) :
    Acceptable statements' where
  results := by
    have hnames := congrArg (List.map fun checked => checked.1.name) hsame
    rw [List.map_map, List.map_map] at hnames
    exact hnames ▸ h.results
  literals := by
    intro statement hstatement
    rcases exists_of_map_checked hsame.symm hstatement with ⟨other, hother, -, hnumerals⟩
    exact hnumerals ▸ h.literals other hother

/-- How a statement is refused depends on the results and on its literals alone. -/
theorem Refuses.congr (h : Refuses done statement fault)
    (hsame : done.map Statement.checked = statements.map Statement.checked)
    (hstatement : statement.checked = statement'.checked) (hstatements : Acceptable statements) :
    Refuses statements statement' fault := by
  rcases Statement.checked_eq_iff.mp hstatement with ⟨hresult, hnumerals⟩
  cases h with
  | reassigned hmem hname _ =>
      rcases exists_of_map_checked hsame hmem with ⟨other, hother, hother', -⟩
      rw [hresult] at hname ⊢
      rw [← hother'] at hname ⊢
      exact hstatements.refuses hother hname
  | outOfRange hnew hmem hrange =>
      refine .outOfRange (fun other hother => ?_) (hnumerals ▸ hmem) hrange
      rcases exists_of_map_checked hsame.symm hother with ⟨earlier, hearlier, hearlier', -⟩
      rw [← hearlier', ← hresult]
      exact hnew earlier hearlier

namespace Netlist

variable {net : Netlist} {schematic : Schematic}

/-- A statement that cannot be added after acceptable ones is refused. -/
theorem Adds.refuses (h : Adds done statement (.error fault)) (hdone : Acceptable done) :
    Refuses done statement fault := by
  cases h with
  | reassigned hmem hname => exact hdone.refuses hmem hname
  | outOfRange hnew hgate =>
      rcases Expression.toGate_eq_error_iff_not_inRange.mp hgate with ⟨numeral, hmem, hrange, rfl⟩
      exact .outOfRange hnew hmem hrange

/-- A statement that can be added is not refused. -/
theorem Adds.not_refuses (h : Adds done statement (.ok net)) :
    ¬ Refuses done statement fault := by
  cases h with
  | added hnew hgate =>
      intro hrefuses
      cases hrefuses with
      | reassigned hmem hname _ => exact hnew _ hmem hname
      | outOfRange _ hmem hrange =>
          exact hrange (Expression.exists_toGate_eq_ok_iff.mp ⟨_, hgate⟩ _ hmem)

/-- Adding a statement fails exactly for what is wrong with it. -/
theorem Realizes.assign_eq_error_iff (h : net.Realizes done) (hdone : Acceptable done) :
    net.assign statement = .error fault ↔ Refuses done statement fault := by
  have hadds := h.adds statement
  constructor
  · intro hfault
    rw [hfault] at hadds
    exact hadds.refuses hdone
  · intro hrefuses
    cases hresult : net.assign statement with
    | ok net' =>
        rw [hresult] at hadds
        exact absurd hrefuses hadds.not_refuses
    | error fault' =>
        rw [hresult] at hadds
        exact congrArg Except.error ((hadds.refuses hdone).eq hrefuses)

/-- A netlist is built exactly from acceptable statements. -/
theorem exists_ofSchematic_eq_ok_iff_acceptable :
    (∃ net, ofSchematic schematic = .ok net) ↔ Acceptable schematic.statements := by
  rw [exists_ofSchematic_eq_ok_iff]
  simp only [Expression.exists_toGate_eq_ok_iff]
  exact ⟨fun h => ⟨h.1, h.2⟩, fun h => ⟨h.results, h.literals⟩⟩

/-- The statement that cannot be added decides the fault, whatever follows it. -/
theorem ofSchematic_eq_error_of_refuses (hbefore : Acceptable before)
    (hrefuses : Refuses before statement fault) (after : List Statement) :
    ofSchematic ⟨before ++ statement :: after⟩ = .error fault := by
  rcases (@exists_ofSchematic_eq_ok_iff_acceptable ⟨before⟩).mpr hbefore with ⟨net, hbuilt⟩
  have hassign : net.assign statement = .error fault :=
    ((realizes_ofSchematic hbuilt).assign_eq_error_iff hbefore).mpr hrefuses
  have hfirst : before.foldlM assign empty = .ok net := hbuilt
  rw [ofSchematic, List.foldlM_append, hfirst]
  exact congrArg (· >>= fun net => after.foldlM assign net) hassign

/-- A netlist is refused for the first statement that cannot be added. -/
theorem ofSchematic_eq_error_iff : ofSchematic schematic = .error fault ↔
    ∃ before statement after, schematic.statements = before ++ statement :: after ∧
      Acceptable before ∧ Refuses before statement fault := by
  constructor
  · intro hfault
    rcases exists_of_ofSchematic_eq_error hfault with
      ⟨before, statement, after, net, hsplit, hbuilt, hassign, -⟩
    have hbefore : Acceptable before :=
      (@exists_ofSchematic_eq_ok_iff_acceptable ⟨before⟩).mp ⟨net, hbuilt⟩
    exact ⟨before, statement, after, hsplit, hbefore,
      ((realizes_ofSchematic hbuilt).assign_eq_error_iff hbefore).mp hassign⟩
  · rintro ⟨before, statement, after, hsplit, hbefore, hrefuses⟩
    rcases schematic with ⟨statements⟩
    obtain rfl : statements = before ++ statement :: after := hsplit
    exact ofSchematic_eq_error_of_refuses hbefore hrefuses after

private theorem ofSchematic_eq_error_congr {other : Schematic}
    (hsame : schematic.statements.map Statement.checked = other.statements.map Statement.checked)
    (h : ofSchematic schematic = .error fault) : ofSchematic other = .error fault := by
  rcases ofSchematic_eq_error_iff.mp h with
    ⟨before, statement, after, hsplit, hbefore, hrefuses⟩
  rw [hsplit, List.map_append, List.map_cons] at hsame
  rcases List.map_eq_append_iff.mp hsame.symm with ⟨before', rest, hsplit', hsame', hrest⟩
  rcases List.map_eq_cons_iff.mp hrest with ⟨statement', after', rfl, hstatement, -⟩
  have hbefore' := hbefore.congr hsame'.symm
  exact ofSchematic_eq_error_iff.mpr ⟨before', statement', after', hsplit', hbefore',
    hrefuses.congr hsame'.symm hstatement.symm hbefore'⟩

/-- A netlist is built exactly from statements with different results and literals in range.
Otherwise it is refused for the first statement that repeats a result or has a literal out of
range, and for the former if it does both.  What follows that statement plays no part, nor does
what any statement reads: a wire that nothing drives, or one that depends on itself, is no
reason to refuse a netlist. -/
theorem ofSchematic_refuses_first (schematic : Schematic) :
    ((∃ net, ofSchematic schematic = .ok net) ↔ Acceptable schematic.statements) ∧
    (∀ fault, ofSchematic schematic = .error fault ↔
      ∃ before statement after, schematic.statements = before ++ statement :: after ∧
        Acceptable before ∧ Refuses before statement fault) ∧
    (∀ before statement fault, Acceptable before → Refuses before statement fault →
      ∀ later, ofSchematic ⟨before ++ statement :: later⟩ = .error fault) ∧
    ∀ other : Schematic,
      other.statements.map Statement.checked = schematic.statements.map Statement.checked →
        ∀ fault, ofSchematic other = .error fault ↔ ofSchematic schematic = .error fault :=
  ⟨exists_ofSchematic_eq_ok_iff_acceptable, fun _ => ofSchematic_eq_error_iff,
    fun _ _ _ hbefore hrefuses => ofSchematic_eq_error_of_refuses hbefore hrefuses,
    fun _ hsame _ => ⟨ofSchematic_eq_error_congr hsame, ofSchematic_eq_error_congr hsame.symm⟩⟩

/-- Both things are wrong with the second statement, and the wire of the first one depends on
itself, or on wires that nothing drives. -/
theorem doubled_refuses_first :
    (∀ later, ofSchematic ⟨⟨.unary .not ⟨"x", ⟨1, 5⟩⟩, ⟨"x", ⟨1, 10⟩⟩⟩ ::
      ⟨.literal ⟨"70000", ⟨2, 1⟩⟩, ⟨"x", ⟨2, 10⟩⟩⟩ :: later⟩ =
        .error (.reassigned "x" ⟨1, 10⟩ ⟨2, 10⟩)) ∧
    ofSchematic ⟨[⟨.binary .and ⟨"p", ⟨1, 1⟩⟩ ⟨"q", ⟨1, 7⟩⟩, ⟨"x", ⟨1, 10⟩⟩⟩,
      ⟨.literal ⟨"70000", ⟨2, 1⟩⟩, ⟨"x", ⟨2, 10⟩⟩⟩]⟩ =
        .error (.reassigned "x" ⟨1, 10⟩ ⟨2, 10⟩) := by
  have hacceptable : Acceptable [⟨.unary .not ⟨"x", ⟨1, 5⟩⟩, ⟨"x", ⟨1, 10⟩⟩⟩] :=
    ⟨by simp, by simp [Expression.numerals]⟩
  have hrefuses : Refuses [⟨.unary .not ⟨"x", ⟨1, 5⟩⟩, ⟨"x", ⟨1, 10⟩⟩⟩]
      ⟨.literal ⟨"70000", ⟨2, 1⟩⟩, ⟨"x", ⟨2, 10⟩⟩⟩ (.reassigned "x" ⟨1, 10⟩ ⟨2, 10⟩) :=
    .reassigned List.mem_cons_self rfl (by simp)
  have hlater := (ofSchematic_refuses_first ⟨[]⟩).2.2.1 _ _ _ hacceptable hrefuses
  refine ⟨hlater, ?_⟩
  exact ((ofSchematic_refuses_first _).2.2.2 _ rfl _).mpr (hlater [])

end Netlist

end BitwiseCircuit
