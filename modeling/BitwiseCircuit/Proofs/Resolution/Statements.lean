import BitwiseCircuit.Proofs.Netlist.Acceptance
import BitwiseCircuit.Proofs.Resolution.Pointwise
import BitwiseCircuit.Proofs.Search.Relabelling

/-!
# Statements in other orders and among others

Wires are numbered as the statements mention them, so the order of the statements shows in
all the tables of a netlist.  It does not show in what a name resolves to.  Neither does a
further statement, unless the search fails at the very wire that the statement drives.

Main results:

- Definition `WireFault.withoutMention` forgets where a wire is first mentioned, which is all
  that may differ.
- Theorem `Netlist.Realizes.relabels`: the wires of some statements are among the wires of more
  statements, under other numbers.
- Theorem `Netlist.Realizes.resolve_of_subset`: so a name resolves to the same for both.
- Theorem `Netlist.resolve_perm`: the order of statements is insignificant.
- Theorem `Netlist.resolve_insert`: adding a statement is local.
-/

namespace BitwiseCircuit

/-- The fault without the place where its wire is first mentioned. -/
def WireFault.withoutMention : WireFault → WireFault
  | undefined name _ => undefined name none
  | reassigned name first second => reassigned name first second
  | cyclic name cycle position => cyclic name cycle position
  | literalOutOfRange spelling position => literalOutOfRange spelling position

private theorem WireFault.Corresponds.withoutMention_eq {mentioned : Position → Position → Prop}
    {fault fault' : WireFault} (h : fault.Corresponds id Eq mentioned fault') :
    fault.withoutMention = fault'.withoutMention := by
  cases h with
  | undefined hplace => rfl
  | cyclic hplace => rw [hplace, List.map_id, id]

private theorem WireFault.eq_cyclic_of_withoutMention {fault : WireFault} {name : String}
    {cycle : List String} {position : Position}
    (h : fault.withoutMention = cyclic name cycle position) :
    fault = cyclic name cycle position := by
  cases fault with
  | undefined other place => cases h
  | reassigned other first second => cases h
  | cyclic other others place => exact h
  | literalOutOfRange spelling place => cases h

namespace Netlist

variable {net net' : Netlist} {x y : WireId} {name : String} {statement : Statement}
  {statements statements' before after : List Statement}

/-! ## Wires of the same names -/

/-- The number that `net'` gives to the wire which has the number `x` in `net`. -/
def numberIn (net net' : Netlist) (x : WireId) : WireId :=
  (net'.find? (net.nameOf x)).getD 0

private theorem numberIn_eq (hnamed : net.IsNamed x name) (hfind : net'.find? name = some y) :
    net.numberIn net' x = y := by
  rw [numberIn, hnamed.nameOf_eq, hfind, Option.getD_some]

/-- A netlist that realizes statements has no words yet, so it is coherent. -/
theorem Realizes.coherent (h : net.Realizes statements) : net.Coherent :=
  h.wellWired.coherent h.value h.evaluations

private theorem Realizes.isSome_find?_of_subset (h : net.Realizes statements)
    (h' : net'.Realizes statements') (hsubset : statements ⊆ statements')
    (hfind : (net.find? name).isSome) : (net'.find? name).isSome := by
  rcases (h.mentioned name).mp hfind with ⟨statement, hmem, hmention⟩
  exact (h'.mentioned name).mpr ⟨statement, hsubset hmem, hmention⟩

/-- A wire has its name under its other number too. -/
theorem Realizes.isNamed_numberIn (h : net.Realizes statements) (h' : net'.Realizes statements')
    (hsubset : statements ⊆ statements') (hnamed : net.IsNamed x name) :
    net'.IsNamed (net.numberIn net' x) name := by
  have hfind : (net.find? name).isSome := by
    rw [(h.wellWired.find?_iff name x).mpr hnamed, Option.isSome_some]
  rcases Option.isSome_iff_exists.mp (h.isSome_find?_of_subset h' hsubset hfind) with ⟨y, hy⟩
  rw [numberIn_eq hnamed hy]
  exact (h'.wellWired.find?_iff name y).mp hy

/-- Both netlists implement a statement by the same gate, each under its own numbers. -/
theorem Implements.gate_eq {driver driver' : Driver} (hwired : net.WellWired)
    (h : net.Implements statement x driver) (h' : net'.Implements statement y driver') :
    driver'.gate = driver.gate.map (net.numberIn net') := by
  rcases h.gate with ⟨gate, hgate, hrenamed⟩
  rcases h'.gate with ⟨gate', hgate', hrenamed'⟩
  obtain rfl : gate = gate' := Except.ok.inj (hgate.symm.trans hgate')
  calc
    driver'.gate = driver'.gate.map fun y => y := (Gate.map_eq_self fun _ _ => rfl).symm
    _ = gate.map fun mention => (net'.find? mention.name).getD 0 := by
      refine (hrenamed'.map_eq fun mention _ y hy => ?_).symm
      rw [hy, Option.getD_some]
    _ = driver.gate.map (net.numberIn net') := by
      refine hrenamed.map_eq fun mention _ x hx => ?_
      rw [numberIn, ((hwired.find?_iff _ x).mp hx).nameOf_eq]

/-- The wires of some statements are wires of all statements that include these. -/
theorem Realizes.relabels (h : net.Realizes statements) (h' : net'.Realizes statements')
    (hsubset : statements ⊆ statements') :
    net.Relabels id Eq (fun _ _ => True) (net.numberIn net') net' where
  injective x hx y hy heq := by
    have hnamed := h.isNamed_numberIn h' hsubset (isNamed_nameOf hx)
    have hnamed' := h.isNamed_numberIn h' hsubset (isNamed_nameOf hy)
    rw [heq] at hnamed
    have hname : net.nameOf x = net.nameOf y := hnamed.nameOf_eq.symm.trans hnamed'.nameOf_eq
    have hx' := isNamed_nameOf hx
    rw [hname] at hx'
    exact h.wellWired.eq_of_isNamed hx' (isNamed_nameOf hy)
  wire x wire hwire := by
    rcases h.isNamed_numberIn h' hsubset ⟨wire, hwire, rfl⟩ with ⟨wire', hwire', hname⟩
    exact ⟨wire', hwire', hname, trivial⟩
  driver x driver hdriver := by
    rcases h.driven x driver hdriver with ⟨statement, hmem, himplements⟩
    rcases h'.statement statement (hsubset hmem) with ⟨y, driver', hdriver', himplements'⟩
    have hnamed := (h.wellWired.find?_iff _ x).mp himplements.result
    refine ⟨driver', ?_, himplements.gate_eq h.wellWired himplements', ?_⟩
    · rw [numberIn_eq hnamed himplements'.result, hdriver']
    · rw [himplements.position, himplements'.position]

/-! ## Resolving for some statements and for more -/

/-- A wire that nothing drives does not resolve. -/
theorem Coherent.search_of_driver?_eq_none (h : net.Coherent) {wire : Wire}
    (hwire : net.wire? x = some wire) (hdriver : wire.driver = none) :
    (net.search x).1 = .error wire.undefined :=
  (h.yields (lt_size_of_wire? hwire)).unique (.fault (.undriven hwire hdriver))

/-- A name that is unknown stays undefined among statements that drive no wire of that name. -/
theorem Realizes.resolve_of_find?_eq_none (h' : net'.Realizes statements')
    (hfind : net.find? name = none)
    (hundriven : ∀ statement ∈ statements', statement.result.name ≠ name) :
    ((resolve name).on net).1.mapError WireFault.withoutMention =
      ((resolve name).on net').1.mapError WireFault.withoutMention := by
  rw [on_resolve_of_find?_eq_none hfind]
  cases hfind' : net'.find? name with
  | none => rw [on_resolve_of_find?_eq_none hfind']
  | some y =>
      have hnamed' := (h'.wellWired.find?_iff name y).mp hfind'
      have hnone := (h'.driver?_eq_none_iff hnamed').mpr hundriven
      rcases hnamed' with ⟨wire, hwire, hname⟩
      rw [driver?_of_wire? hwire] at hnone
      rw [on_resolve_of_find?_eq_some hfind', h'.coherent.search_of_driver?_eq_none hwire hnone,
        Wire.undefined, hname]
      rfl

/-- A name resolves to the same once there are more statements, unless it fails at a wire
that is the result of one of the new ones. -/
theorem Realizes.resolve_of_subset (h : net.Realizes statements) (h' : net'.Realizes statements')
    (hsubset : statements ⊆ statements')
    (hnew : ∀ statement ∈ statements', statement ∉ statements → ∀ position,
      ((resolve name).on net).1 ≠ .error (.undefined statement.result.name position)) :
    ((resolve name).on net).1.mapError WireFault.withoutMention =
      ((resolve name).on net').1.mapError WireFault.withoutMention := by
  have hrelabels := h.relabels h' hsubset
  -- a wire at which the name fails is driven by no new statement either
  have hopen : ∀ other position, ((resolve name).on net).1 = .error (.undefined other position) →
      (∀ statement ∈ statements, statement.result.name ≠ other) →
      ∀ statement ∈ statements', statement.result.name ≠ other := by
    rintro other position hresult hold statement hmem rfl
    by_cases hstatement : statement ∈ statements
    · exact hold statement hstatement rfl
    · exact hnew statement hmem hstatement position hresult
  cases hfind : net.find? name with
  | some x =>
      have hnamed := (h.wellWired.find?_iff name x).mp hfind
      have hnamed' := h.isNamed_numberIn h' hsubset hnamed
      have hfind' := (h'.wellWired.find?_iff name _).mpr hnamed'
      rw [on_resolve_of_find?_eq_some hfind] at hopen
      rw [on_resolve_of_find?_eq_some hfind, on_resolve_of_find?_eq_some hfind']
      refine hrelabels.search_mapError_eq (fun _ _ h => h.withoutMention_eq) h.coherent
        h'.coherent hnamed.lt_size ?_
      intro y wire hwire hdriver hsearch
      have hnamed : net.IsNamed y wire.name := ⟨wire, hwire, rfl⟩
      have hnone : net.driver? y = none := by rw [driver?_of_wire? hwire, hdriver]
      rw [h'.driver?_eq_none_iff (h.isNamed_numberIn h' hsubset hnamed)]
      exact hopen wire.name _ hsearch ((h.driver?_eq_none_iff hnamed).mp hnone)
  | none =>
      have hold : ∀ statement ∈ statements, statement.result.name ≠ name := by
        rintro statement hmem rfl
        have hknown := (h.mentioned statement.result.name).mpr
          ⟨statement, hmem, statement.result, List.mem_cons_self, rfl⟩
        simp [hfind] at hknown
      have hresult : ((resolve name).on net).1 = .error (.undefined name none) := by
        rw [on_resolve_of_find?_eq_none hfind]
      exact h'.resolve_of_find?_eq_none hfind (hopen name none hresult hold)

/-! ## The order of statements -/

/-- Where every name resolves to the same, so do all wires by name. -/
theorem Coherent.resolveAll_byName_eq (h : net.Coherent) (h' : net'.Coherent)
    (hnames : ∀ name, (net.find? name).isSome ↔ (net'.find? name).isSome)
    (hresolve : ∀ name, ((resolve name).on net).1.mapError WireFault.withoutMention =
      ((resolve name).on net').1.mapError WireFault.withoutMention) :
    ((resolveAll .byName).on net).1.mapError WireFault.withoutMention =
      ((resolveAll .byName).on net').1.mapError WireFault.withoutMention := by
  have hentry : ∀ name, (net.entry name).mapError WireFault.withoutMention =
      (net'.entry name).mapError WireFault.withoutMention := by
    intro name
    rw [entry, entry, mapError_map, mapError_map, hresolve]
  rw [h.resolveAll_eq, h'.resolveAll_eq, mapError_mapM, mapError_mapM,
    h.names_listing_byName_eq h'.toWellWired hnames]
  simp only [hentry]

/-- The order of statements is insignificant: a netlist can be built from them in every order
or in none, and each name resolves to the same, and so do all wires listed by name, up to
where an undefined wire is first mentioned. -/
theorem resolve_perm (hperm : statements.Perm statements') :
    ((∃ net, ofSchematic ⟨statements⟩ = .ok net) ↔ ∃ net', ofSchematic ⟨statements'⟩ = .ok net') ∧
      ∀ net net', ofSchematic ⟨statements⟩ = .ok net → ofSchematic ⟨statements'⟩ = .ok net' →
        (∀ name, ((resolve name).on net).1.mapError WireFault.withoutMention =
          ((resolve name).on net').1.mapError WireFault.withoutMention) ∧
        ((resolveAll .byName).on net).1.mapError WireFault.withoutMention =
          ((resolveAll .byName).on net').1.mapError WireFault.withoutMention := by
  constructor
  · rw [exists_ofSchematic_eq_ok_iff, exists_ofSchematic_eq_ok_iff, (hperm.map _).nodup_iff]
    simp only [hperm.mem_iff]
  · intro net net' hbuilt hbuilt'
    have h : net.Realizes statements := realizes_ofSchematic hbuilt
    have h' : net'.Realizes statements' := realizes_ofSchematic hbuilt'
    have hresolve : ∀ name, ((resolve name).on net).1.mapError WireFault.withoutMention =
        ((resolve name).on net').1.mapError WireFault.withoutMention := by
      intro name
      refine h.resolve_of_subset h' hperm.subset fun statement hmem hnew => ?_
      exact absurd (hperm.mem_iff.mpr hmem) hnew
    refine ⟨hresolve, h.coherent.resolveAll_byName_eq h'.coherent (fun name => ?_) hresolve⟩
    rw [h.mentioned, h'.mentioned]
    simp only [hperm.mem_iff]

/-- Nothing drives the wire `u`, which `x` and `z` read; `z` also reads the constant `y`. -/
def loose : Schematic :=
  ⟨[⟨.wire ⟨"u", ⟨1, 1⟩⟩, ⟨"x", ⟨1, 6⟩⟩⟩,
    ⟨.binary .and ⟨"u", ⟨2, 1⟩⟩ ⟨"y", ⟨2, 7⟩⟩, ⟨"z", ⟨2, 12⟩⟩⟩,
    ⟨.literal ⟨"5", ⟨3, 1⟩⟩, ⟨"y", ⟨3, 6⟩⟩⟩]⟩

/-- With the statements of `loose` the other way round, `x` fails at `u` as before, but another
mention of `u` is the first. -/
theorem loose_resolve_perm :
    loose.statements.Perm loose.statements.reverse ∧
      ∃ net net', ofSchematic ⟨loose.statements⟩ = .ok net ∧
        ofSchematic ⟨loose.statements.reverse⟩ = .ok net' ∧
        ((resolve "x").on net).1 = .error (.undefined "u" (some ⟨1, 1⟩)) ∧
        ((resolve "x").on net').1 = .error (.undefined "u" (some ⟨2, 1⟩)) ∧
        ((resolve "x").on net).1.mapError WireFault.withoutMention =
          ((resolve "x").on net').1.mapError WireFault.withoutMention := by
  have hperm : loose.statements.Perm loose.statements.reverse :=
    (List.reverse_perm loose.statements).symm
  refine ⟨hperm, _, _, rfl, rfl, rfl, rfl, ?_⟩
  exact ((resolve_perm hperm).2 _ _ rfl rfl).1 "x"

/-! ## A further statement -/

/-- Adding a statement anywhere is local: unless a name failed at the wire that the statement
drives, it resolves to the same afterwards, up to where an undefined wire is first mentioned.
In particular, no word changes and no cycle. -/
theorem resolve_insert (hbuilt : ofSchematic ⟨before ++ after⟩ = .ok net)
    (hbuilt' : ofSchematic ⟨before ++ statement :: after⟩ = .ok net') (name : String) :
    ((∃ position, ((resolve name).on net).1 =
          .error (.undefined statement.result.name position)) ∨
        ((resolve name).on net).1.mapError WireFault.withoutMention =
          ((resolve name).on net').1.mapError WireFault.withoutMention) ∧
      (∀ value, ((resolve name).on net).1 = .ok value → ((resolve name).on net').1 = .ok value) ∧
      ∀ other cycle position, ((resolve name).on net).1 = .error (.cyclic other cycle position) →
        ((resolve name).on net').1 = .error (.cyclic other cycle position) := by
  have hsame : (∃ position, ((resolve name).on net).1 =
        .error (.undefined statement.result.name position)) ∨
      ((resolve name).on net).1.mapError WireFault.withoutMention =
        ((resolve name).on net').1.mapError WireFault.withoutMention := by
    rw [or_iff_not_imp_left]
    intro hother
    refine (realizes_ofSchematic hbuilt).resolve_of_subset (realizes_ofSchematic hbuilt') ?_ ?_
    · intro old hmem
      rcases List.mem_append.mp hmem with hmem | hmem
      · exact List.mem_append_left _ hmem
      · exact List.mem_append_right _ (List.mem_cons_of_mem _ hmem)
    · intro new hmem hnew position hresult
      have heq : new = statement := by
        simp only [List.mem_append, List.mem_cons, not_or] at hmem hnew
        tauto
      rw [heq] at hresult
      exact hother ⟨position, hresult⟩
  refine ⟨hsame, fun value hok => ?_, fun other cycle position hcyclic => ?_⟩
  · rcases hsame with ⟨position, hundefined⟩ | hsame
    · rw [hok] at hundefined
      cases hundefined
    · rw [hok] at hsame
      exact eq_ok_of_mapError_eq_ok hsame.symm
  · rcases hsame with ⟨place, hundefined⟩ | hsame
    · rw [hcyclic] at hundefined
      cases hundefined
    · rw [hcyclic] at hsame
      rcases exists_of_mapError_eq_error hsame.symm with ⟨fault, hresult, hfault⟩
      rw [hresult, WireFault.eq_cyclic_of_withoutMention hfault]

/-- The statements of `loose`, and after the first of them one that makes `z` drive `u`. -/
def tied : Schematic :=
  ⟨loose.statements.take 1 ++ ⟨.wire ⟨"z", ⟨4, 1⟩⟩, ⟨"u", ⟨4, 6⟩⟩⟩ :: loose.statements.drop 1⟩

/-- In `tied`, `x` no longer fails at `u`, but on the cycle of `u` and `z`.  The word of `y` is
that in `loose`. -/
theorem loose_resolve_insert : ∃ net net', ofSchematic loose = .ok net ∧
    ofSchematic tied = .ok net' ∧
      ((resolve "x").on net).1 = .error (.undefined "u" (some ⟨1, 1⟩)) ∧
      ((resolve "x").on net').1 = .error (.cyclic "u" ["u", "z", "u"] ⟨4, 6⟩) ∧
      ((resolve "y").on net).1 = .ok 5 ∧ ((resolve "y").on net').1 = .ok 5 := by
  have hbuilt : ofSchematic ⟨loose.statements.take 1 ++ loose.statements.drop 1⟩ =
      .ok ((ofSchematic loose).toOption.getD empty) := rfl
  have hbuilt' : ofSchematic ⟨loose.statements.take 1 ++
      ⟨.wire ⟨"z", ⟨4, 1⟩⟩, ⟨"u", ⟨4, 6⟩⟩⟩ :: loose.statements.drop 1⟩ =
        .ok ((ofSchematic tied).toOption.getD empty) := rfl
  refine ⟨_, _, hbuilt, hbuilt', rfl, rfl, rfl, ?_⟩
  exact (resolve_insert hbuilt hbuilt' "y").2.1 5 rfl

end Netlist

end BitwiseCircuit
