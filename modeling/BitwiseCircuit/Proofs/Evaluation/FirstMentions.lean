import BitwiseCircuit.Proofs.Netlist.Table
import BitwiseCircuit.Proofs.Resolution.Consistency
import BitwiseCircuit.Proofs.Resolution.Outcome
import BitwiseCircuit.Proofs.Resolution.Pointwise
import BitwiseCircuit.Proofs.Schematic.Mentions
import BitwiseCircuit.Proofs.Schematic.Spelling
import BitwiseCircuit.Proofs.Token.Coverage

/-!
# First mentions in a text

Wires are numbered by first mentions, and the result of a statement counts as mentioned before
its operands, although it stands after them in a text.  A wire that nothing drives is no result,
so its first mention is also the first one that a reader of the text finds.

Main results:

- Definition `Netlist.FailsWith` collects the faults of all calls, and Theorem
  `Netlist.Coherent.exists_undriven`: one that calls a known wire undefined gives the place of a
  wire that nothing drives.
- Theorem `Schematic.SpelledBy.operands_sublist`: operands are mentioned in the order of the
  text.
- Theorem `Netlist.ofSchematic_firstMentions`: the netlist of a schematic, and the places at
  which its wires are called undefined.
-/

namespace BitwiseCircuit

/-! ## Faults of calls -/

namespace Netlist

variable {net : Netlist} {id : WireId} {name : String} {fault : WireFault} {call : Call}
  {place : Option Position}

/-- The call fails with the fault. -/
def FailsWith (net : Netlist) (fault : WireFault) : Call → Prop
  | .intern .. => False
  | .resolve name => ((resolve name).on net).1 = .error fault
  | .resolveId id => ((resolveId id).on net).1 = .error fault
  | .resolveAll order => ((resolveAll order).on net).1 = .error fault
  | .resolveWires names => ((resolveWires names).on net).1 = .error fault

/-- The fault of a call is one of a single name or of a single number. -/
theorem Coherent.resolve_or_resolveId (h : net.Coherent) (hfails : net.FailsWith fault call) :
    (∃ name, ((resolve name).on net).1 = .error fault) ∨
      ∃ id, ((resolveId id).on net).1 = .error fault := by
  have hentry : ∀ {names : List String}, names.mapM net.entry = .error fault →
      ∃ name, ((resolve name).on net).1 = .error fault := by
    intro names hnames
    rcases exists_of_mapM_entry_eq_error hnames with ⟨name, -, hresolve⟩
    exact ⟨name, hresolve⟩
  cases call with
  | intern name position => exact hfails.elim
  | resolve name => exact .inl ⟨name, hfails⟩
  | resolveId id => exact .inr ⟨id, hfails⟩
  | resolveAll order => exact .inl (hentry ((h.resolveAll_eq order).symm.trans hfails))
  | resolveWires names => exact .inl (hentry ((h.resolveWires_eq names).symm.trans hfails))

/-- A number that cannot be resolved for want of a driver names no wire, or it leads to a wire
that nothing drives. -/
theorem Coherent.exists_undriven_of_resolveId (h : net.Coherent)
    (hfault : ((resolveId id).on net).1 = .error (.undefined name place)) :
    name = "" ∨ ∃ x wire, net.wire? x = some wire ∧ wire.driver = none ∧ wire.name = name ∧
      place = some wire.firstSeen := by
  rw [on_resolveId] at hfault
  by_cases hlt : id < net.size
  · rcases (h.search_outcome hlt).2.2 _ hfault with ⟨x, wire, _, hwire, hnone, hname, hplace⟩
    exact .inr ⟨x, wire, hwire, hnone, hname, hplace.symm⟩
  · rw [search_of_not_lt hlt] at hfault
    cases hfault
    exact .inl rfl

/-- A call that finds a known name undefined gives the first mention of a wire that nothing
drives. -/
theorem Coherent.exists_undriven (h : net.Coherent)
    (hfails : net.FailsWith (.undefined name place) call) (hname : name ≠ "")
    (hknown : (net.find? name).isSome) :
    ∃ x wire, net.wire? x = some wire ∧ wire.driver = none ∧ wire.name = name ∧
      place = some wire.firstSeen := by
  rcases h.resolve_or_resolveId hfails with ⟨other, hfault⟩ | ⟨id, hfault⟩
  · rcases resolve_eq_error_iff.mp hfault with ⟨hfind, hunknown⟩ | ⟨id, -, hsearch⟩
    · cases hunknown
      simp [hfind] at hknown
    · exact (h.exists_undriven_of_resolveId hsearch).resolve_left hname
  · exact (h.exists_undriven_of_resolveId hfault).resolve_left hname

end Netlist

/-! ## Mentions in the order of a text -/

variable {tokens : List Token} {schematic : Schematic} {name : String} {mention : Mention}

private theorem Expression.SpelledBy.operands_sublist {expression : Expression}
    (h : expression.SpelledBy tokens) :
    expression.operands.Sublist (tokens.map Mention.ofToken) := by
  cases h with
  | literal _ => exact List.nil_sublist _
  | wire _ => exact .refl _
  | unary _ _ _ => exact (List.Sublist.refl _).cons _
  | binary _ _ _ _ => exact ((List.Sublist.refl _).cons _).cons_cons _
  | shift _ _ _ _ => exact (List.nil_sublist _).cons_cons _

/-- The operands of a schematic stand in its text in the order in which they are mentioned. -/
theorem Schematic.SpelledBy.operands_sublist (h : schematic.SpelledBy tokens) :
    (schematic.statements.flatMap (·.expression.operands)).Sublist
      (tokens.map Mention.ofToken) := by
  rcases schematic with ⟨statements⟩
  rcases h with ⟨parts, hparts, rfl⟩
  dsimp only at hparts ⊢
  induction hparts with
  | nil => exact .refl _
  | cons hstatement _ ih =>
      rw [List.flatMap_cons, List.flatten_cons, List.map_append]
      refine List.Sublist.append ?_ ih
      cases hstatement with
      | intro hexpression _ _ =>
          rw [List.map_append]
          exact hexpression.operands_sublist.trans (List.sublist_append_left _ _)

/-- A name that is the result of no statement is mentioned by operands only. -/
theorem Schematic.filter_mentions
    (hnew : ∀ statement ∈ schematic.statements, statement.result.name ≠ name) :
    schematic.mentions.filter (·.name = name) =
      (schematic.statements.flatMap (·.expression.operands)).filter (·.name = name) := by
  rw [mentions, List.filter_flatMap, List.filter_flatMap]
  refine List.flatMap_congr fun statement hmem => ?_
  rw [Statement.mentions, List.filter_cons_of_neg]
  simpa using hnew statement hmem

/-- A wire that is no result is mentioned first where its name stands first. -/
theorem Schematic.SpelledBy.position_le (h : schematic.SpelledBy tokens)
    (hincreasing : tokens.Pairwise (·.position < ·.position))
    (hnew : ∀ statement ∈ schematic.statements, statement.result.name ≠ mention.name)
    (hfirst : mention ∈ schematic.firstMentions) {other : Mention}
    (hother : other ∈ schematic.mentions) (hname : other.name = mention.name) :
    mention.position ≤ other.position := by
  have hordered : (schematic.mentions.filter (·.name = mention.name)).Pairwise
      (·.position < ·.position) := by
    rw [filter_mentions hnew]
    refine (List.Pairwise.sublist h.operands_sublist ?_).sublist List.filter_sublist
    exact List.pairwise_map.mpr hincreasing
  have hmem : other ∈ schematic.mentions.filter (·.name = mention.name) := by
    simpa [hother] using hname
  have hhead := Mention.mem_firsts_iff.mp hfirst
  rw [← List.head?_filter] at hhead
  rcases List.head?_eq_some_iff.mp hhead with ⟨later, hlater⟩
  rw [hlater] at hordered hmem
  rcases List.mem_cons.mp hmem with rfl | hmem
  · exact Position.le_refl _
  · exact Position.le_of_lt (List.rel_of_pairwise_cons hordered hmem)

namespace Netlist

variable {net net' : Netlist} {x : WireId} {wire : Wire}

/-- A wire under a name that was known before is the wire that had the name before. -/
theorem Extends.exists_wire (h : net.Extends net') (hwired : net.WellWired)
    (hwired' : net'.WellWired) (hwire : net'.wire? x = some wire)
    (hknown : (net.find? wire.name).isSome) : ∃ value, net.wire? x = some { wire with value } := by
  rcases Option.isSome_iff_exists.mp hknown with ⟨y, hfind⟩
  obtain rfl : x = y :=
    hwired'.eq_of_isNamed ⟨wire, hwire, rfl⟩ ((hwired'.find?_iff _ y).mp (h.finds _ y hfind))
  rcases (hwired.find?_iff _ x).mp hfind with ⟨old, hold, -⟩
  rcases h.embeds x old hold with ⟨value, hwire'⟩
  obtain rfl : { old with value } = wire := Option.some.inj (hwire'.symm.trans hwire)
  exact ⟨old.value, hold⟩

/-- A wire that nothing drives is first mentioned where its name stands first in the text. -/
theorem exists_first_token (hschematic : Schematic.ofTokens tokens = .ok schematic)
    (hbuilt : ofSchematic schematic = .ok net)
    (hincreasing : tokens.Pairwise (·.position < ·.position))
    (hwire : net.wire? x = some wire) (hdriver : wire.driver = none) :
    ∃ token ∈ tokens, token.kind = .wire ∧ token.spelling = wire.name ∧
      wire.firstSeen = token.position ∧
      ∀ other ∈ tokens, other.kind = .wire → other.spelling = wire.name →
        token.position ≤ other.position := by
  have htable := isTableOf_ofSchematic hbuilt
  have hnew : ∀ statement ∈ schematic.statements, statement.result.name ≠ wire.mention.name := by
    intro statement hmem hname
    have hdriven := (htable.driver_iff x wire hwire _).mpr ⟨statement, hmem, hname, rfl⟩
    rw [hdriver] at hdriven
    cases hdriven
  have hfirst : wire.mention ∈ schematic.firstMentions := by
    rw [← htable.mentions]
    exact List.mem_map_of_mem (Array.mem_toList_iff.mpr (Array.mem_of_getElem? hwire))
  rcases (Schematic.mem_mentions_iff hschematic).mp (mention_mem_of_ofSchematic hbuilt hwire) with
    ⟨token, htoken, hkind, hmention⟩
  refine ⟨token, htoken, hkind, congrArg Mention.name hmention,
    (congrArg Mention.position hmention).symm, fun other hother hotherKind hspelling => ?_⟩
  have hmentioned : Mention.ofToken other ∈ schematic.mentions :=
    Schematic.mem_mentions.mpr ((Schematic.mem_mentions_iff hschematic).mpr
      ⟨other, hother, hotherKind, rfl⟩)
  have hle := (Schematic.spelledBy_of_ofTokens hschematic).2.position_le hincreasing hnew hfirst
    hmentioned hspelling
  rwa [← hmention] at hle

/-- The netlist of a schematic has a wire for each first mention, driven by the statement that
assigns the wire.  If the schematic is read from a text, then whatever calls the netlist serves,
a wire of the text is called undefined at the place in the text where it is mentioned first. -/
theorem ofSchematic_firstMentions (hbuilt : ofSchematic schematic = .ok net) :
    net.IsTableOf schematic ∧
    ∀ text tokens, tokenize text = .ok tokens → Schematic.ofTokens tokens = .ok schematic →
      ∀ calls call name place,
        (net.serveAll calls).FailsWith (.undefined name place) call →
        (∃ token ∈ tokens, token.kind = .wire ∧ token.spelling = name) →
          ∃ token ∈ tokens, token.kind = .wire ∧ token.spelling = name ∧
            place = some token.position ∧
            ∀ other ∈ tokens, other.kind = .wire → other.spelling = name →
              token.position ≤ other.position := by
  refine ⟨isTableOf_ofSchematic hbuilt,
    fun text tokens htokens hschematic calls call name place hfails hnamed => ?_⟩
  have hcoherent : net.Coherent := (Reachable.built hbuilt).coherent
  have hextends := hcoherent.extends_serveAll calls
  have hcoherent' := hcoherent.serveAll calls
  have hknown : (net.find? name).isSome :=
    ((realizes_ofSchematic hbuilt).mentioned name).mpr
      ((Schematic.exists_mention_iff hschematic name).mpr hnamed)
  have hname : name ≠ "" := by
    rcases hnamed with ⟨token, htoken, -, rfl⟩
    simpa using Lexicon.spelling_ne_nil_of_tokenize htokens token htoken
  have hknown' : ((net.serveAll calls).find? name).isSome := by
    rcases Option.isSome_iff_exists.mp hknown with ⟨y, hfind⟩
    exact Option.isSome_iff_exists.mpr ⟨y, hextends.finds name y hfind⟩
  rcases hcoherent'.exists_undriven hfails hname hknown' with ⟨x, wire, hwire, hdriver, rfl, rfl⟩
  rcases hextends.exists_wire hcoherent.toWellWired hcoherent'.toWellWired hwire hknown with
    ⟨value, hold⟩
  rcases exists_first_token hschematic hbuilt (Lexicon.position_lt_of_tokenize htokens) hold
    hdriver with ⟨token, htoken, hkind, hspelling, hplace, hfirst⟩
  exact ⟨token, htoken, hkind, hspelling, congrArg some hplace, hfirst⟩

/-- The schematic of a text that reads the wire `u` twice and assigns it nowhere. -/
def unassigned : Schematic :=
  ⟨[⟨.unary .not ⟨"u", ⟨1, 5⟩⟩, ⟨"x", ⟨1, 10⟩⟩⟩,
    ⟨.binary .or ⟨"u", ⟨2, 1⟩⟩ ⟨"x", ⟨2, 6⟩⟩, ⟨"y", ⟨2, 11⟩⟩⟩]⟩

/-- In `unassigned` the wire `u` has no driver, and both statements mention it.  The fault that it
makes has the first of the two places, also after a call that failed. -/
theorem unassigned_firstMentions :
    ∃ net tokens, ofSchematic unassigned = .ok net ∧
      unassigned.firstMentions.map (·.name) = ["x", "u", "y"] ∧ net.IsTableOf unassigned ∧
      tokenize "NOT u -> x\nu OR x -> y" = .ok tokens ∧
      Schematic.ofTokens tokens = .ok unassigned ∧
      (net.serveAll [.resolve "y"]).FailsWith (.undefined "u" (some ⟨1, 5⟩)) (.resolveAll .byName) ∧
      ∃ token ∈ tokens, token.spelling = "u" ∧ some ⟨1, 5⟩ = some token.position ∧
        ∀ other ∈ tokens, other.kind = .wire → other.spelling = "u" →
          token.position ≤ other.position := by
  have hbuilt : ofSchematic unassigned = .ok ((ofSchematic unassigned).toOption.getD empty) := rfl
  have htokens : tokenize "NOT u -> x\nu OR x -> y" =
      .ok ((tokenize "NOT u -> x\nu OR x -> y").toOption.getD []) := by decide +kernel
  have hschematic : Schematic.ofTokens ((tokenize "NOT u -> x\nu OR x -> y").toOption.getD []) =
      .ok unassigned := by decide +kernel
  have hfails : (((ofSchematic unassigned).toOption.getD empty).serveAll [.resolve "y"]).FailsWith
      (.undefined "u" (some ⟨1, 5⟩)) (.resolveAll .byName) := rfl
  have hnamed : ∃ token ∈ (tokenize "NOT u -> x\nu OR x -> y").toOption.getD [],
      token.kind = .wire ∧ token.spelling = "u" := by decide +kernel
  rcases (ofSchematic_firstMentions hbuilt).2 _ _ htokens hschematic _ _ _ _ hfails hnamed with
    ⟨token, htoken, _, hspelling, hplace, hfirst⟩
  exact ⟨_, _, hbuilt, rfl, (ofSchematic_firstMentions hbuilt).1, htokens, hschematic, hfails,
    token, htoken, hspelling, hplace, hfirst⟩

end Netlist

end BitwiseCircuit
