import Mathlib.Data.List.Nodup
import BitwiseCircuit.Schematic

/-!
# First mentions

A schematic mentions a wire as often as it likes.  What is kept of the mentions is the first one
of each name, in the order of these first mentions.

Main results:

- Definition `Mention.firsts` drops repeated names from a list of mentions; Theorem
  `Mention.firsts_concat` does so from the other end, one mention after the other.
- Theorem `Mention.mem_firsts_iff`: what is kept is the first mention of its name.
- Definitions `Schematic.firstMentions` and `Schematic.numberOf`: the first mentions of a
  schematic, and the numbers that they give to the names.
-/

namespace BitwiseCircuit

/-! ## Lists of mentions -/

namespace Mention

variable {mention : Mention} {mentions : List Mention} {name : String}

/-- The mentions without those of a name that was mentioned before. -/
def firsts : List Mention → List Mention
  | [] => []
  | mention :: later => mention :: (firsts later).filter (·.name ≠ mention.name)

/-- The mentions that are kept are the first ones of their names. -/
theorem mem_firsts_iff :
    mention ∈ firsts mentions ↔ mentions.find? (·.name = mention.name) = some mention := by
  induction mentions with
  | nil => simp [firsts]
  | cons first later ih =>
      rw [firsts, List.mem_cons, List.mem_filter, ih]
      by_cases hname : first.name = mention.name
      · simp [hname, eq_comm]
      · have hne : mention ≠ first := by
          rintro rfl
          exact hname rfl
        simp [hname, hne, Ne.symm hname]

/-- No name is lost. -/
theorem mem_names_firsts_iff :
    name ∈ (firsts mentions).map (·.name) ↔ name ∈ mentions.map (·.name) := by
  constructor
  · intro hname
    rcases List.mem_map.mp hname with ⟨mention, hmem, rfl⟩
    exact List.mem_map_of_mem (List.mem_of_find?_eq_some (mem_firsts_iff.mp hmem))
  · intro hname
    have hsome : (mentions.find? (·.name = name)).isSome := by
      simpa using hname
    rcases Option.isSome_iff_exists.mp hsome with ⟨mention, hfind⟩
    obtain rfl : mention.name = name := by simpa using List.find?_some hfind
    exact List.mem_map_of_mem (mem_firsts_iff.mpr hfind)

/-- No name is kept twice. -/
theorem nodup_names_firsts (mentions : List Mention) : ((firsts mentions).map (·.name)).Nodup := by
  induction mentions with
  | nil => exact List.nodup_nil
  | cons first later ih =>
      rw [firsts, List.map_cons, List.nodup_cons]
      refine ⟨?_, (ih.sublist (List.filter_sublist.map _))⟩
      simp

/-- One more mention is kept if its name is new. -/
theorem firsts_concat (mentions : List Mention) (last : Mention) :
    firsts (mentions ++ [last]) =
      if last.name ∈ mentions.map (·.name) then firsts mentions
      else firsts mentions ++ [last] := by
  induction mentions with
  | nil => rfl
  | cons first later ih =>
      rw [List.cons_append, firsts, ih, firsts]
      simp only [List.map_cons, List.mem_cons]
      by_cases hlater : last.name ∈ later.map (·.name)
      · rw [if_pos hlater, if_pos (.inr hlater)]
      · rw [if_neg hlater, List.filter_append]
        by_cases hfirst : last.name = first.name
        · simp [hfirst]
        · simp [hfirst, hlater]

end Mention

/-! ## Schematics -/

namespace Schematic

/-- The wires that a schematic names, statement by statement, in each the result first. -/
def mentions (schematic : Schematic) : List Mention :=
  schematic.statements.flatMap Statement.mentions

/-- The first mention of each wire of a schematic. -/
def firstMentions (schematic : Schematic) : List Mention :=
  Mention.firsts schematic.mentions

/-- The number of a name among the first mentions, counted from zero. -/
def numberOf (schematic : Schematic) (name : String) : Nat :=
  (schematic.firstMentions.map (·.name)).idxOf name

/-- The name that is mentioned as the `n`-th different one has the number `n`. -/
theorem numberOf_eq {schematic : Schematic} {name : String} {n : Nat}
    (h : (schematic.firstMentions.map (·.name))[n]? = some name) : schematic.numberOf name = n := by
  rcases List.getElem?_eq_some_iff.mp h with ⟨hlt, rfl⟩
  exact (Mention.nodup_names_firsts _).idxOf_getElem n hlt

/-- The mentions of a schematic are those of its statements. -/
theorem mem_mentions {schematic : Schematic} {mention : Mention} : mention ∈ schematic.mentions ↔
    ∃ statement ∈ schematic.statements, mention ∈ statement.mentions :=
  List.mem_flatMap

end Schematic

end BitwiseCircuit
