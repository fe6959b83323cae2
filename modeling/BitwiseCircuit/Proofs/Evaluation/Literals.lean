import BitwiseCircuit.Proofs.Evaluation.Culprits
import BitwiseCircuit.Proofs.Netlist.Refusal
import BitwiseCircuit.Proofs.Word.Decimal

/-!
# Literals and their numbers

A literal is a word if the number that it writes is one, and this depends on nothing but its
spelling.  In a text the literals are the number tokens, which have no sign; so a text whose
literals cannot all be words has a digit string that writes too large a number.

Main results:

- Theorem `Numeral.toWord_eq_ok_iff_writes`: a literal becomes the word whose number it writes.
- Theorem `Netlist.Coherent.report_ne_outOfRange`: only the building of a netlist refuses literals.
- Theorem `exists_number_of_outOfRange`: a literal that an evaluation refuses is a number token
  that writes too large a number.
- Theorem `literals_exact`: literals are read exactly, alone and in a text.
-/

namespace BitwiseCircuit

variable {text spelling : String} {names : List String} {order : Netlist.Order}
  {place : Position} {tokens : List Token} {schematic : Schematic}

/-! ## Single literals -/

namespace Numeral

variable {numeral : Numeral} {word : Word} {n : Nat}

/-- A literal becomes the word whose number it writes. -/
theorem toWord_eq_ok_iff_writes :
    numeral.toWord = .ok word ↔ Word.Writes numeral.spelling word.toNat := by
  rw [toWord_eq_ok_iff, Word.ofDecimal?_eq_some_iff_writes]

/-- A literal becomes a word of a number exactly if it writes the number and a word has it. -/
theorem exists_toWord_eq_ok_iff : (∃ word, numeral.toWord = .ok word ∧ word.toNat = n) ↔
    Word.Writes numeral.spelling n ∧ n ≤ 65535 := by
  constructor
  · rintro ⟨word, hword, rfl⟩
    exact ⟨toWord_eq_ok_iff_writes.mp hword, Nat.le_of_lt_succ word.isLt⟩
  · rintro ⟨hwrites, hle⟩
    have hnumber : (Word.truncate n).toNat = n := by
      rw [Word.toNat_truncate]
      exact Nat.mod_eq_of_lt (Nat.lt_succ_of_le hle)
    refine ⟨Word.truncate n, ?_, hnumber⟩
    rwa [toWord_eq_ok_iff_writes, hnumber]

end Numeral

/-- A digit string writes a number. -/
theorem TokenKind.writes_of_spells (h : TokenKind.number.Spells spelling) :
    Word.Writes spelling (Word.placeValue spelling.toList) := by
  rcases h with ⟨hne, hdigits⟩
  refine ⟨[], spelling.toList, rfl, .inl rfl, by simpa using hne, ?_, rfl⟩
  exact fun c hc => isDigit_iff.mpr (hdigits c hc)

/-! ## Literals of a text -/

/-- Making a report refuses no literal; only the building of the netlist does. -/
theorem Netlist.Coherent.report_ne_outOfRange {net : Netlist} (h : net.Coherent) :
    ((report names order).on net).1 ≠ .error (.literalOutOfRange spelling place) := by
  intro hfault
  rw [h.report_eq] at hfault
  rcases exists_of_mapM_entry_eq_error hfault with ⟨name, -, hresolve⟩
  rcases resolve_eq_error_iff.mp hresolve with ⟨-, hunknown⟩ | ⟨id, hfind, hsearch⟩
  · cases hunknown
  · exact (h.search_outcome (h.lt_size_of_find? hfind)).2.2 _ hsearch

/-- An evaluation refuses a literal while it builds the netlist of its text. -/
theorem exists_of_evaluate_outOfRange
    (h : evaluate text names order = .error (.wire (.literalOutOfRange spelling place))) :
    ∃ tokens schematic, tokenize text = .ok tokens ∧ Schematic.ofTokens tokens = .ok schematic ∧
      Netlist.ofSchematic schematic = .error (.literalOutOfRange spelling place) := by
  rcases of_evaluate_eq_error h with
    hfault | ⟨cause, schematic, hcause, hschematic, hfault | ⟨net, hnet, hfault⟩⟩
  · rcases Schematic.of_ofText_eq_error hfault with ⟨cause, hcause, -⟩ | ⟨cause, -, hcause, -⟩
    all_goals cases hcause
  · cases hcause
    rcases Schematic.exists_of_ofText hschematic with ⟨tokens, htokens, hschematic⟩
    exact ⟨tokens, schematic, htokens, hschematic, hfault⟩
  · cases hcause
    exact absurd hfault (Netlist.Reachable.built hnet).coherent.report_ne_outOfRange

/-- A literal that an evaluation refuses is a number token that writes too large a number. -/
theorem exists_number_of_outOfRange
    (h : evaluate text names order = .error (.wire (.literalOutOfRange spelling place))) :
    ∃ tokens, tokenize text = .ok tokens ∧ ⟨.number, spelling, place⟩ ∈ tokens ∧
      TokenKind.number.Spells spelling ∧ ∃ n, Word.Writes spelling n ∧ 65536 ≤ n := by
  rcases exists_of_evaluate_outOfRange h with ⟨tokens, schematic, htokens, hschematic, hfault⟩
  rcases Netlist.ofSchematic_eq_error_iff.mp hfault with
    ⟨before, statement, after, hsplit, -, hrefuses⟩
  have hstatement : statement ∈ schematic.statements := by simp [hsplit]
  cases hrefuses with
  | @outOfRange numeral _ hmem hrange =>
      rcases (Schematic.spelledBy_of_ofTokens hschematic).2.exists_numeral_iff.mp
        ⟨statement, hstatement, hmem⟩ with ⟨⟨kind, spelling, place⟩, htoken, hkind, rfl⟩
      obtain rfl : kind = .number := hkind
      have hspells := spells_of_tokenize htokens _ htoken
      have hwrites := TokenKind.writes_of_spells hspells
      exact ⟨tokens, htokens, htoken, hspells, _, hwrites,
        Word.not_inRange_iff.mp hrange _ hwrites⟩

/-- Where an evaluation succeeds, every number token writes the number of a word. -/
theorem exists_number_of_evaluate {report : Report} (h : evaluate text names order = .ok report)
    (htokens : tokenize text = .ok tokens) {token : Token} (htoken : token ∈ tokens)
    (hkind : token.kind = .number) : ∃ n, Word.Writes token.spelling n ∧ n ≤ 65535 := by
  rcases exists_of_evaluate h with ⟨circuit, hcircuit, -⟩
  rcases Circuit.exists_of_ofText hcircuit with ⟨tokens', htokens', hschematic, hnet⟩
  obtain rfl : tokens = tokens' := Except.ok.inj (htokens.symm.trans htokens')
  have hacceptable := Netlist.exists_ofSchematic_eq_ok_iff_acceptable.mp ⟨_, hnet⟩
  rcases (Schematic.spelledBy_of_ofTokens hschematic).2.exists_numeral_iff.mpr
    ⟨token, htoken, hkind, rfl⟩ with ⟨statement, hstatement, hnumeral⟩
  have hrange : Word.InRange token.spelling := hacceptable.literals statement hstatement _ hnumeral
  rcases Word.inRange_iff_exists_writes.mp hrange with ⟨n, hwrites, hlt⟩
  exact ⟨n, hwrites, Nat.le_of_lt_succ hlt⟩

/-! ## Exactness -/

/-- A literal of any length becomes the word of the number that it writes, provided that the number
is below 65536; leading zeros do not count.  If it writes a larger number or none at all, it is
refused with its spelling and its place as they are.  An evaluation therefore refuses a literal only
for a digit string of its text that writes a number from 65536 on, and where it succeeds no digit
string of the text has been cut to a smaller number. -/
theorem literals_exact :
    (∀ numeral : Numeral,
      (∀ n, (∃ word, numeral.toWord = .ok word ∧ word.toNat = n) ↔
        Word.Writes numeral.spelling n ∧ n ≤ 65535) ∧
      ∀ fault, numeral.toWord = .error fault ↔
        (∀ n, Word.Writes numeral.spelling n → 65536 ≤ n) ∧
          fault = .literalOutOfRange numeral.spelling numeral.position) ∧
    (∀ sign digits, (sign = [] ∨ sign = ['+']) → digits ≠ [] →
      (∀ c ∈ digits, c.isDigit = true) → ∀ zeros place word,
        Numeral.toWord ⟨.ofList (sign ++ (List.replicate zeros '0' ++ digits)), place⟩ = .ok word ↔
          Numeral.toWord ⟨.ofList (sign ++ digits), place⟩ = .ok word) ∧
    ∀ text names order,
      (∀ spelling place,
        evaluate text names order = .error (.wire (.literalOutOfRange spelling place)) →
          ∃ tokens, tokenize text = .ok tokens ∧ ⟨.number, spelling, place⟩ ∈ tokens ∧
            TokenKind.number.Spells spelling ∧ ∃ n, Word.Writes spelling n ∧ 65536 ≤ n) ∧
      ∀ report tokens, evaluate text names order = .ok report → tokenize text = .ok tokens →
        ∀ token ∈ tokens, token.kind = .number →
          ∃ n, Word.Writes token.spelling n ∧ n ≤ 65535 := by
  refine ⟨fun numeral => ⟨fun n => Numeral.exists_toWord_eq_ok_iff, fun fault => ?_⟩, ?_, ?_⟩
  · rw [Numeral.toWord_eq_error_iff, Numeral.InRange, Word.not_inRange_iff]
    rfl
  · intro sign digits hsign hne hdigits zeros place word
    rw [Numeral.toWord_eq_ok_iff_writes, Numeral.toWord_eq_ok_iff_writes]
    exact Word.writes_zeros_iff hsign hne hdigits zeros
  · intro text names order
    refine ⟨fun spelling place => exists_number_of_outOfRange, ?_⟩
    intro report tokens hreport htokens token htoken hkind
    exact exists_number_of_evaluate hreport htokens htoken hkind

/-- The low sixteen bits of 65541 are those of 5, but a shift by 65541 is refused, with zeros before
it or without; the greatest word may have any number of them. -/
theorem excessive_literals_exact :
    (evaluate "1 -> a\na LSHIFT 0065541 -> b" [] .byName =
        .error (.wire (.literalOutOfRange "0065541" ⟨2, 10⟩)) ∧
      ∃ n, Word.Writes "0065541" n ∧ 65536 ≤ n) ∧
    (evaluate "0065535 -> a" [] .byName = .ok [("a", 65535)] ∧
      ∃ n, Word.Writes "0065535" n ∧ n ≤ 65535) ∧
    Numeral.toWord ⟨.ofList (['+'] ++ (List.replicate 70000 '0' ++ ['5'])), ⟨1, 1⟩⟩ = .ok 5 := by
  have hrefused : evaluate "1 -> a\na LSHIFT 0065541 -> b" [] .byName =
      .error (.wire (.literalOutOfRange "0065541" ⟨2, 10⟩)) := by decide +kernel
  have hreport : evaluate "0065535 -> a" [] .byName = .ok [("a", 65535)] := by decide +kernel
  have htokens : tokenize "0065535 -> a" = .ok
      [⟨.number, "0065535", ⟨1, 1⟩⟩, ⟨.arrow, "->", ⟨1, 9⟩⟩, ⟨.wire, "a", ⟨1, 12⟩⟩] := by
    decide +kernel
  rcases literals_exact with ⟨-, hzeros, htexts⟩
  rcases (htexts _ _ _).1 _ _ hrefused with ⟨-, -, -, -, hlarge⟩
  refine ⟨⟨hrefused, hlarge⟩, ⟨hreport, ?_⟩, ?_⟩
  · exact (htexts _ _ _).2 _ _ hreport htokens _ List.mem_cons_self rfl
  · have hdigits : ∀ c ∈ ['5'], c.isDigit = true := fun c hc => List.mem_singleton.mp hc ▸ rfl
    refine (hzeros ['+'] ['5'] (.inr rfl) (List.cons_ne_nil _ _) hdigits 70000 ⟨1, 1⟩ 5).mpr ?_
    decide +kernel

end BitwiseCircuit
