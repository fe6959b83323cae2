import Std.Data.String.ToNat
import BitwiseCircuit.Proofs.Text.Places

/-!
# Texts that are put together

Texts are written as rows that a newline ends, and rows as parts with something between them.  A
text can be taken apart again where the parts cannot contain what stands between them.

Main results:

- Theorem `Text.append_inj_of_head`: a list is cut in only one way where a property of its elements
  ends; Theorems `Text.append_cons_inj` and `Text.append_cons_inj_of_last` cut it at the first and
  at the last separator.
- Theorem `Text.length_lines_join`: rows without newlines, each ended by one, are that many lines.
- Theorem `Text.join_inj`: rows without newlines are given back by the text that they make.
- Theorem `not_mem_toString_nat`: a number is written by digits alone.
- Theorem `Position.toString_inj`: a place is given back by how it is written.
-/

namespace BitwiseCircuit

namespace Text

variable {α : Type} {front front' back back' : List α}

/-! ## Cutting lists -/

/-- A list is cut in only one way where a property of its elements ends. -/
theorem append_inj_of_head {P : α → Prop} (hfront : ∀ x ∈ front, P x) (hfront' : ∀ x ∈ front', P x)
    (hback : ∀ x ∈ back.head?, ¬ P x) (hback' : ∀ x ∈ back'.head?, ¬ P x)
    (h : front ++ back = front' ++ back') : front = front' ∧ back = back' := by
  induction front generalizing front' with
  | nil =>
      cases front' with
      | nil => exact ⟨rfl, h⟩
      | cons y front' =>
          obtain rfl : back = y :: (front' ++ back') := h
          exact absurd (hfront' y List.mem_cons_self) (hback y rfl)
  | cons x front ih =>
      cases front' with
      | nil =>
          obtain rfl : x :: (front ++ back) = back' := h
          exact absurd (hfront x List.mem_cons_self) (hback' x rfl)
      | cons y front' =>
          rcases List.cons.inj h with ⟨rfl, hrest⟩
          rcases ih (fun z hz => hfront z (List.mem_cons_of_mem x hz))
            (fun z hz => hfront' z (List.mem_cons_of_mem x hz)) hrest with ⟨rfl, rfl⟩
          exact ⟨rfl, rfl⟩

/-- A list is cut in only one way at the first separator. -/
theorem append_cons_inj {c : α} (hfront : c ∉ front) (hfront' : c ∉ front')
    (h : front ++ c :: back = front' ++ c :: back') : front = front' ∧ back = back' := by
  have hcut := append_inj_of_head (P := (· ≠ c)) (fun x hx hc => hfront (hc ▸ hx))
    (fun x hx hc => hfront' (hc ▸ hx)) (by simp) (by simp) h
  exact ⟨hcut.1, (List.cons.inj hcut.2).2⟩

/-- A list is cut in only one way at the last separator. -/
theorem append_cons_inj_of_last {c : α} (hback : c ∉ back) (hback' : c ∉ back')
    (h : front ++ c :: back = front' ++ c :: back') : front = front' ∧ back = back' := by
  have hreverse : back.reverse ++ c :: front.reverse = back'.reverse ++ c :: front'.reverse := by
    simpa using congrArg List.reverse h
  rcases append_cons_inj (by simpa using hback) (by simpa using hback') hreverse with
    ⟨hbacks, hfronts⟩
  exact ⟨List.reverse_inj.mp hfronts, List.reverse_inj.mp hbacks⟩

/-! ## Rows -/

variable (row : α → String) {as bs : List α}

/-- The characters of rows that newlines end. -/
theorem toList_join (as : List α) :
    (String.join (as.map fun a => row a ++ "\n")).toList =
      as.flatMap fun a => (row a).toList ++ ['\n'] := by
  simp [List.flatMap_map]

/-- Rows without newlines, each ended by a newline, are as many lines. -/
theorem length_lines_join (h : ∀ a ∈ as, '\n' ∉ (row a).toList) :
    (lines (String.join (as.map fun a => row a ++ "\n")).toList).length = as.length := by
  rw [toList_join]
  induction as with
  | nil => rfl
  | cons a as ih =>
      rcases List.forall_mem_cons.mp h with ⟨hfirst, hothers⟩
      have hne : ∀ c ∈ (row a).toList, c ≠ '\n' := by
        rintro c hc rfl
        exact hfirst hc
      rw [List.flatMap_cons, List.append_assoc, List.singleton_append,
        lines_eq_firstLine_cons (by simp), afterLine_append hne, List.length_cons, ih hothers,
        List.length_cons]

/-- Rows without newlines are given back by the text that they make, and so is what they show if
each row gives it back. -/
theorem join_inj (has : ∀ a ∈ as, '\n' ∉ (row a).toList) (hbs : ∀ b ∈ bs, '\n' ∉ (row b).toList)
    (hrow : ∀ a ∈ as, ∀ b ∈ bs, row a = row b → a = b)
    (h : String.join (as.map fun a => row a ++ "\n") =
      String.join (bs.map fun b => row b ++ "\n")) : as = bs := by
  have hchars := congrArg String.toList h
  rw [toList_join, toList_join] at hchars
  clear h
  induction as generalizing bs with
  | nil =>
      cases bs with
      | nil => rfl
      | cons b bs => simp at hchars
  | cons a as ih =>
      cases bs with
      | nil => simp at hchars
      | cons b bs =>
          rcases List.forall_mem_cons.mp has with ⟨ha, has⟩
          rcases List.forall_mem_cons.mp hbs with ⟨hb, hbs⟩
          simp only [List.flatMap_cons, List.append_assoc, List.singleton_append] at hchars
          rcases append_cons_inj ha hb hchars with ⟨hfirst, hothers⟩
          rw [hrow a List.mem_cons_self b List.mem_cons_self (String.toList_inj.mp hfirst),
            ih has hbs (fun a' ha' b' hb' => hrow a' (List.mem_cons_of_mem a ha') b'
              (List.mem_cons_of_mem b hb')) hothers]

end Text

/-! ## Numbers and places -/

/-- A number is written by digits alone. -/
theorem not_mem_toString_nat {c : Char} (hc : c.isDigit = false) (n : Nat) :
    c ∉ (toString n).toList := by
  intro hmem
  have hdigits : c ∈ Nat.toDigits 10 n := by simpa using hmem
  have hdigit := Nat.isDigit_of_mem_toDigits (by decide) (by decide) hdigits
  rw [hc] at hdigit
  cases hdigit

namespace Position

variable {p q : Position}

/-- A place is written with a colon between its two numbers. -/
theorem toList_toString (p : Position) :
    (toString p).toList = (toString p.line).toList ++ ':' :: (toString p.column).toList := by
  change (toString p.line ++ ":" ++ toString p.column).toList = _
  simp only [String.toList_append, List.append_assoc]
  rfl

/-- A place is written by digits and a colon. -/
theorem not_mem_toString {c : Char} (hc : c.isDigit = false) (hcolon : c ≠ ':') (p : Position) :
    c ∉ (toString p).toList := by
  rw [toList_toString, List.mem_append, List.mem_cons, not_or, not_or]
  exact ⟨not_mem_toString_nat hc p.line, hcolon, not_mem_toString_nat hc p.column⟩

/-- A place is written without a newline. -/
theorem newline_not_mem_toString (p : Position) : '\n' ∉ (toString p).toList :=
  not_mem_toString (by decide) (by decide) p

/-- A place is given back by how it is written. -/
theorem toString_inj : toString p = toString q ↔ p = q := by
  refine ⟨fun h => ?_, fun h => h ▸ rfl⟩
  have hchars := congrArg String.toList h
  rw [toList_toString, toList_toString] at hchars
  rcases Text.append_cons_inj (not_mem_toString_nat (by decide) p.line)
    (not_mem_toString_nat (by decide) q.line) hchars with ⟨hline, hcolumn⟩
  rcases p with ⟨line, column⟩
  rcases q with ⟨line', column'⟩
  rw [Position.mk.injEq]
  exact ⟨Nat.repr_inj.mp (String.toList_inj.mp hline),
    Nat.repr_inj.mp (String.toList_inj.mp hcolumn)⟩

end Position

end BitwiseCircuit
