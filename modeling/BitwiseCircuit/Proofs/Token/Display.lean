import BitwiseCircuit.Proofs.Text.Rows
import BitwiseCircuit.Token

/-!
# Tokens in a listing

A token is written with its spelling in quotes, and the spelling may itself have quotes and
parentheses, or look like another token.  What stands before it has no blank, and what stands
behind it no quote, so the token can be read back from both ends.

Main results:

- Theorem `Token.toString_inj`: a token is given back by how it is written, whatever its spelling.
-/

namespace BitwiseCircuit

namespace TokenKind

/-- Each kind has a tag of its own. -/
theorem tag_inj {kind kind' : TokenKind} : kind.tag = kind'.tag ↔ kind = kind' := by
  refine ⟨fun h => ?_, fun h => h ▸ rfl⟩
  revert h
  cases kind <;> cases kind' <;> decide

/-- No tag has a blank. -/
theorem blank_not_mem_tag (kind : TokenKind) : ' ' ∉ kind.tag.toList := by
  cases kind <;> simp [tag]

/-- No tag has a newline. -/
theorem newline_not_mem_tag (kind : TokenKind) : '\n' ∉ kind.tag.toList := by
  cases kind <;> simp [tag]

end TokenKind

namespace Token

variable {token token' : Token}

/-- The characters of a written token: up to the first blank, up to the last quote, and after
it. -/
theorem toList_toString (token : Token) : (toString token).toList =
    ('(' :: token.kind.tag.toList) ++ ' ' :: ('\'' :: (token.spelling.toList ++ '\'' ::
      (' ' :: ((toString token.position).toList ++ [')'])))) := by
  change (Token.toString token).toList = _
  unfold Token.toString
  simp only [String.toList_append, List.append_assoc]
  rfl

/-- A token is given back by how it is written. -/
theorem toString_inj : toString token = toString token' ↔ token = token' := by
  refine ⟨fun h => ?_, fun h => h ▸ rfl⟩
  have hchars := congrArg String.toList h
  rw [toList_toString, toList_toString] at hchars
  -- The spelling may have blanks and quotes of its own, so the first blank and the last quote of
  -- the whole text are the ones to cut at.
  have hblank : ∀ kind : TokenKind, ' ' ∉ '(' :: kind.tag.toList := by
    intro kind
    simp [kind.blank_not_mem_tag]
  have hquote : ∀ place : Position, '\'' ∉ ' ' :: ((toString place).toList ++ [')']) := by
    intro place
    simp [place.not_mem_toString (c := '\'') (by decide) (by decide)]
  rcases Text.append_cons_inj (hblank _) (hblank _) hchars with ⟨hkind, hrest⟩
  rcases Text.append_cons_inj_of_last (hquote _) (hquote _) (List.cons.inj hrest).2 with
    ⟨hspelling, hend⟩
  have hposition := List.append_cancel_right (List.cons.inj hend).2
  rcases token with ⟨kind, spelling, position⟩
  rcases token' with ⟨kind', spelling', position'⟩
  rw [Token.mk.injEq]
  exact ⟨TokenKind.tag_inj.mp (String.toList_inj.mp (List.cons.inj hkind).2),
    String.toList_inj.mp hspelling, Position.toString_inj.mp (String.toList_inj.mp hposition)⟩

/-- A written token has a newline only if its spelling has. -/
theorem newline_not_mem_toString (h : '\n' ∉ token.spelling.toList) :
    '\n' ∉ (toString token).toList := by
  have hplace := token.position.newline_not_mem_toString
  rw [toList_toString]
  simp [token.kind.newline_not_mem_tag, h, hplace]

end Token

end BitwiseCircuit
