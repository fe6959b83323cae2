import BitwiseCircuit.Proofs.Netlist.Acceptance
import BitwiseCircuit.Proofs.Token.Display
import BitwiseCircuit.Schematic.Tree

/-!
# Trees of schematics

The tree of a schematic has one node to a row.  How far a row is indented tells the depth of its
node, because no label begins with a blank; where the next statement begins is told by the depths;
and what the rows of a statement say is enough to write it down again.

Main results:

- Definition `Schematic.Unbroken`: no name and no literal has a newline.
- Theorem `TreeNode.row_inj`: a row gives back its node.
- Theorem `Schematic.outline_inj`: the nodes of a tree give back the schematic.
- Theorem `Schematic.toTree_inj`: so does the tree of an unbroken schematic.
-/

namespace BitwiseCircuit

/-! ## Rows of a tree -/

namespace TreeNode

variable {node node' : TreeNode}

/-- A node as it is written, without the newline that ends the row. -/
def row (node : TreeNode) : String :=
  String.ofList (List.replicate (2 * node.depth) ' ') ++ node.label

/-- The text does not begin with a blank, and stays in one row. -/
structure IsLabel (label : String) : Prop where
  head : label.toList.head? ≠ some ' '
  newline : '\n' ∉ label.toList

private theorem IsLabel.newline_not_mem_row (h : IsLabel node.label) : '\n' ∉ node.row.toList := by
  simp [row, h.newline, List.mem_replicate]

/-- A row gives back its node. -/
theorem row_inj (h : IsLabel node.label) (h' : IsLabel node'.label) (hrow : node.row = node'.row) :
    node = node' := by
  have hchars := congrArg String.toList hrow
  simp only [row, String.toList_append, String.toList_ofList] at hchars
  have hblank : ∀ n, ∀ c ∈ List.replicate n ' ', c = ' ' := fun n c => List.eq_of_mem_replicate
  have hhead : ∀ label, IsLabel label → ∀ c ∈ label.toList.head?, ¬ c = ' ' := by
    rintro label hlabel c hc rfl
    exact hlabel.head hc
  rcases Text.append_inj_of_head (hblank _) (hblank _) (hhead _ h) (hhead _ h') hchars with
    ⟨hindent, hlabels⟩
  rcases node with ⟨depth, label⟩
  rcases node' with ⟨depth', label'⟩
  have hdepth : 2 * depth = 2 * depth' := List.replicate_left_inj.mp hindent
  rw [TreeNode.mk.injEq]
  exact ⟨by omega, String.toList_inj.mp hlabels⟩

end TreeNode

/-! ## Expressions -/

/-- The label of a mention tells its name and its place. -/
theorem Mention.label_inj {mention mention' : Mention} :
    mention.label = mention'.label ↔ mention = mention' := by
  rcases mention with ⟨name, position⟩
  rcases mention' with ⟨name', position'⟩
  rw [Mention.label, Mention.label, Token.toString_inj]
  simp

/-- The label of a literal tells its spelling and its place. -/
theorem Numeral.label_inj {numeral numeral' : Numeral} :
    numeral.label = numeral'.label ↔ numeral = numeral' := by
  rcases numeral with ⟨spelling, position⟩
  rcases numeral' with ⟨spelling', position'⟩
  rw [Numeral.label, Numeral.label, Token.toString_inj]
  simp

/-- A wire does not look like a literal. -/
theorem Mention.label_ne_label (mention : Mention) (numeral : Numeral) :
    mention.label ≠ numeral.label := by
  rw [Mention.label, Numeral.label, Ne, Token.toString_inj]
  simp

namespace Expression

/-- The construct and the leaves of an expression give back the expression. -/
theorem eq_of_leaves {expression expression' : Expression}
    (hconstruct : expression.construct = expression'.construct)
    (hleaves : expression.leaves = expression'.leaves) : expression = expression' := by
  cases expression with
  | literal value =>
      cases expression' with
      | literal value' => simpa [leaves, Numeral.label_inj] using hleaves
      | wire source' => simp [leaves, (Mention.label_ne_label _ _).symm] at hleaves
      | _ => simp [construct] at hconstruct
  | wire source =>
      cases expression' with
      | literal value' => simp [leaves, Mention.label_ne_label] at hleaves
      | wire source' => simpa [leaves, Mention.label_inj] using hleaves
      | _ => simp [construct] at hconstruct
  | unary op operand =>
      cases expression' with
      | unary op' operand' =>
          cases op
          cases op'
          simpa [leaves, Mention.label_inj] using hleaves
      | _ => simp [construct] at hconstruct
  | binary op left right =>
      cases expression' with
      | binary op' left' right' =>
          cases op <;> cases op' <;> simp_all [leaves, Mention.label_inj, BinaryOp.keyword]
      | _ => simp [construct] at hconstruct
  | shift op operand amount =>
      cases expression' with
      | shift op' operand' amount' =>
          cases op <;> cases op' <;>
            simp_all [leaves, Mention.label_inj, Numeral.label_inj, ShiftOp.keyword]
      | _ => simp [construct] at hconstruct

end Expression

/-! ## Statements -/

/-- The nodes below a statement. -/
def Statement.below (statement : Statement) : List TreeNode :=
  ⟨2, statement.expression.construct⟩ :: (statement.expression.leaves.map (⟨3, ·⟩) ++
    [⟨2, "Result"⟩, ⟨3, statement.result.label⟩])

private theorem Statement.outline_eq (statement : Statement) :
    statement.outline = ⟨1, "Statement"⟩ :: statement.below := by
  simp [outline, below]

private theorem Statement.depth_ne_of_mem_below {statement : Statement} {node : TreeNode}
    (h : node ∈ statement.below) : node.depth ≠ 1 := by
  simp only [below, List.mem_cons, List.mem_append, List.mem_map, List.not_mem_nil, or_false] at h
  rcases h with rfl | ⟨label, -, rfl⟩ | rfl | rfl <;> simp

/-- What is below a statement gives back the statement. -/
theorem Statement.below_inj {statement statement' : Statement}
    (h : statement.below = statement'.below) : statement = statement' := by
  rcases statement with ⟨expression, result⟩
  rcases statement' with ⟨expression', result'⟩
  rcases List.cons.inj h with ⟨hconstruct, hrest⟩
  have hdepth : ∀ labels : List String, ∀ node ∈ labels.map (TreeNode.mk 3), node.depth = 3 := by
    intro labels node hnode
    rcases List.mem_map.mp hnode with ⟨label, -, rfl⟩
    rfl
  rcases Text.append_inj_of_head (hdepth _) (hdepth _) (by simp) (by simp) hrest with
    ⟨hleaves, hresult⟩
  have hleaves' : expression.leaves = expression'.leaves :=
    List.map_injective_iff.mpr (fun _ _ hlabel => (TreeNode.mk.inj hlabel).2) hleaves
  rw [Statement.mk.injEq]
  refine ⟨Expression.eq_of_leaves (TreeNode.mk.inj hconstruct).2 hleaves', ?_⟩
  exact Mention.label_inj.mp (by simpa using hresult)

/-- What follows a statement begins with the next one. -/
theorem Statement.depth_of_mem_head? (statements : List Statement) {node : TreeNode}
    (h : node ∈ (statements.flatMap outline).head?) : node.depth = 1 := by
  cases statements with
  | nil => cases h
  | cons statement statements =>
      rw [List.flatMap_cons, outline_eq, List.cons_append] at h
      cases h
      rfl

/-- The nodes of statements give back the statements. -/
theorem Statement.flatMap_outline_inj {statements statements' : List Statement}
    (h : statements.flatMap outline = statements'.flatMap outline) : statements = statements' := by
  induction statements generalizing statements' with
  | nil =>
      cases statements' with
      | nil => rfl
      | cons statement' statements' => simp [outline_eq] at h
  | cons statement statements ih =>
      cases statements' with
      | nil => simp [outline_eq] at h
      | cons statement' statements' =>
          simp only [List.flatMap_cons, outline_eq, List.cons_append] at h
          -- Depth 1 is that of the first node of a statement only, so the first statement ends
          -- where the next node of that depth is.
          rcases Text.append_inj_of_head (P := (·.depth ≠ 1)) (fun _ => depth_ne_of_mem_below)
            (fun _ => depth_ne_of_mem_below)
            (fun _ hnode => not_not_intro (depth_of_mem_head? statements hnode))
            (fun _ hnode => not_not_intro (depth_of_mem_head? statements' hnode))
            (List.cons.inj h).2 with ⟨hbelow, hrest⟩
          rw [below_inj hbelow, ih hrest]

/-! ## Schematics -/

/-- No name and no literal has a newline. -/
def Schematic.Unbroken (schematic : Schematic) : Prop :=
  ∀ statement ∈ schematic.statements,
    (∀ mention ∈ statement.mentions, '\n' ∉ mention.name.toList) ∧
      ∀ numeral ∈ statement.expression.numerals, '\n' ∉ numeral.spelling.toList

private theorem Token.isLabel_toString {token : Token} (h : '\n' ∉ token.spelling.toList) :
    TreeNode.IsLabel (toString token) where
  head := by
    rw [toList_toString]
    simp
  newline := newline_not_mem_toString h

private theorem UnaryOp.isLabel_keyword (op : UnaryOp) : TreeNode.IsLabel op.keyword := by
  cases op
  exact ⟨by simp [keyword], by simp [keyword]⟩

private theorem BinaryOp.isLabel_keyword (op : BinaryOp) : TreeNode.IsLabel op.keyword := by
  cases op <;> exact ⟨by simp [keyword], by simp [keyword]⟩

private theorem ShiftOp.isLabel_keyword (op : ShiftOp) : TreeNode.IsLabel op.keyword := by
  cases op <;> exact ⟨by simp [keyword], by simp [keyword]⟩

private theorem Expression.isLabel_construct (expression : Expression) :
    TreeNode.IsLabel expression.construct := by
  cases expression <;> exact ⟨by simp [construct], by simp [construct]⟩

private theorem Expression.isLabel_of_mem_leaves {expression : Expression} {label : String}
    (hnames : ∀ mention ∈ expression.operands, '\n' ∉ mention.name.toList)
    (hnumerals : ∀ numeral ∈ expression.numerals, '\n' ∉ numeral.spelling.toList)
    (h : label ∈ expression.leaves) : TreeNode.IsLabel label := by
  have hmention : ∀ mention ∈ expression.operands, TreeNode.IsLabel mention.label :=
    fun mention hmem => Token.isLabel_toString (hnames mention hmem)
  have hnumeral : ∀ numeral ∈ expression.numerals, TreeNode.IsLabel numeral.label :=
    fun numeral hmem => Token.isLabel_toString (hnumerals numeral hmem)
  cases expression with
  | literal value =>
      obtain rfl : label = value.label := by simpa [leaves] using h
      exact hnumeral value (by simp [numerals])
  | wire source =>
      obtain rfl : label = source.label := by simpa [leaves] using h
      exact hmention source (by simp [operands])
  | unary op operand =>
      obtain rfl | rfl : label = op.keyword ∨ label = operand.label := by simpa [leaves] using h
      · exact op.isLabel_keyword
      · exact hmention operand (by simp [operands])
  | binary op left right =>
      obtain rfl | rfl | rfl : label = left.label ∨ label = op.keyword ∨ label = right.label := by
        simpa [leaves] using h
      · exact hmention left (by simp [operands])
      · exact op.isLabel_keyword
      · exact hmention right (by simp [operands])
  | shift op operand amount =>
      obtain rfl | rfl | rfl :
          label = operand.label ∨ label = op.keyword ∨ label = amount.label := by
        simpa [leaves] using h
      · exact hmention operand (by simp [operands])
      · exact op.isLabel_keyword
      · exact hnumeral amount (by simp [numerals])

namespace Schematic

variable {schematic schematic' : Schematic}

/-- The nodes of a tree give back the schematic. -/
theorem outline_inj (h : schematic.outline = schematic'.outline) : schematic = schematic' := by
  rcases schematic with ⟨statements⟩
  rcases schematic' with ⟨statements'⟩
  rw [Schematic.mk.injEq]
  exact Statement.flatMap_outline_inj (List.cons.inj h).2

/-- Without newlines in the schematic, every node of its outline has a proper label. -/
theorem Unbroken.isLabel_of_mem_outline (h : schematic.Unbroken) {node : TreeNode}
    (hnode : node ∈ schematic.outline) : TreeNode.IsLabel node.label := by
  rcases List.mem_cons.mp hnode with rfl | hnode
  · exact ⟨by simp, by simp⟩
  rcases List.mem_flatMap.mp hnode with ⟨statement, hmem, hnode⟩
  rcases h statement hmem with ⟨hnames, hnumerals⟩
  rcases List.forall_mem_cons.mp hnames with ⟨hresult, hoperands⟩
  simp only [Statement.outline_eq, Statement.below, List.mem_cons, List.mem_append, List.mem_map,
    List.not_mem_nil, or_false] at hnode
  rcases hnode with rfl | rfl | ⟨label, hlabel, rfl⟩ | rfl | rfl
  · exact ⟨by simp, by simp⟩
  · exact statement.expression.isLabel_construct
  · exact Expression.isLabel_of_mem_leaves hoperands hnumerals hlabel
  · exact ⟨by simp, by simp⟩
  · exact Token.isLabel_toString hresult

/-- The tree of an unbroken schematic gives back the schematic. -/
theorem toTree_inj (h : schematic.Unbroken) (h' : schematic'.Unbroken) :
    schematic.toTree = schematic'.toTree ↔ schematic = schematic' := by
  refine ⟨fun htree => ?_, fun heq => heq ▸ rfl⟩
  refine outline_inj (Text.join_inj TreeNode.row ?_ ?_ ?_ htree)
  · exact fun node hnode => (h.isLabel_of_mem_outline hnode).newline_not_mem_row
  · exact fun node hnode => (h'.isLabel_of_mem_outline hnode).newline_not_mem_row
  · exact fun node hnode node' hnode' =>
      TreeNode.row_inj (h.isLabel_of_mem_outline hnode) (h'.isLabel_of_mem_outline hnode')

end Schematic

end BitwiseCircuit
