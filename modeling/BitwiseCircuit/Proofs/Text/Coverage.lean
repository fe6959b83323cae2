import BitwiseCircuit.Proofs.Text.Counting

/-!
# What the runs of a text leave out

Each character of a text is blank, or belongs to a comment, or belongs to exactly one run.
Whether it belongs to a comment can be told from what has been read before it, without any
scanner: somewhere on its line a number sign starts the text or follows a blank.

Main results:

- Definitions `InComment` and `Skipped` say which characters belong to no run; `stripped` is a
  text without them.
- Definition `Laid` describes how some runs lie in a text, and Theorem `laid_runsFrom`: so lie
  the runs of a text.
- Theorem `Laid.pairwise`: runs do not overlap, and stand in the order of their places.
- Theorem `Laid.flatMap_letters`: next to each other, they are the stripped text.
- Theorem `Laid.exists_belongsTo_iff`: the characters that belong to a run.
-/

namespace BitwiseCircuit.Text

variable {c : Char} {read rest letters more before after : List Char} {here place : Position}
  {run : Run} {runs : List Run}

/-! ## Comments -/

/-- The last of the characters `read` belongs to a comment: a number sign at the start of the text
or after a blank, and no newline since. -/
def InComment (read : List Char) : Prop :=
  ∃ left right, read = left ++ '#' :: right ∧ left.getLast?.all isBlank = true ∧ '\n' ∉ right

/-- Characters end in a comment exactly if one of them is a `#`, at the start or after a blank, and
no newline follows it. -/
theorem inComment_iff_exists_index : InComment read ↔
    ∃ i < read.length, read[i]? = some '#' ∧ (read.take i).getLast?.all isBlank = true ∧
      '\n' ∉ read.drop (i + 1) := by
  constructor
  · rintro ⟨left, right, rfl, hleft, hright⟩
    exact ⟨left.length, by simp, by simp, by simpa using hleft, by simpa using hright⟩
  · rintro ⟨i, hi, hhash, hleft, hright⟩
    refine ⟨read.take i, read.drop (i + 1), ?_, hleft, hright⟩
    rw [List.getElem?_eq_getElem hi, Option.some.injEq] at hhash
    rw [← hhash, List.getElem_cons_drop, List.take_append_drop]

instance (read : List Char) : Decidable (InComment read) :=
  decidable_of_iff' _ inComment_iff_exists_index

private theorem not_inComment_nil : ¬ InComment [] := by
  rintro ⟨left, right, hsplit, -⟩
  simp at hsplit

/-- One more character belongs to a comment if it stays on the line of one, or opens one. -/
theorem inComment_concat : InComment (read ++ [c]) ↔
    c ≠ '\n' ∧ (InComment read ∨ c = '#' ∧ read.getLast?.all isBlank = true) := by
  constructor
  · rintro ⟨left, right, hsplit, hleft, hright⟩
    rcases List.eq_nil_or_concat' right with rfl | ⟨init, last, rfl⟩
    · rcases List.append_inj' hsplit rfl with ⟨rfl, hc⟩
      obtain rfl : c = '#' := by simpa using hc
      exact ⟨by decide, .inr ⟨rfl, hleft⟩⟩
    · rw [← List.cons_append, ← List.append_assoc] at hsplit
      rcases List.append_inj' hsplit rfl with ⟨rfl, hc⟩
      obtain rfl : c = last := by simpa using hc
      simp only [List.mem_append, List.mem_singleton, not_or] at hright
      exact ⟨Ne.symm hright.2, .inl ⟨left, init, rfl, hleft, hright.1⟩⟩
  · rintro ⟨hc, ⟨left, right, rfl, hleft, hright⟩ | ⟨rfl, hread⟩⟩
    · exact ⟨left, right ++ [c], by simp, hleft, by simp [hright, Ne.symm hc]⟩
    · exact ⟨read, [], rfl, hread, List.not_mem_nil⟩

/-- The character `c`, which follows the characters `read`, is blank or belongs to a comment. -/
def Skipped (read : List Char) (c : Char) : Prop :=
  isBlank c = true ∨ InComment (read ++ [c])

instance (read : List Char) (c : Char) : Decidable (Skipped read c) :=
  inferInstanceAs (Decidable (_ ∨ _))

/-- What is left of the characters after `read` without blanks and comments. -/
def strippedAfter (read : List Char) : List Char → List Char
  | [] => []
  | c :: rest =>
    if Skipped read c then strippedAfter (read ++ [c]) rest
    else c :: strippedAfter (read ++ [c]) rest

/-- The characters of a text without blanks and comments. -/
def stripped (text : String) : List Char :=
  strippedAfter [] text.toList

example : stripped "1 -> x # a # b\n# c\nNOT x#y" = "1->xNOTx#y".toList := by
  decide +kernel

/-! ## How runs lie in a text -/

/-- The characters after `read` are the runs, with nothing but blanks and comments before, between
and after them. -/
inductive Laid : (read rest : List Char) → List Run → Prop where
  | done {read : List Char} : Laid read [] []
  | skip {read rest : List Char} {c : Char} {runs : List Run} (hskip : Skipped read c)
      (hrest : Laid (read ++ [c]) rest runs) : Laid read (c :: rest) runs
  | run {read rest : List Char} {run : Run} {runs : List Run} (hstart : run.start = placeAfter read)
      (hsolid : ∀ left c right, run.letters = left ++ c :: right → ¬ Skipped (read ++ left) c)
      (hrest : Laid (read ++ run.letters) rest runs) : Laid read (run.letters ++ rest) (run :: runs)

/-- A comment goes on up to a newline. -/
theorem Laid.comment (hcomment : InComment read) (hletters : ∀ c ∈ letters, c ≠ '\n')
    (hrest : Laid (read ++ letters) rest runs) : Laid read (letters ++ rest) runs := by
  induction letters generalizing read with
  | nil => rwa [List.append_nil] at hrest
  | cons c letters ih =>
      rcases List.forall_mem_cons.mp hletters with ⟨hc, hletters⟩
      have hnext : InComment (read ++ [c]) := inComment_concat.mpr ⟨hc, .inl hcomment⟩
      rw [List.append_cons] at hrest
      exact .skip (.inr hnext) (ih hnext hletters hrest)

/-- No beginning of a run ends in a comment, if the run follows a blank that does not. -/
theorem not_inComment_of_begins (hread : ¬ InComment read) (hhash : letters.head? ≠ some '#')
    (hsolid : ∀ c ∈ letters, isBlank c = false) {shorter : List Char}
    (hshorter : shorter <+: letters) : ¬ InComment (read ++ shorter) := by
  induction shorter using List.reverseRecOn with
  | nil => rwa [List.append_nil]
  | append_singleton init c ih =>
      rw [← List.append_assoc, inComment_concat]
      rintro ⟨-, hinit | ⟨rfl, hlast⟩⟩
      · exact ih ((List.prefix_append init [c]).trans hshorter) hinit
      · rcases hshorter with ⟨rest, rfl⟩
        rcases List.eq_nil_or_concat' init with rfl | ⟨init, d, rfl⟩
        · exact hhash rfl
        · have hblank : isBlank d = true := by
            simpa [← List.append_assoc] using hlast
          rw [hsolid d (by simp)] at hblank
          cases hblank

/-- A run or a comment may start after `read`: no comment is open, and no other run. -/
def Apart (read rest : List Char) : Prop :=
  ∀ c ∈ rest.head?, (c ≠ '\n' → ¬ InComment read) ∧
    (isBlank c = false → read.getLast?.all isBlank = true)

/-- So lie the runs of a text. -/
theorem laid_runsFrom (hhere : placeAfter read = here) (hapart : Apart read rest) :
    Laid read rest (runsFrom here rest) := by
  fun_induction runsFrom here rest generalizing read with
  | case1 here => exact .done
  | case2 here c rest hblank ih =>
      refine .skip (.inl hblank) (ih ?_ fun d hd => ⟨fun _ hcomment => ?_, fun _ => ?_⟩)
      · rw [placeAfter_concat, hhere]
      · rcases inComment_concat.mp hcomment with ⟨hc, hread | ⟨rfl, -⟩⟩
        · exact (hapart c rfl).1 hc hread
        · simp at hblank
      · simpa using hblank
  | case3 here rest hblank ih =>
      have hopen : InComment (read ++ ['#']) :=
        inComment_concat.mpr ⟨by decide, .inr ⟨rfl, (hapart '#' rfl).2 (by simp)⟩⟩
      have hcomment : ∀ d ∈ rest.takeWhile (· != '\n'), d ≠ '\n' :=
        fun d hd => by simpa using List.mem_takeWhile_imp hd
      have hnewline : ∀ d ∈ (rest.dropWhile (· != '\n')).head?, d = '\n' :=
        fun d hd => by simpa using eq_false_of_mem_head?_dropWhile hd
      have hrest := @ih (read ++ ['#'] ++ rest.takeWhile (· != '\n'))
        (by rw [placeAfter_append, placeAfter_concat, hhere, Position.after_cons])
        fun d hd => by
          obtain rfl : d = '\n' := hnewline d hd
          exact ⟨fun hne => absurd rfl hne, by simp⟩
      have hlaid := Laid.comment hopen hcomment hrest
      rw [List.takeWhile_append_dropWhile] at hlaid
      exact .skip (.inr hopen) hlaid
  | case4 here c rest hblank hhash ih =>
      let run : Run := .startingWith here c rest (by simpa using hblank)
      have hblank' : ∀ d ∈ (rest.dropWhile (!isBlank ·)).head?, isBlank d = true :=
        fun d hd => by simpa using eq_false_of_mem_head?_dropWhile hd
      have hread : ¬ InComment read := (hapart c rfl).1 (by rintro rfl; simp at hblank)
      have hopen : ∀ {shorter}, shorter <+: run.letters → ¬ InComment (read ++ shorter) :=
        not_inComment_of_begins hread (by simpa [run, Run.startingWith] using hhash) run.not_isBlank
      have hsolid : ∀ left d right, run.letters = left ++ d :: right →
          ¬ Skipped (read ++ left) d := by
        rintro left d right hletters (hd | hcomment)
        · rw [run.not_isBlank d (by simp [hletters])] at hd
          cases hd
        · rw [List.append_assoc] at hcomment
          exact hopen ⟨right, by simp [hletters]⟩ hcomment
      have hrest := @ih (read ++ run.letters) (by rw [placeAfter_append, hhere]; rfl)
        fun d hd => ⟨fun _ => hopen (List.prefix_refl _),
          fun hd' => by simp [hblank' d hd] at hd'⟩
      have hlaid := Laid.run hhere.symm hsolid hrest
      rwa [show run.letters = c :: rest.takeWhile (!isBlank ·) from rfl, List.cons_append,
        List.takeWhile_append_dropWhile] at hlaid

/-! ## Runs in the order of their places -/

/-- The runs that lie after `read` start there or later. -/
theorem Laid.le_start (h : Laid read rest runs) : ∀ run ∈ runs, placeAfter read ≤ run.start := by
  induction h with
  | done => exact nofun
  | @skip read rest c runs _ hrest ih =>
      intro run hrun
      exact Position.le_trans (Position.le_of_lt (placeAfter_lt read (List.cons_ne_nil c [])))
        (ih run hrun)
  | @run read rest run runs hstart _ hrest ih =>
      refine List.forall_mem_cons.mpr ⟨hstart ▸ Position.le_refl _, fun later hlater => ?_⟩
      exact Position.le_trans (Position.le_of_lt (placeAfter_lt read run.letters_ne_nil))
        (ih later hlater)

/-- Runs do not overlap: each starts where all earlier ones have ended. -/
theorem Laid.pairwise (h : Laid read rest runs) :
    runs.Pairwise fun run later => run.start.after run.letters ≤ later.start := by
  induction h with
  | done => exact .nil
  | skip _ _ ih => exact ih
  | run hstart _ hrest ih =>
      refine .cons (fun later hlater => ?_) ih
      rw [hstart, ← placeAfter_append]
      exact hrest.le_start later hlater

/-! ## The characters of runs -/

/-- Characters none of which is left out are all kept. -/
theorem strippedAfter_append
    (hsolid : ∀ left c right, letters = left ++ c :: right → ¬ Skipped (read ++ left) c) :
    strippedAfter read (letters ++ rest) = letters ++ strippedAfter (read ++ letters) rest := by
  induction letters generalizing read with
  | nil => rw [List.append_nil, List.nil_append, List.nil_append]
  | cons c letters ih =>
      have hc : ¬ Skipped read c := by simpa using hsolid [] c letters rfl
      have hmore : ∀ left d right, letters = left ++ d :: right →
          ¬ Skipped (read ++ [c] ++ left) d := by
        rintro left d right rfl
        simpa using hsolid (c :: left) d right rfl
      rw [List.cons_append, strippedAfter, if_neg hc, ih hmore, List.append_assoc,
        List.singleton_append, List.cons_append]

/-- Next to each other, the runs are what is left without blanks and comments. -/
theorem Laid.flatMap_letters (h : Laid read rest runs) :
    runs.flatMap Run.letters = strippedAfter read rest := by
  induction h with
  | done => rfl
  | skip hskip _ ih => rw [ih, strippedAfter, if_pos hskip]
  | run _ hsolid _ ih => rw [List.flatMap_cons, ih, strippedAfter_append hsolid]

/-- The character `c` between `read` and `rest` is one of the characters `letters`, the first of
which is at `place`. -/
def BelongsTo (read : List Char) (c : Char) (rest : List Char) (place : Position)
    (letters : List Char) : Prop :=
  ∃ before left right after, read = before ++ left ∧ rest = right ++ after ∧
    letters = left ++ c :: right ∧ place = placeAfter before

/-- A fragment starts no later than the characters that belong to it. -/
theorem BelongsTo.place_le (h : BelongsTo read c rest place letters) :
    place ≤ placeAfter read := by
  rcases h with ⟨before, left, right, after, rfl, -, -, rfl⟩
  rw [placeAfter_append]
  exact Position.le_after _ left

/-- A fragment ends after the characters that belong to it. -/
theorem BelongsTo.lt_end (h : BelongsTo read c rest place letters) :
    placeAfter read < place.after letters := by
  rcases h with ⟨before, left, right, after, rfl, -, rfl, rfl⟩
  rw [← placeAfter_append, ← List.append_assoc]
  exact placeAfter_lt _ (List.cons_ne_nil c right)

/-- A character of two parts of a text stands after the first of them, or in it. -/
theorem after_or_within (hsplit : letters ++ rest = more ++ c :: after) :
    (∃ more', more = letters ++ more' ∧ rest = more' ++ c :: after) ∨
      ∃ right, letters = more ++ c :: right ∧ after = right ++ rest := by
  rcases List.append_eq_append_iff.mp hsplit with h | ⟨tail, hletters, htail⟩
  · exact .inl h
  · rcases List.cons_eq_append_iff.mp htail with ⟨rfl, hrest⟩ | ⟨right, rfl, hafter⟩
    · exact .inl ⟨[], by simpa using hletters.symm, hrest⟩
    · exact .inr ⟨right, hletters, hafter⟩

/-- A character belongs to a run exactly if it is neither blank nor in a comment. -/
theorem Laid.exists_belongsTo_iff (h : Laid read rest runs) (hsplit : rest = more ++ c :: after) :
    (∃ run ∈ runs, BelongsTo (read ++ more) c after run.start run.letters) ↔
      ¬ Skipped (read ++ more) c := by
  induction h generalizing more with
  | done => simp at hsplit
  | @skip read rest d runs hskip hrest ih =>
      rcases List.cons_eq_append_iff.mp hsplit with ⟨rfl, hc⟩ | ⟨more, rfl, hrest'⟩
      · obtain ⟨rfl, rfl⟩ := List.cons.inj hc
        refine iff_of_false ?_ (not_not_intro (by simpa using hskip))
        rintro ⟨run, hrun, hbelongs⟩
        have hlt : placeAfter read < run.start :=
          Position.lt_of_lt_of_le (placeAfter_lt read (List.cons_ne_nil c []))
            (hrest.le_start run hrun)
        have hle : run.start ≤ placeAfter read := by simpa using hbelongs.place_le
        exact Position.lt_irrefl _ (Position.lt_of_lt_of_le hlt hle)
      · rw [List.append_cons]
        exact ih hrest'
  | @run read rest run runs hstart hsolid hrest ih =>
      rcases after_or_within hsplit with ⟨more, rfl, hrest'⟩ | ⟨right, hletters, hafter⟩
      · have hended : ¬ BelongsTo (read ++ run.letters ++ more) c after run.start run.letters := by
          intro hbelongs
          have hlt := hbelongs.lt_end
          rw [hstart, ← placeAfter_append, placeAfter_append (read ++ run.letters)] at hlt
          exact Position.lt_irrefl _ (Position.lt_of_lt_of_le hlt (Position.le_after _ more))
        rw [← List.append_assoc, List.exists_mem_cons_iff, or_iff_right hended]
        exact ih hrest'
      · refine iff_of_true ⟨run, List.mem_cons_self, ?_⟩ (hsolid more c right hletters)
        exact ⟨read, more, right, rest, rfl, hafter, hletters, hstart⟩

/-- A character belongs to one element at most of a list of spellings that do not overlap. -/
theorem eq_of_belongsTo {α : Type} {start : α → Position} {spelling : α → List Char} {as : List α}
    (h : as.Pairwise fun a later => (start a).after (spelling a) ≤ start later) {a b : α}
    (ha : a ∈ as) (hb : b ∈ as) (hbelongs : BelongsTo before c after (start a) (spelling a))
    (hbelongs' : BelongsTo before c after (start b) (spelling b)) : a = b := by
  -- Of two spellings that do not overlap, the earlier one ends before the later one starts.
  have hapart : ∀ {earlier later : α}, (start earlier).after (spelling earlier) ≤ start later →
      BelongsTo before c after (start earlier) (spelling earlier) →
      ¬ BelongsTo before c after (start later) (spelling later) := by
    intro earlier later hle hearlier hlater
    exact Position.lt_irrefl _ (Position.lt_of_lt_of_le hearlier.lt_end
      (Position.le_trans hle hlater.place_le))
  have hpairwise := List.pairwise_iff_getElem.mp h
  rcases List.mem_iff_getElem.mp ha with ⟨i, hi, rfl⟩
  rcases List.mem_iff_getElem.mp hb with ⟨j, hj, rfl⟩
  rcases Nat.lt_trichotomy i j with hij | rfl | hij
  · exact absurd hbelongs' (hapart (hpairwise i j hi hj hij) hbelongs)
  · rfl
  · exact absurd hbelongs (hapart (hpairwise j i hj hi hij) hbelongs')

/-! ## Whole texts -/

/-- The runs of a text are laid out in it from its start. -/
theorem laid_runs (text : String) : Laid [] text.toList (Text.runs text) :=
  laid_runsFrom rfl fun _ _ => ⟨fun _ => not_inComment_nil, fun _ => rfl⟩

end BitwiseCircuit.Text
