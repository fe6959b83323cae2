import BitwiseCircuit.Command.Invocation
import BitwiseCircuit.Proofs.Except

/-!
# What command lines ask for

A command line is read from left to right, but what it asks for does not depend on where its
options stand: only names are told apart by their order.  No option may be given twice, and at
most one thing other than values may be shown.

Main results:

- Definition `Request.StatedBy` says which arguments ask for a request.
- Theorem `Invocation.ofWords_eq_run_iff`: these are the arguments that are read as that request.
- Theorem `Invocation.ofWords_insert_verbose`: a further option to report the stages may stand
  anywhere, and asks for nothing else.
-/

namespace BitwiseCircuit

/-- How an order is written. -/
def Netlist.Order.spelling : Netlist.Order → String
  | byName => "name"
  | byMention => "source"

/-- Each order has its own spelling. -/
theorem Netlist.Order.spelling_injective : Function.Injective Netlist.Order.spelling := by
  intro order order' h
  cases order <;> cases order' <;> simp_all [spelling]

namespace Command

variable {arguments done : List Argument} {argument : Argument} {draft draft' : Draft}
  {request : Request}

/-! ## Arguments that ask for a request -/

namespace Argument

/-- The name that an argument is. -/
@[simp]
def name? : Argument → Option String
  | name text => some text
  | _ => none

/-- The order that an argument gives, as it is written. -/
@[simp]
def order? : Argument → Option String
  | order value => some value
  | _ => none

end Argument

/-- The arguments ask for the request. -/
structure Request.StatedBy (request : Request) (arguments : List Argument) : Prop where
  names : arguments.filterMap Argument.name? = request.input :: request.wires
  /-- The order is given at most once, and correctly written. -/
  order : arguments.filterMap Argument.order? = [] ∧ request.order = .byName ∨
    arguments.filterMap Argument.order? = [request.order.spelling]
  tokens : .flag .tokens ∈ arguments ↔ request.subject = .tokens
  tree : .flag .tree ∈ arguments ↔ request.subject = .tree
  verbose : .flag .verbose ∈ arguments ↔ request.verbose = true
  once : ∀ flag, arguments.count (.flag flag) ≤ 1
  /-- Nothing decides at once what is asked for. -/
  undecided : .version ∉ arguments ∧ .help ∉ arguments ∧ .unknown ∉ arguments

/-- Arguments that ask neither for the tokens nor for the tree ask for values. -/
theorem Request.StatedBy.subject_eq_values (h : request.StatedBy arguments)
    (htokens : .flag .tokens ∉ arguments) (htree : .flag .tree ∉ arguments) :
    request.subject = .values := by
  rw [h.tokens] at htokens
  rw [h.tree] at htree
  cases hsubject : request.subject with
  | values => rfl
  | tokens => exact absurd hsubject htokens
  | tree => exact absurd hsubject htree

/-! ## What is taken in -/

namespace Draft

/-- Whether an option has been given. -/
def has (draft : Draft) : Flag → Bool
  | .tokens => draft.tokens
  | .tree => draft.tree
  | .verbose => draft.verbose

/-- The draft after an option has been given. -/
def give (draft : Draft) : Flag → Draft
  | .tokens => { draft with tokens := true }
  | .tree => { draft with tree := true }
  | .verbose => { draft with verbose := true }

/-- A flag is taken in unless it has been given before. -/
theorem take_flag (draft : Draft) (flag : Flag) :
    draft.take (.flag flag) = if draft.has flag then .error .misuse else .ok (draft.give flag) := by
  cases flag <;> rfl

@[simp]
theorem names_give (draft : Draft) (flag : Flag) : (draft.give flag).names = draft.names := by
  cases flag <;> rfl

@[simp]
theorem order_give (draft : Draft) (flag : Flag) : (draft.give flag).order = draft.order := by
  cases flag <;> rfl

@[simp]
theorem has_give (draft : Draft) (flag other : Flag) :
    (draft.give flag).has other = (decide (flag = other) || draft.has other) := by
  cases flag <;> cases other <;> rfl

@[simp]
theorem has_push (draft : Draft) (text : String) (flag : Flag) :
    { draft with names := draft.names.push text }.has flag = draft.has flag := by
  cases flag <;> rfl

@[simp]
theorem has_some_order (draft : Draft) (order : Netlist.Order) (flag : Flag) :
    { draft with order := some order }.has flag = draft.has flag := by
  cases flag <;> rfl

/-- An order is taken in if none has been given before and it is correctly written. -/
theorem take_order_eq_ok_iff {value : String} : draft.take (.order value) = .ok draft' ↔
    draft.order = none ∧ ∃ order : Netlist.Order, value = order.spelling ∧
      draft' = { draft with order := some order } := by
  constructor
  · intro h
    unfold take at h
    dsimp only at h
    split at h
    · rename_i hnone
      cases h
      exact ⟨hnone, .byName, rfl, rfl⟩
    · rename_i hnone
      cases h
      exact ⟨hnone, .byMention, rfl, rfl⟩
    · cases h
  · rintro ⟨hnone, order, rfl, rfl⟩
    cases order <;> simp [take, hnone, Netlist.Order.spelling]

/-- No argument alone decides that something is run. -/
theorem take_ne_run : draft.take argument ≠ .error (.run request) := by
  intro h
  cases argument with
  | flag flag =>
      rw [take_flag] at h
      split at h <;> cases h
  | order value =>
      unfold take at h
      dsimp only at h
      split at h <;> cases h
  | name text => cases h
  | version => cases h
  | help => cases h
  | unknown => cases h

/-- The draft holds what the arguments say. -/
structure Records (draft : Draft) (arguments : List Argument) : Prop where
  names : arguments.filterMap Argument.name? = draft.names.toList
  order : arguments.filterMap Argument.order? = (draft.order.map (·.spelling)).toList
  count : ∀ flag, arguments.count (.flag flag) = (draft.has flag).toNat
  undecided : .version ∉ arguments ∧ .help ∉ arguments ∧ .unknown ∉ arguments

private theorem records_start : start.Records [] where
  names := rfl
  order := rfl
  count flag := by cases flag <;> rfl
  undecided := ⟨nofun, nofun, nofun⟩

/-- A draft that takes in one more argument holds what that one says, too. -/
theorem Records.take (h : draft.Records done) (htake : draft.take argument = .ok draft') :
    draft'.Records (done ++ [argument]) := by
  cases argument with
  | name text =>
      cases htake
      exact {
        names := by simp [h.names]
        order := by simp [h.order]
        count := fun flag => by simpa [List.count_append] using h.count flag
        undecided := by simp [h.undecided] }
  | flag flag =>
      rw [take_flag] at htake
      cases hgiven : draft.has flag with
      | true =>
          rw [hgiven] at htake
          cases htake
      | false =>
          rw [hgiven] at htake
          cases htake
          exact {
            names := by simp [h.names]
            order := by simp [h.order]
            count := fun other => by
              rw [List.count_append, h.count, has_give]
              by_cases heq : flag = other
              · subst heq
                -- the option is given for the first time
                simp [hgiven]
              · simp [heq]
            undecided := by simp [h.undecided] }
  | order value =>
      rcases take_order_eq_ok_iff.mp htake with ⟨hnone, order, rfl, rfl⟩
      exact {
        names := by simp [h.names]
        order := by simp [h.order, hnone]
        count := fun flag => by simpa [List.count_append] using h.count flag
        undecided := by simp [h.undecided] }
  | version => cases htake
  | help => cases htake
  | unknown => cases htake

/-- What has been read without a decision is held by the draft. -/
theorem records_of_foldlM (h : arguments.foldlM Draft.take start = .ok draft) :
    draft.Records arguments :=
  holds_of_foldlM_eq_ok (P := fun done draft => draft.Records done)
    (fun _ _ _ _ hrecords htake => hrecords.take htake) records_start h

/-- The draft of arguments that ask for a request takes in every one of them. -/
theorem Records.take_ne_error {after : List Argument} {invocation : Invocation}
    (h : draft.Records done) (hstated : request.StatedBy (done ++ argument :: after)) :
    draft.take argument ≠ .error invocation := by
  intro htake
  cases argument with
  | name text => cases htake
  | flag flag =>
      rw [take_flag] at htake
      cases hgiven : draft.has flag with
      | true =>
          have honce := hstated.once flag
          rw [List.count_append, h.count, List.count_cons_self, hgiven, Bool.toNat_true] at honce
          omega
      | false =>
          rw [hgiven] at htake
          cases htake
  | order value =>
      have horder := hstated.order
      rw [List.filterMap_append, h.order, List.filterMap_cons, Argument.order?] at horder
      cases hnone : draft.order with
      | some order => simp [hnone] at horder
      | none =>
          rw [hnone, Option.map_none, Option.toList_none, List.nil_append] at horder
          rcases horder with ⟨hnil, -⟩ | hsingle
          · cases hnil
          · have horder := List.head_eq_of_cons_eq hsingle
            rw [take_order_eq_ok_iff.mpr ⟨hnone, request.order, horder, rfl⟩]
              at htake
            cases htake
  | version => exact hstated.undecided.1 (by simp)
  | help => exact hstated.undecided.2.1 (by simp)
  | unknown => exact hstated.undecided.2.2 (by simp)

/-- A draft that records arguments has a flag exactly if the flag is among them. -/
theorem Records.mem_iff (h : draft.Records arguments) (flag : Flag) :
    .flag flag ∈ arguments ↔ draft.has flag = true := by
  rw [← List.count_pos_iff, h.count]
  cases draft.has flag <;> simp

/-- A draft is finished to a request if it names the input and shows one thing. -/
theorem finish_eq_run_iff : draft.finish = .run request ↔
    draft.names.toList = request.input :: request.wires ∧
      draft.order.getD .byName = request.order ∧
      (draft.has .tokens = true ↔ request.subject = .tokens) ∧
      (draft.has .tree = true ↔ request.subject = .tree) ∧
      (draft.has .verbose = true ↔ request.verbose = true) := by
  rcases draft with ⟨names, order, tokens, tree, verbose⟩
  rcases request with ⟨input, wires, order', subject, verbose'⟩
  unfold finish
  dsimp only [has]
  cases names.toList with
  | nil => simp
  | cons input' wires' => cases tokens <;> cases tree <;> cases subject <;> simp [and_assoc]

/-- What the draft of some arguments is finished to is what they ask for. -/
theorem Records.finish_eq_run_iff (h : draft.Records arguments) :
    draft.finish = .run request ↔ request.StatedBy arguments := by
  rw [Draft.finish_eq_run_iff, ← h.mem_iff, ← h.mem_iff, ← h.mem_iff, ← h.names]
  constructor
  · rintro ⟨hnames, horder, htokens, htree, hverbose⟩
    refine ⟨hnames, ?_, htokens, htree, hverbose, fun flag => ?_, h.undecided⟩
    · rw [h.order, ← horder]
      cases draft.order <;> simp
    · rw [h.count]
      exact Bool.toNat_le _
  · intro hstated
    refine ⟨hstated.names, ?_, hstated.tokens, hstated.tree, hstated.verbose⟩
    have horder := hstated.order
    rw [h.order] at horder
    cases hgiven : draft.order with
    | none =>
        rw [hgiven] at horder
        rcases horder with ⟨-, horder⟩ | hsingle
        · exact horder.symm
        · cases hsingle
    | some order =>
        rw [hgiven] at horder
        rcases horder with ⟨hnil, -⟩ | hsingle
        · cases hnil
        · exact Netlist.Order.spelling_injective (List.head_eq_of_cons_eq hsingle)

end Draft

/-! ## What is asked for -/

/-- A command line is read as a request exactly if its arguments ask for the request. -/
theorem Invocation.ofWords_eq_run_iff {words : List String} :
    Invocation.ofWords words = .run request ↔ request.StatedBy (Argument.ofWords words) := by
  rw [ofWords]
  cases hfold : (Argument.ofWords words).foldlM Draft.take Draft.start with
  | ok draft => exact (Draft.records_of_foldlM hfold).finish_eq_run_iff
  | error invocation =>
      rcases exists_of_foldlM_eq_error hfold with
        ⟨before, argument, after, draft, hsplit, hbefore, htake⟩
      constructor
      · rintro rfl
        exact absurd htake Draft.take_ne_run
      · intro hstated
        rw [hsplit] at hstated
        exact absurd htake ((Draft.records_of_foldlM hbefore).take_ne_error hstated)

/-- Arguments that do not ask for reports of the stages do so after one more option, and ask for
nothing else. -/
theorem Request.StatedBy.insert_verbose {before after : List Argument}
    (h : request.StatedBy (before ++ after)) (hquiet : Argument.flag .verbose ∉ before ++ after) :
    Request.StatedBy { request with verbose := true }
      (before ++ .flag .verbose :: after) where
  names := by simpa [List.filterMap_cons] using h.names
  order := by simpa only [List.filterMap_append, List.filterMap_cons, Argument.order?] using h.order
  tokens := by simpa using h.tokens
  tree := by simpa using h.tree
  verbose := by simp
  once flag := by
    have honce := h.once flag
    by_cases heq : flag = .verbose
    · subst heq
      have hnone := List.count_eq_zero_of_not_mem hquiet
      rw [List.count_append] at hnone ⊢
      rw [List.count_cons_self]
      omega
    · rw [List.count_append] at honce ⊢
      rwa [List.count_cons_of_ne]
      simpa using Ne.symm heq
  undecided := by simpa using h.undecided

/-- An option to report the stages may be added anywhere, and asks for nothing else. -/
theorem Invocation.ofWords_insert_verbose {words words' : List String}
    {before after : List Argument} (hrun : Invocation.ofWords words = .run request)
    (hquiet : .flag .verbose ∉ Argument.ofWords words)
    (hwords : Argument.ofWords words = before ++ after)
    (hwords' : Argument.ofWords words' = before ++ .flag .verbose :: after) :
    Invocation.ofWords words' = .run { request with verbose := true } := by
  rw [ofWords_eq_run_iff, hwords] at hrun
  rw [hwords] at hquiet
  rw [ofWords_eq_run_iff, hwords']
  exact hrun.insert_verbose hquiet

end Command

end BitwiseCircuit
