import Mathlib.Data.List.Forall2

/-!
# Computations that may fail

Reading, building and evaluating a circuit are computations that may fail, made of
smaller ones.  What succeeds as a whole succeeds part by part.

Main results:

- Theorem `exists_of_bind_eq_ok`: if a sequence succeeds, so do its parts.
- Theorem `holds_of_foldlM_eq_ok`: what every step of a fold keeps, about the elements
  done so far and the state, holds of all elements in the end.
- Theorem `exists_of_foldlM_eq_error`: a fold fails at the first element whose step fails.
- Theorems `mapM_eq_ok_iff` and `mapM_eq_error_iff`: elements are mapped one by one, and
  the first that fails decides the fault; Theorem `exists_mapM_eq_ok_iff`: all can be mapped
  if each can.
- Definition `mapBoth` sees a result through a function, and Theorems `foldlM_mapBoth`,
  `mapBoth_mapM` and `mapBoth_bind_congr` do so step by step.
- Definition `Matches` compares the results of two computations, and Theorem `Matches.foldlM`
  does so step by step.
-/

namespace BitwiseCircuit

variable {ε ε' α α' β β' γ σ : Type}

/-- A sequence that succeeds has two parts that succeed. -/
theorem exists_of_bind_eq_ok {first : Except ε α} {next : α → Except ε β} {b : β}
    (h : first >>= next = .ok b) : ∃ a, first = .ok a ∧ next a = .ok b := by
  cases first with
  | error fault => cases h
  | ok a => exact ⟨a, rfl, h⟩

/-- A sequence fails in its first part or, where that succeeds, in its second. -/
theorem of_bind_eq_error {first : Except ε α} {next : α → Except ε β} {fault : ε}
    (h : first >>= next = .error fault) :
    first = .error fault ∨ ∃ a, first = .ok a ∧ next a = .error fault := by
  cases first with
  | error other =>
      cases h
      exact .inl rfl
  | ok a => exact .inr ⟨a, rfl, h⟩

/-- Replacing the fault does not touch the value. -/
theorem eq_ok_of_mapError_eq_ok {f : ε → ε'} {result : Except ε α} {a : α}
    (h : result.mapError f = .ok a) : result = .ok a := by
  cases result with
  | error fault => cases h
  | ok a' =>
      cases h
      rfl

/-- A fault after the replacement comes from a fault before it. -/
theorem exists_of_mapError_eq_error {f : ε → ε'} {result : Except ε α} {fault : ε'}
    (h : result.mapError f = .error fault) : ∃ cause, result = .error cause ∧ f cause = fault := by
  cases result with
  | error cause =>
      cases h
      exact ⟨cause, rfl, rfl⟩
  | ok a => cases h

/-- A value after the replacement comes from a value before it. -/
theorem exists_of_map_eq_ok {g : α → β} {result : Except ε α} {b : β}
    (h : result.map g = .ok b) : ∃ a, result = .ok a ∧ g a = b := by
  cases result with
  | error fault => cases h
  | ok a =>
      cases h
      exact ⟨a, rfl, rfl⟩

/-- A result whose value is replaced succeeds exactly if the result does. -/
theorem exists_map_eq_ok_iff {g : α → β} {result : Except ε α} :
    (∃ b, result.map g = .ok b) ↔ ∃ a, result = .ok a := by
  constructor
  · rintro ⟨b, h⟩
    rcases exists_of_map_eq_ok h with ⟨a, ha, -⟩
    exact ⟨a, ha⟩
  · rintro ⟨a, rfl⟩
    exact ⟨g a, rfl⟩

/-- A result whose fault is replaced succeeds exactly if the result does. -/
theorem exists_mapError_eq_ok_iff {f : ε → ε'} {result : Except ε α} :
    (∃ a, result.mapError f = .ok a) ↔ ∃ a, result = .ok a := by
  constructor
  · rintro ⟨a, h⟩
    exact ⟨a, eq_ok_of_mapError_eq_ok h⟩
  · rintro ⟨a, rfl⟩
    exact ⟨a, rfl⟩

/-- The fault and the value of a result are replaced in either order. -/
theorem mapError_map (f : ε → ε') (g : α → β) (result : Except ε α) :
    (result.map g).mapError f = (result.mapError f).map g := by
  cases result <;> rfl

/-- A property of the elements done so far and the state, kept by every step, holds at
the end of a fold that succeeds. -/
theorem holds_of_foldlM_eq_ok {P : List α → σ → Prop} {step : σ → α → Except ε σ}
    (hstep : ∀ done a s s', P done s → step s a = .ok s' → P (done ++ [a]) s')
    {as : List α} {s s' : σ} (hstart : P [] s) (h : as.foldlM step s = .ok s') : P as s' := by
  suffices hfold : ∀ (rest done : List α) (s : σ), P done s → rest.foldlM step s = .ok s' →
      P (done ++ rest) s' from hfold as [] s hstart h
  intro rest
  induction rest with
  | nil =>
      intro done s hdone hnil
      cases hnil
      rwa [List.append_nil]
  | cons a rest ih =>
      intro done s hdone hcons
      rw [List.foldlM_cons] at hcons
      rcases exists_of_bind_eq_ok hcons with ⟨next, hnext, hrest⟩
      rw [List.append_cons]
      exact ih (done ++ [a]) next (hstep done a s next hdone hnext) hrest

/-- A fold fails at the first element whose step fails. -/
theorem exists_of_foldlM_eq_error {step : σ → α → Except ε σ} {as : List α} {s : σ} {fault : ε}
    (h : as.foldlM step s = .error fault) :
    ∃ before a after s', as = before ++ a :: after ∧ before.foldlM step s = .ok s' ∧
      step s' a = .error fault := by
  induction as generalizing s with
  | nil => cases h
  | cons a as ih =>
      rw [List.foldlM_cons] at h
      cases hstep : step s a with
      | error other =>
          rw [hstep] at h
          cases h
          exact ⟨[], a, as, s, rfl, rfl, hstep⟩
      | ok next =>
          rw [hstep] at h
          rcases ih h with ⟨before, x, after, s', rfl, hbefore, hx⟩
          refine ⟨a :: before, x, after, s', rfl, ?_, hx⟩
          rw [List.foldlM_cons, hstep]
          exact hbefore

variable {f : α → Except ε β} {as : List α} {bs : List β} {fault : ε}

/-- Every element on the right of a pointwise relation has its partner on the left. -/
theorem exists_of_forall₂ {R : α → β → Prop} (h : List.Forall₂ R as bs) {b : β} (hb : b ∈ bs) :
    ∃ a ∈ as, R a b := by
  induction h with
  | nil => cases hb
  | @cons a b' as bs hab _ ih =>
      rcases List.mem_cons.mp hb with rfl | hb
      · exact ⟨a, List.mem_cons_self, hab⟩
      · rcases ih hb with ⟨a', ha', hab'⟩
        exact ⟨a', List.mem_cons_of_mem a ha', hab'⟩

/-- Mapping succeeds with what the single elements give. -/
theorem mapM_eq_ok_iff : as.mapM f = .ok bs ↔ List.Forall₂ (fun a b => f a = .ok b) as bs := by
  constructor
  · intro h
    induction as generalizing bs with
    | nil =>
        cases h
        exact .nil
    | cons a as ih =>
        rw [List.mapM_cons] at h
        rcases exists_of_bind_eq_ok h with ⟨b, hb, hrest⟩
        rcases exists_of_bind_eq_ok hrest with ⟨others, hothers, hcons⟩
        cases hcons
        exact .cons hb (ih hothers)
  · intro h
    induction h with
    | nil => rfl
    | cons hb _ ih =>
        rw [List.mapM_cons, hb, ih]
        rfl

/-- Mapping fails with the fault of an element before which all others succeed. -/
theorem mapM_eq_error_iff : as.mapM f = .error fault ↔
    ∃ before a after, as = before ++ a :: after ∧ (∀ x ∈ before, ∃ b, f x = .ok b) ∧
      f a = .error fault := by
  constructor
  · intro h
    induction as with
    | nil => cases h
    | cons a as ih =>
        rw [List.mapM_cons] at h
        cases ha : f a with
        | error other =>
            rw [ha] at h
            cases h
            exact ⟨[], a, as, rfl, nofun, ha⟩
        | ok b =>
            have hrest : as.mapM f = .error fault := by
              cases has : as.mapM f with
              | error other =>
                  rw [ha, has] at h
                  cases h
                  rfl
              | ok others =>
                  rw [ha, has] at h
                  cases h
            rcases ih hrest with ⟨before, x, after, rfl, hbefore, hx⟩
            exact ⟨a :: before, x, after, rfl, List.forall_mem_cons.mpr ⟨⟨b, ha⟩, hbefore⟩, hx⟩
  · rintro ⟨before, a, after, rfl, hbefore, ha⟩
    induction before with
    | nil =>
        rw [List.nil_append, List.mapM_cons, ha]
        rfl
    | cons x before ih =>
        rcases List.forall_mem_cons.mp hbefore with ⟨⟨b, hb⟩, hbefore⟩
        rw [List.cons_append, List.mapM_cons, hb]
        exact congrArg (· >>= fun others => pure (b :: others)) (ih hbefore)

/-- A list can be mapped exactly if each of its elements can. -/
theorem exists_mapM_eq_ok_iff : (∃ bs, as.mapM f = .ok bs) ↔ ∀ a ∈ as, ∃ b, f a = .ok b := by
  constructor
  · rintro ⟨bs, h⟩ a ha
    rcases exists_of_forall₂ (mapM_eq_ok_iff.mp h).flip ha with ⟨b, _, hb⟩
    exact ⟨b, hb⟩
  · intro h
    cases hmap : as.mapM f with
    | ok bs => exact ⟨bs, rfl⟩
    | error fault =>
        rcases mapM_eq_error_iff.mp hmap with ⟨before, a, after, rfl, -, ha⟩
        rcases h a (by simp) with ⟨b, hb⟩
        rw [hb] at ha
        cases ha

/-! ## Results seen through a function -/

/-- The result with its fault and its value replaced. -/
def mapBoth (f : ε → ε') (g : α → β) : Except ε α → Except ε' β
  | .error fault => .error (f fault)
  | .ok a => .ok (g a)

@[simp]
theorem mapBoth_error (f : ε → ε') (g : α → β) (fault : ε) :
    mapBoth f g (.error fault) = .error (f fault) :=
  rfl

@[simp]
theorem mapBoth_ok (f : ε → ε') (g : α → β) (a : α) : mapBoth f g (.ok a) = .ok (g a) :=
  rfl

/-- Where each step commutes with replacing, so does a fold. -/
theorem foldlM_mapBoth {σ' : Type} {f : ε → ε'} {g : σ → σ'} {k : α → β}
    {step : σ → α → Except ε σ} {step' : σ' → β → Except ε' σ'}
    (hstep : ∀ s a, step' (g s) (k a) = mapBoth f g (step s a)) (as : List α) (s : σ) :
    (as.map k).foldlM step' (g s) = mapBoth f g (as.foldlM step s) := by
  induction as generalizing s with
  | nil => rfl
  | cons a as ih =>
      rw [List.map_cons, List.foldlM_cons, List.foldlM_cons, hstep]
      cases step s a with
      | error fault => rfl
      | ok next => exact ih next

/-- Results may be replaced before the elements are mapped or afterwards. -/
theorem mapBoth_mapM (f : ε → ε') (g : β → γ) (k : α → Except ε β) (as : List α) :
    mapBoth f (List.map g) (as.mapM k) = as.mapM fun a => mapBoth f g (k a) := by
  induction as with
  | nil => rfl
  | cons a as ih =>
      rw [List.mapM_cons, List.mapM_cons, ← ih]
      cases k a with
      | error fault => rfl
      | ok b => cases as.mapM k <;> rfl

/-- To replace the fault alone is to replace both and keep the value. -/
theorem mapError_eq_mapBoth (f : ε → ε') (result : Except ε α) :
    result.mapError f = mapBoth f id result := by
  cases result <;> rfl

/-- Faults may be replaced before the elements are mapped or afterwards. -/
theorem mapError_mapM (f : ε → ε') (k : α → Except ε β) (as : List α) :
    (as.mapM k).mapError f = as.mapM fun a => (k a).mapError f := by
  simp only [mapError_eq_mapBoth]
  rw [← mapBoth_mapM, List.map_id_fun]

/-- Two sequences look alike if their parts do. -/
theorem mapBoth_bind_congr {f : ε → ε'} {g : α → α'} {k : β → β'} {first first' : Except ε α}
    {next next' : α → Except ε β} (hfirst : mapBoth f g first = mapBoth f g first')
    (hnext : ∀ a a', first = .ok a → first' = .ok a' → g a = g a' →
      mapBoth f k (next a) = mapBoth f k (next' a')) :
    mapBoth f k (first >>= next) = mapBoth f k (first' >>= next') := by
  cases first with
  | error fault =>
      cases first' with
      | error fault' =>
          have hfault : f fault = f fault' := Except.error.inj hfirst
          exact congrArg Except.error hfault
      | ok a' => cases hfirst
  | ok a =>
      cases first' with
      | error fault' => cases hfirst
      | ok a' => exact hnext a a' rfl rfl (Except.ok.inj hfirst)

/-- Results look alike after a change of their faults if faults that look alike do. -/
theorem mapBoth_mapError_congr {ε₁ ε₂ : Type} {f : ε → ε'} {f' : ε₁ → ε₂} {change : ε → ε₁}
    {g : α → α'} {result result' : Except ε α} (h : mapBoth f g result = mapBoth f g result')
    (hchange : ∀ fault fault', f fault = f fault' → f' (change fault) = f' (change fault')) :
    mapBoth f' g (result.mapError change) = mapBoth f' g (result'.mapError change) := by
  cases result with
  | error fault =>
      cases result' with
      | error fault' => exact congrArg Except.error (hchange fault fault' (Except.error.inj h))
      | ok a' => cases h
  | ok a =>
      cases result' with
      | error fault' => cases h
      | ok a' => exact congrArg Except.ok (Except.ok.inj h)

/-- Mapping does not depend on what the key of an element leaves out, if the single results do
not. -/
theorem mapM_eq_of_map_eq {κ : Type} {key : α → κ} {as as' : List α}
    (h : as.map key = as'.map key) (hf : ∀ a a', key a = key a' → f a = f a') :
    as.mapM f = as'.mapM f := by
  induction as generalizing as' with
  | nil =>
      obtain rfl : as' = [] := List.map_eq_nil_iff.mp h.symm
      rfl
  | cons a as ih =>
      rcases List.map_eq_cons_iff.mp h.symm with ⟨a', rest, rfl, ha, hrest⟩
      rw [List.mapM_cons, List.mapM_cons, hf a a' ha.symm, ih hrest.symm]

/-! ## Results of two computations -/

/-- Either both computations fail, the second one with the fault of the first one replaced, or
both succeed, with related values. -/
inductive Matches (f : ε → ε') (R : α → α' → Prop) : Except ε α → Except ε' α' → Prop where
  | error (fault : ε) : Matches f R (.error fault) (.error (f fault))
  | ok {a : α} {a' : α'} (hvalues : R a a') : Matches f R (.ok a) (.ok a')

/-- Where single steps match, so do folds. -/
theorem Matches.foldlM {σ' : Type} {f : ε → ε'} {R : σ → σ' → Prop} {k : α → β}
    {step : σ → α → Except ε σ} {step' : σ' → β → Except ε' σ'}
    (hstep : ∀ s s' a, R s s' → Matches f R (step s a) (step' s' (k a))) (as : List α) {s : σ}
    {s' : σ'} (h : R s s') : Matches f R (as.foldlM step s) ((as.map k).foldlM step' s') := by
  induction as generalizing s s' with
  | nil => exact .ok h
  | cons a as ih =>
      rw [List.map_cons, List.foldlM_cons, List.foldlM_cons]
      have hfirst := hstep s s' a h
      generalize step s a = result at hfirst ⊢
      generalize step' s' (k a) = result' at hfirst ⊢
      cases hfirst with
      | error fault => exact .error fault
      | ok hnext => exact ih hnext

end BitwiseCircuit
