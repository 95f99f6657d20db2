import Mathlib.Data.List.Forall2
import QueryTemplate.Fault.Method

/-! # Related outcomes

Two runs are compared by their outcomes: both succeed with related values, or both fail with
related faults. How much is asked of the faults differs: nothing, that they are the same, or that
they are the same up to places. What holds of each step holds of steps in a row, so it is shown
reader by reader, also of runs that carry a state along.
-/

namespace QueryTemplate

/-- Both outcomes succeed with related values, or both fail with related faults. -/
inductive Except.Related {ε ε' α α' : Type} (faults : ε → ε' → Prop) (values : α → α' → Prop) :
    Except ε α → Except ε' α' → Prop where
  | ok {x : α} {x' : α'} : values x x' → Related faults values (.ok x) (.ok x')
  | error {e : ε} {e' : ε'} : faults e e' → Related faults values (.error e) (.error e')

/-- Both outcomes succeed with related values, or both fail. -/
abbrev Except.Agree {ε ε' α α' : Type} (values : α → α' → Prop) :
    Except ε α → Except ε' α' → Prop :=
  Except.Related (fun _ _ => True) values

namespace Except.Related

variable {ε ε' α α' β β' : Type} {faults : ε → ε' → Prop} {values : α → α' → Prop}
  {results : β → β' → Prop} {x : Except ε α} {x' : Except ε' α'}

theorem refl {faults : ε → ε → Prop} {values : α → α → Prop} (hfaults : ∀ e, faults e e)
    (hvalues : ∀ a, values a a) (x : Except ε α) : Related faults values x x := by
  cases x with
  | ok a => exact .ok (hvalues a)
  | error e => exact .error (hfaults e)

theorem imp {faults' : ε → ε' → Prop} {values' : α → α' → Prop} (h : Related faults values x x')
    (hfaults : ∀ e e', faults e e' → faults' e e')
    (hvalues : ∀ a a', values a a' → values' a a') : Related faults' values' x x' := by
  cases h with
  | ok h => exact .ok (hvalues _ _ h)
  | error h => exact .error (hfaults _ _ h)

theorem mono {values' : α → α' → Prop} (h : Related faults values x x')
    (hvalues : ∀ a a', values a a' → values' a a') : Related faults values' x x' :=
  h.imp (fun _ _ => id) hvalues

/-- What is not asked of the faults can be left out. -/
theorem agree (h : Related faults values x x') : Agree values x x' :=
  h.imp (fun _ _ _ => trivial) fun _ _ => id

/-- Related values, with the outcomes that they come from. -/
theorem and_eq (h : Related faults values x x') :
    Related faults (fun a a' => values a a' ∧ x = .ok a ∧ x' = .ok a') x x' := by
  cases h with
  | ok h => exact .ok ⟨h, rfl, rfl⟩
  | error h => exact .error h

theorem bind {f : α → Except ε β} {f' : α' → Except ε' β'} (h : Related faults values x x')
    (hf : ∀ a a', values a a' → Related faults results (f a) (f' a')) :
    Related faults results (x >>= f) (x' >>= f') := by
  cases h with
  | ok h => exact hf _ _ h
  | error h => exact .error h

theorem map {f : α → β} {f' : α' → β'} (h : Related faults values x x')
    (hf : ∀ a a', values a a' → results (f a) (f' a')) :
    Related faults results (x.map f) (x'.map f') := by
  cases h with
  | ok h => exact .ok (hf _ _ h)
  | error h => exact .error h

theorem mapError {δ δ' : Type} {causes : δ → δ' → Prop} {f : ε → δ} {f' : ε' → δ'}
    (h : Related faults values x x') (hf : ∀ e e', faults e e' → causes (f e) (f' e')) :
    Related causes values (x.mapError f) (x'.mapError f') := by
  cases h with
  | ok h => exact .ok h
  | error h => exact .error (hf _ _ h)

theorem ite {c : Prop} [Decidable c] {y : Except ε α} {y' : Except ε' α'}
    (ht : c → Related faults values x x') (he : ¬c → Related faults values y y') :
    Related faults values (if c then x else y) (if c then x' else y') := by
  by_cases h : c
  · simpa only [if_pos h] using ht h
  · simpa only [if_neg h] using he h

theorem mapM {f : α → Except ε β} {f' : α' → Except ε' β'} {xs : List α} {xs' : List α'}
    (h : List.Forall₂ (fun a a' => Related faults results (f a) (f' a')) xs xs') :
    Related faults (List.Forall₂ results) (xs.mapM f) (xs'.mapM f') := by
  induction h with
  | nil => exact .ok .nil
  | cons h _ ih =>
    rw [List.mapM_cons, List.mapM_cons]
    exact h.bind fun _ _ hb => ih.bind fun _ _ hbs => .ok (.cons hb hbs)

end Except.Related

theorem mapM_eq_ok_iff {ε α β : Type} {f : α → Except ε β} {xs : List α} {ys : List β} :
    xs.mapM f = .ok ys ↔ List.Forall₂ (fun x y => f x = .ok y) xs ys := by
  induction xs generalizing ys with
  | nil =>
    rw [List.mapM_nil, List.forall₂_nil_left_iff]
    exact ⟨fun h => (Except.ok.inj h).symm, fun h => h ▸ rfl⟩
  | cons x xs ih =>
    rw [List.mapM_cons, List.forall₂_cons_left_iff]
    simp only [← ih]
    cases f x with
    | error e => simp [bind, Except.bind]
    | ok y => cases xs.mapM f <;> simp [bind, Except.bind, pure, Except.pure, eq_comm]

/-! ## Runs with a state -/

/-- A run goes on from the state that the first step leaves, unless that step meets a fault. -/
theorem bind_run {σ α β : Type} (x : ExceptT MethodFault (StateM σ) α)
    (f : α → ExceptT MethodFault (StateM σ) β) (s : σ) :
    (x >>= f) s = match (x s).1 with
      | .ok a => f a (x s).2
      | .error e => (.error e, (x s).2) := by
  rcases h : x s with ⟨_ | _, t⟩ <;>
    simp only [Bind.bind, ExceptT.bind, ExceptT.mk, StateT.bind, h] <;> rfl

/-- Runs that, from related states, end with related outcomes in related states. -/
def Simulates {σ α α' : Type} (faults : MethodFault → MethodFault → Prop) (values : α → α' → Prop)
    (states : σ → σ → Prop) (x : ExceptT MethodFault (StateM σ) α)
    (x' : ExceptT MethodFault (StateM σ) α') : Prop :=
  ∀ s s', states s s' → Except.Related faults values (x s).1 (x' s').1 ∧ states (x s).2 (x' s').2

namespace Simulates

variable {σ α α' β β' : Type} {faults : MethodFault → MethodFault → Prop} {values : α → α' → Prop}
  {results : β → β' → Prop} {states : σ → σ → Prop} {x : ExceptT MethodFault (StateM σ) α}
  {x' : ExceptT MethodFault (StateM σ) α'}

theorem bind {f : α → ExceptT MethodFault (StateM σ) β}
    {f' : α' → ExceptT MethodFault (StateM σ) β'} (hx : Simulates faults values states x x')
    (hf : ∀ a a', values a a' → Simulates faults results states (f a) (f' a')) :
    Simulates faults results states (x >>= f) (x' >>= f') := by
  intro s s' hs
  obtain ⟨houtcome, hstate⟩ := hx s s' hs
  rw [bind_run, bind_run]
  generalize (x s).1 = outcome, (x' s').1 = outcome' at houtcome
  cases houtcome with
  | ok h => exact hf _ _ h _ _ hstate
  | error h => exact ⟨.error h, hstate⟩

theorem ofOutcome {y : Except MethodFault α} {y' : Except MethodFault α'}
    (h : Except.Related faults values y y') :
    Simulates faults values states (ExceptT.mk (Pure.pure y)) (ExceptT.mk (Pure.pure y')) :=
  fun _ _ hs => ⟨h, hs⟩

theorem pure {a : α} {a' : α'} (h : values a a') :
    Simulates faults values states (Pure.pure a : ExceptT MethodFault (StateM σ) α)
      (Pure.pure a') :=
  fun _ _ hs => ⟨.ok h, hs⟩

theorem throw {fault fault' : MethodFault} (h : faults fault fault') :
    Simulates faults values states (MonadExcept.throw fault : ExceptT MethodFault (StateM σ) α)
      (MonadExcept.throw fault') :=
  fun _ _ hs => ⟨.error h, hs⟩

theorem throw_bind {fault fault' : MethodFault} (h : faults fault fault')
    (f : α → ExceptT MethodFault (StateM σ) β) (f' : α' → ExceptT MethodFault (StateM σ) β') :
    Simulates faults results states (MonadExcept.throw fault >>= f)
      (MonadExcept.throw fault' >>= f') :=
  fun _ _ hs => ⟨.error h, hs⟩

theorem ite {c : Prop} [Decidable c] {y : ExceptT MethodFault (StateM σ) α}
    {y' : ExceptT MethodFault (StateM σ) α'} (ht : c → Simulates faults values states x x')
    (he : ¬c → Simulates faults values states y y') :
    Simulates faults values states (if c then x else y) (if c then x' else y') := by
  by_cases h : c
  · simpa only [if_pos h] using ht h
  · simpa only [if_neg h] using he h

theorem foldlM {f : β → α → ExceptT MethodFault (StateM σ) β}
    {f' : β' → α' → ExceptT MethodFault (StateM σ) β'} {xs : List α} {xs' : List α'}
    (hxs : List.Forall₂ values xs xs')
    (hf : ∀ b b' a a', results b b' → values a a' →
      Simulates faults results states (f b a) (f' b' a')) {b : β} {b' : β'} (hb : results b b') :
    Simulates faults results states (xs.foldlM f b) (xs'.foldlM f' b') := by
  induction hxs generalizing b b' with
  | nil => exact Simulates.pure hb
  | cons hx _ ih =>
    rw [List.foldlM_cons, List.foldlM_cons]
    exact bind (hf _ _ _ _ hb hx) fun _ _ h => ih h

theorem mapM {f : α → ExceptT MethodFault (StateM σ) β}
    {f' : α' → ExceptT MethodFault (StateM σ) β'} {xs : List α} {xs' : List α'}
    (h : List.Forall₂ (fun a a' => Simulates faults results states (f a) (f' a')) xs xs') :
    Simulates faults (List.Forall₂ results) states (xs.mapM f) (xs'.mapM f') := by
  induction h with
  | nil => exact Simulates.pure .nil
  | cons h _ ih =>
    rw [List.mapM_cons, List.mapM_cons]
    exact bind h fun _ _ hb => bind ih fun _ _ hbs => Simulates.pure (.cons hb hbs)

theorem refl (hfaults : ∀ e, faults e e) (y : ExceptT MethodFault (StateM σ) α) :
    Simulates faults Eq Eq y y := by
  rintro s _ rfl
  exact ⟨.refl hfaults (fun _ => rfl) _, rfl⟩

/-- A step that both runs take, from the same state. -/
theorem step (hfaults : ∀ e, faults e e) (y : ExceptT MethodFault (StateM σ) α)
    {f : α → ExceptT MethodFault (StateM σ) β} {f' : α → ExceptT MethodFault (StateM σ) β'}
    (hf : ∀ a, Simulates faults results Eq (f a) (f' a)) :
    Simulates faults results Eq (y >>= f) (y >>= f') :=
  (refl hfaults y).bind fun a _ h => h ▸ hf a

end Simulates

end QueryTemplate
