import Mathlib.Data.List.Basic

/-! Code under `assert`, and finite runs of a process whose steps are such code.
A run is a list of events; the environment offers only enabled events, and the
step itself may still stop. Nothing here depends on what the process does. -/

/-- Why a piece of code did not return to its caller. -/
inductive Stop where
  | assertion
  | exception
  | fault
  | stuck
  deriving DecidableEq, Repr

abbrev Code (α : Type) := Except Stop α

/-- The C macro `assert`. -/
def require (condition : Prop) [Decidable condition] : Code Unit :=
  if condition then .ok () else .error .assertion

theorem require_true {condition : Prop} [Decidable condition] (h : condition) :
    require condition = .ok () := by simp [require,h]

theorem require_false {condition : Prop} [Decidable condition] (h : ¬condition) :
    require condition = .error .assertion := by simp [require,h]

@[simp] theorem require_trivial : require True = .ok () := rfl

namespace Code

@[simp] theorem ok_bind (a : α) (f : α → Code β) : ((Except.ok a : Code α) >>= f) = f a := rfl

@[simp] theorem error_bind (stop : Stop) (f : α → Code β) :
    ((Except.error stop : Code α) >>= f) = .error stop := rfl

@[simp] theorem pure_eq (a : α) : (pure a : Code α) = .ok a := rfl

/-- A sequence returns exactly when both parts do. -/
theorem bind_ok_iff {code : Code α} {f : α → Code β} {b : β} :
    (code >>= f) = .ok b ↔ ∃ a, code = .ok a ∧ f a = .ok b := by
  cases code <;> simp

theorem bind_error_iff {code : Code α} {f : α → Code β} {stop : Stop} :
    (code >>= f) = .error stop ↔ code = .error stop ∨ ∃ a, code = .ok a ∧ f a = .error stop := by
  cases code <;> simp

theorem require_bind_ok {condition : Prop} [Decidable condition] {f : Unit → Code β} {b : β} :
    (require condition >>= f) = .ok b ↔ condition ∧ f () = .ok b := by
  by_cases h : condition <;> simp [require,h]

theorem require_bind_true {condition : Prop} [Decidable condition] (h : condition)
    (f : Unit → Code β) : (require condition >>= f) = f () := by simp [require,h]

/-- Whether code stopped at an assertion. -/
def asserts : Code α → Bool
  | .error .assertion => true
  | _ => false

theorem asserts_iff (code : Code α) : code.asserts = true ↔ code = .error .assertion := by
  rcases code with (_ | _ | _ | _) | _ <;> simp [asserts]

instance (code : Code α) : Decidable (code = .error .assertion) := decidable_of_iff _ code.asserts_iff

/-- Whether code returns a value that meets a condition. -/
instance decideReturns (condition : α → Prop) [DecidablePred condition] :
    ∀ code : Code α, Decidable (∃ a, code = .ok a ∧ condition a)
  | .ok a => decidable_of_iff (condition a) (by simp)
  | .error _ => isFalse (by simp)

end Code

/-- States, the events the environment may offer in each of them, and the code
that handles one event. -/
structure Process (σ ε : Type) where
  enabled : σ → ε → Prop
  decide : ∀ s e, Decidable (enabled s e)
  step : σ → ε → Code σ

namespace Process

variable {σ ε : Type} (P : Process σ ε)

instance (s : σ) (e : ε) : Decidable (P.enabled s e) := P.decide s e

/-- The state after a run. An event that is not enabled belongs to no run. -/
def exec : σ → List ε → Code σ
  | s, [] => .ok s
  | s, e :: rest => if P.enabled s e then P.step s e >>= fun next => exec next rest else .error .stuck

/-- Every step of the run meets a condition on its event and the state before it. -/
def Meets (condition : σ → ε → Prop) : σ → List ε → Prop
  | _, [] => True
  | s, e :: rest => condition s e ∧ ∀ next, P.step s e = .ok next → Meets condition next rest

variable {condition : σ → ε → Prop}

theorem meets_cons_ok {s next : σ} {e : ε} {rest : List ε}
    (step : P.step s e = .ok next) :
    P.Meets condition s (e :: rest) ↔ condition s e ∧ P.Meets condition next rest := by
  simp [Meets,step]

theorem meets_cons_error {s : σ} {e : ε} {rest : List ε} {stop : Stop}
    (step : P.step s e = .error stop) : P.Meets condition s (e :: rest) ↔ condition s e := by
  simp [Meets,step]

instance decideMeets {condition : σ → ε → Prop} [∀ s e, Decidable (condition s e)] :
    ∀ s events, Decidable (P.Meets condition s events)
  | _, [] => isTrue trivial
  | s, e :: rest =>
    match step : P.step s e with
    | .ok next =>
      have : Decidable (P.Meets condition next rest) := decideMeets next rest
      decidable_of_iff _ (P.meets_cons_ok step).symm
    | .error _ => decidable_of_iff _ (P.meets_cons_error step).symm

@[simp] theorem exec_nil (s : σ) : P.exec s [] = .ok s := rfl

theorem exec_cons {s : σ} {e : ε} {rest : List ε} {final : σ} :
    P.exec s (e :: rest) = .ok final ↔
      P.enabled s e ∧ ∃ next, P.step s e = .ok next ∧ P.exec next rest = .ok final := by
  by_cases h : P.enabled s e <;> simp [exec,h,Code.bind_ok_iff]

theorem meets_true (s : σ) (events : List ε) : P.Meets (fun _ _ => True) s events := by
  induction events generalizing s with
  | nil => trivial
  | cons e rest ih => exact ⟨trivial,fun next _ => ih next⟩

variable {events : List ε}

theorem meets_mono {weaker : σ → ε → Prop} (implies : ∀ s e, condition s e → weaker s e)
    {s : σ} (meets : P.Meets condition s events) : P.Meets weaker s events := by
  induction events generalizing s with
  | nil => trivial
  | cons e rest ih => exact ⟨implies s e meets.1,fun next step => ih (meets.2 next step)⟩

/-- What every admitted step preserves holds after every admitted run. -/
theorem exec_invariant (invariant : σ → Prop)
    (preserved : ∀ s e next, invariant s → P.enabled s e → condition s e →
      P.step s e = .ok next → invariant next)
    {s final : σ} (initial : invariant s)
    (run : P.exec s events = .ok final) (meets : P.Meets condition s events) : invariant final := by
  induction events generalizing s with
  | nil =>
    cases run
    exact initial
  | cons e rest ih =>
    obtain ⟨can,next,step,run⟩ := P.exec_cons.mp run
    exact ih (preserved s e next initial can meets.1 step) run (meets.2 next step)

/-- Where every admitted step returns, an admitted run returns, or is none. -/
theorem exec_returns (invariant : σ → Prop)
    (steps : ∀ s e, invariant s → P.enabled s e → condition s e → ∃ next, P.step s e = .ok next ∧ invariant next)
    {s : σ} (initial : invariant s) (meets : P.Meets condition s events) :
    (∃ final, P.exec s events = .ok final ∧ invariant final) ∨ P.exec s events = .error .stuck := by
  induction events generalizing s with
  | nil => exact .inl ⟨s,rfl,initial⟩
  | cons e rest ih =>
    by_cases can : P.enabled s e
    · obtain ⟨next,step,holds⟩ := steps s e initial can meets.1
      simp only [exec,if_pos can,step,Code.ok_bind]
      exact ih holds (meets.2 next step)
    · exact .inr (by simp [exec,can])

/-- What every admitted step does holds of the last step of an admitted run, or the run is none. -/
theorem exec_last (invariant : σ → Prop) (outcome : σ → ε → σ → Prop)
    (steps : ∀ s e, invariant s → P.enabled s e → condition s e →
      ∃ next, P.step s e = .ok next ∧ invariant next ∧ outcome s e next)
    {s : σ} {e : ε} (initial : invariant s) (meets : P.Meets condition s (events ++ [e])) :
    (∃ before after, P.exec s events = .ok before ∧ P.step before e = .ok after ∧ invariant after ∧ outcome before e after) ∨
      P.exec s (events ++ [e]) = .error .stuck := by
  induction events generalizing s with
  | nil =>
    by_cases can : P.enabled s e
    · obtain ⟨next,step,holds,done⟩ := steps s e initial can meets.1
      exact .inl ⟨s,next,rfl,step,holds,done⟩
    · exact .inr (by simp [exec,can])
  | cons first rest ih =>
    by_cases can : P.enabled s first
    · obtain ⟨next,step,holds,-⟩ := steps s first initial can meets.1
      simp only [List.cons_append,exec,if_pos can,step,Code.ok_bind]
      exact ih holds (meets.2 next step)
    · exact .inr (by simp [exec,can])

/-- A run stops with an assertion only where some admitted step does. -/
theorem exec_safe (invariant : σ → Prop)
    (preserved : ∀ s e next, invariant s → P.enabled s e → condition s e →
      P.step s e = .ok next → invariant next)
    (safe : ∀ s e, invariant s → P.enabled s e → condition s e → P.step s e ≠ .error .assertion)
    {s : σ} (initial : invariant s) (meets : P.Meets condition s events) :
    P.exec s events ≠ .error .assertion := by
  induction events generalizing s with
  | nil => simp
  | cons e rest ih =>
    by_cases can : P.enabled s e
    · simp only [exec,if_pos can]
      intro stopped
      rcases Code.bind_error_iff.mp stopped with here | ⟨next,step,later⟩
      · exact safe s e initial can meets.1 here
      · exact ih (preserved s e next initial can meets.1 step) (meets.2 next step) later
    · simp [exec,can]

end Process
