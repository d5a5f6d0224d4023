import Mathlib.Data.List.Basic

/-! Code over a state that may raise an error, which a trap catches, or do what the language leaves
undefined. It notes steps on the way, so that what it does can be made to depend on them. Nothing
here depends on what the code is for. -/

/-- How code ends: with a value, with an error, undefined, or not within the rounds it is given. -/
inductive Ended (ε σ α : Type) where
  | value (a : α) (s : σ)
  | raised (error : ε) (s : σ)
  | fault
  | unfinished
  deriving DecidableEq, Repr

/-- The steps noted, and the end. -/
def Trapped (ε κ σ α : Type) : Type := σ → List κ × Ended ε σ α

namespace Trapped

variable {ε κ σ τ α β : Type}

def bind (x : Trapped ε κ σ α) (f : α → Trapped ε κ σ β) : Trapped ε κ σ β := fun s =>
  match x s with
  | (steps,.value a s) => (steps ++ (f a s).1,(f a s).2)
  | (steps,.raised error s) => (steps,.raised error s)
  | (steps,.fault) => (steps,.fault)
  | (steps,.unfinished) => (steps,.unfinished)

instance : Monad (Trapped ε κ σ) where
  pure a := fun s => ([],.value a s)
  bind := Trapped.bind

def raise (error : ε) : Trapped ε κ σ α := fun s => ([],.raised error s)

def fault : Trapped ε κ σ α := fun _ => ([],.fault)

def unfinished : Trapped ε κ σ α := fun _ => ([],.unfinished)

def state : Trapped ε κ σ σ := fun s => ([],.value s s)

def change (f : σ → σ) : Trapped ε κ σ Unit := fun s => ([],.value () (f s))

def note (step : κ) : Trapped ε κ σ Unit := fun s => ([step],.value () s)

/-- A trap: the error that code raises becomes a value. -/
def trap (x : Trapped ε κ σ Unit) : Trapped ε κ σ (Option ε) := fun s =>
  match x s with
  | (steps,.value _ s) => (steps,.value none s)
  | (steps,.raised error s) => (steps,.value (some error) s)
  | (steps,.fault) => (steps,.fault)
  | (steps,.unfinished) => (steps,.unfinished)

/-- Code over another state, entered from this one and left for it. -/
def inside (enter : σ → τ) (leave : τ → σ → σ) (x : Trapped ε κ τ α) : Trapped ε κ σ α := fun s =>
  match x (enter s) with
  | (steps,.value a inner) => (steps,.value a (leave inner s))
  | (steps,.raised error inner) => (steps,.raised error (leave inner s))
  | (steps,.fault) => (steps,.fault)
  | (steps,.unfinished) => (steps,.unfinished)

/-- A call that may return an error, which is raised. -/
def call (answer : Except ε α) : Trapped ε κ σ α :=
  match answer with
  | .ok a => pure a
  | .error error => raise error

/-- If all the steps noted are good, nothing undefined is done, and the end is as it should be. -/
def Ends (good : κ → Prop) (post : α → σ → Prop) (failed : ε → σ → Prop) (run : List κ × Ended ε σ α) : Prop :=
  (∀ step ∈ run.1, good step) →
    match run.2 with
    | .value a s => post a s
    | .raised error s => failed error s
    | .fault => False
    | .unfinished => True

/-- What code does from every state that meets a condition. -/
def Meets (good : κ → Prop) (pre : σ → Prop) (x : Trapped ε κ σ α) (post : α → σ → Prop) (failed : ε → σ → Prop) :
    Prop := ∀ s, pre s → Ends good post failed (x s)

section Rules

variable {good : κ → Prop} {pre : σ → Prop} {post : α → σ → Prop} {last : β → σ → Prop} {failed : ε → σ → Prop}

theorem Meets.bind {x : Trapped ε κ σ α} {f : α → Trapped ε κ σ β} (first : Meets good pre x post failed)
    (rest : ∀ a, Meets good (post a) (f a) last failed) : Meets good pre (x >>= f) last failed := by
  intro s holds
  change Ends good last failed (Trapped.bind x f s)
  intro steps
  have first := first s holds
  unfold Trapped.bind at steps ⊢
  rcases run : x s with ⟨before,⟨a,s'⟩ | ⟨error,s'⟩ | _ | _⟩
  all_goals
    rw [run] at first
    simp only [run] at steps ⊢
  · exact rest a s' (first fun step member => steps step (List.mem_append_left _ member)) fun step member =>
      steps step (List.mem_append_right _ member)
  · exact first steps
  · exact first steps

theorem Meets.pure {a : α} (holds : ∀ s, pre s → post a s) : Meets good pre (pure a) post failed :=
  fun s before _ => holds s before

theorem Meets.raise {error : ε} (holds : ∀ s, pre s → failed error s) :
    Meets good pre (raise error : Trapped ε κ σ α) post failed := fun s before _ => holds s before

theorem Meets.unfinished : Meets good pre (unfinished : Trapped ε κ σ α) post failed := fun _ _ _ => trivial

theorem Meets.state : Meets good pre (state : Trapped ε κ σ σ) (fun a s => a = s ∧ pre s) failed :=
  fun _ before _ => ⟨rfl,before⟩

/-- What code does with a state that it has looked at. -/
theorem Meets.observe {f : σ → Trapped ε κ σ β} (rest : ∀ now, pre now → Meets good (now = ·) (f now) last failed) :
    Meets good pre (Trapped.state >>= f) last failed := fun s before => rest s before s rfl

theorem Meets.change {f : σ → σ} {after : Unit → σ → Prop} (holds : ∀ s, pre s → after () (f s)) :
    Meets good pre (change f : Trapped ε κ σ Unit) after failed := fun s before _ => holds s before

/-- A change, and what follows it. -/
theorem Meets.changed {f : σ → σ} {y : Trapped ε κ σ β} {middle : σ → Prop} (rest : Meets good middle y last failed)
    (holds : ∀ s, pre s → middle (f s)) : Meets good pre (Trapped.change f >>= fun _ => y) last failed :=
  fun s before => rest (f s) (holds s before)

theorem Meets.note {step : κ} : Meets good pre (note step : Trapped ε κ σ Unit) (fun _ s => good step ∧ pre s) failed :=
  fun _ before all => ⟨all step (List.mem_singleton_self step),before⟩

theorem Meets.fault (never : ∀ s, ¬pre s) : Meets good pre (fault : Trapped ε κ σ α) post failed :=
  fun s before _ => never s before

/-- A trap turns what holds at an error into what holds after it. -/
theorem Meets.trap {x : Trapped ε κ σ Unit} {after : Unit → σ → Prop} {never : ε → σ → Prop} (body : Meets good pre x after failed) :
    Meets good pre (trap x) (fun error s => error.elim (after () s) fun error => failed error s) never := by
  intro s before steps
  have body := body s before
  unfold Trapped.trap at steps ⊢
  rcases run : x s with ⟨noted,⟨_,s'⟩ | ⟨error,s'⟩ | _ | _⟩
  all_goals
    rw [run] at body
    simp only [run] at steps ⊢
  · exact body steps
  · exact body steps
  · exact body steps

theorem Meets.inside {enter : σ → τ} {leave : τ → σ → σ} {x : Trapped ε κ τ α} {inner : α → τ → Prop} {raised : ε → τ → Prop}
    {here : τ → Prop} (body : Meets good here x inner raised) (enters : ∀ s, pre s → here (enter s))
    (leaves : ∀ s a t, pre s → inner a t → post a (leave t s)) (fails : ∀ s error t, pre s → raised error t → failed error (leave t s)) :
    Meets good pre (inside enter leave x) post failed := by
  intro s before steps
  have body := body (enter s) (enters s before)
  unfold Trapped.inside at steps ⊢
  rcases run : x (enter s) with ⟨noted,⟨a,t⟩ | ⟨error,t⟩ | _ | _⟩
  all_goals
    rw [run] at body
    simp only [run] at steps ⊢
  · exact leaves s a t before (body steps)
  · exact fails s error t before (body steps)
  · exact body steps

theorem Meets.call {answer : Except ε α} (value : ∀ a s, answer = .ok a → pre s → post a s)
    (error : ∀ e s, answer = .error e → pre s → failed e s) :
    Meets good pre (call answer : Trapped ε κ σ α) post failed := by
  cases answer with
  | ok a => exact .pure fun s => value a s rfl
  | error e => exact .raise fun s => error e s rfl

theorem Meets.ite {condition : Prop} [Decidable condition] {x y : Trapped ε κ σ α}
    (yes : condition → Meets good pre x post failed) (no : ¬condition → Meets good pre y post failed) :
    Meets good pre (if condition then x else y) post failed := by
  split
  · exact yes ‹_›
  · exact no ‹_›

theorem Meets.weaken {x : Trapped ε κ σ α} {stronger : σ → Prop} {narrower : α → σ → Prop} {other : ε → σ → Prop}
    (meets : Meets good pre x post failed) (before : ∀ s, stronger s → pre s) (after : ∀ a s, post a s → narrower a s)
    (error : ∀ e s, failed e s → other e s) : Meets good stronger x narrower other := by
  intro s holds steps
  have ends := meets s (before s holds) steps
  revert ends
  rcases (x s).2 with ⟨a,s'⟩ | ⟨e,s'⟩ | _ | _ <;> intro ends
  · exact after a s' ends
  · exact error e s' ends
  · exact ends
  · trivial

end Rules

end Trapped
