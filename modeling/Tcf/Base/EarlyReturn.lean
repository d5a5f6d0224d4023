/-! Code that falls through to what follows it, or returns early. Nothing here depends on what
the code does. -/

/-- How a piece of code over a state ends: with a value for what follows, by returning, by
returning an error, or where the language or an assertion stops it. -/
inductive EarlyReturn (σ α : Type) where
  | next (a : α)
  | returned (s : σ)
  | failed (error : Int) (s : σ)
  | stuck
  deriving Repr

namespace EarlyReturn

variable {σ α β : Type}

def bind : EarlyReturn σ α → (α → EarlyReturn σ β) → EarlyReturn σ β
  | .next a, f => f a
  | .returned s, _ => .returned s
  | .failed error s, _ => .failed error s
  | .stuck, _ => .stuck

instance : Monad (EarlyReturn σ) where
  pure := .next
  bind := EarlyReturn.bind

@[simp] theorem pure_eq (a : α) : (pure a : EarlyReturn σ α) = .next a := rfl

@[simp] theorem next_bind (a : α) (f : α → EarlyReturn σ β) : ((.next a : EarlyReturn σ α) >>= f) = f a := rfl

@[simp] theorem returned_bind (s : σ) (f : α → EarlyReturn σ β) : ((.returned s : EarlyReturn σ α) >>= f) = .returned s := rfl

@[simp] theorem failed_bind (error : Int) (s : σ) (f : α → EarlyReturn σ β) :
    ((.failed error s : EarlyReturn σ α) >>= f) = .failed error s := rfl

@[simp] theorem stuck_bind (f : α → EarlyReturn σ β) : ((.stuck : EarlyReturn σ α) >>= f) = .stuck := rfl

/-- A call that may return an error, which the code returns as well. -/
def ask (answer : Except Int α) (s : σ) : EarlyReturn σ α :=
  match answer with
  | .ok a => .next a
  | .error error => .failed error s

@[simp] theorem ask_ok (a : α) (s : σ) : ask (.ok a) s = .next a := rfl

@[simp] theorem ask_error (error : Int) (s : σ) : (ask (.error error) s : EarlyReturn σ α) = .failed error s := rfl

/-- What holds where code returns without an error, and what holds where it falls through. -/
def Ends (post : σ → Prop) (after : α → Prop) : EarlyReturn σ α → Prop
  | .next a => after a
  | .returned s => post s
  | _ => True

section Rules

variable {post : σ → Prop} {after : α → Prop} {last : β → Prop}

@[simp] theorem ends_next (a : α) : (EarlyReturn.next a : EarlyReturn σ α).Ends post after ↔ after a := Iff.rfl

@[simp] theorem ends_returned (s : σ) : (EarlyReturn.returned s : EarlyReturn σ α).Ends post after ↔ post s := Iff.rfl

@[simp] theorem ends_failed (error : Int) (s : σ) : (EarlyReturn.failed error s : EarlyReturn σ α).Ends post after := trivial

@[simp] theorem ends_stuck : (EarlyReturn.stuck : EarlyReturn σ α).Ends post after := trivial

theorem Ends.bind {x : EarlyReturn σ α} {f : α → EarlyReturn σ β} (first : x.Ends post after)
    (rest : ∀ a, after a → (f a).Ends post last) : (x >>= f).Ends post last := by
  cases x with
  | next a => exact rest a first
  | returned s => exact first
  | failed error s => trivial
  | stuck => trivial

theorem Ends.ask {answer : Except Int α} {s : σ} {f : α → EarlyReturn σ β} (rest : ∀ a, (f a).Ends post last) :
    (EarlyReturn.ask answer s >>= f).Ends post last := by
  cases answer with
  | ok a => exact rest a
  | error error => trivial

theorem Ends.ite {condition : Prop} [Decidable condition] {x y : EarlyReturn σ α}
    (yes : condition → x.Ends post after) (no : ¬condition → y.Ends post after) :
    (if condition then x else y).Ends post after := by
  split
  · exact yes ‹_›
  · exact no ‹_›

theorem Ends.returned {x : EarlyReturn σ α} {s : σ} (ends : x.Ends post after) (eq : x = .returned s) : post s := by
  subst eq
  exact ends

end Rules

end EarlyReturn
