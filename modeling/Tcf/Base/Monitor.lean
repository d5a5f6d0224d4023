import Mathlib.Data.List.Basic

/-! Monitors: what a log says about a system is read off one entry at a time, and an entry
is allowed or not where it stands. -/

structure Monitor (σ ε : Type) where
  allows : σ → ε → Prop
  next : σ → ε → σ

namespace Monitor

variable {σ ε : Type} (M : Monitor σ ε)

/-- What is known after a log. -/
def after (s : σ) (log : List ε) : σ := log.foldl M.next s

def Accepts : σ → List ε → Prop
  | _, [] => True
  | s, e :: rest => M.allows s e ∧ Accepts (M.next s e) rest

@[simp] theorem after_nil (s : σ) : M.after s [] = s := rfl

@[simp] theorem after_cons (s : σ) (e : ε) (log : List ε) :
    M.after s (e :: log) = M.after (M.next s e) log := rfl

theorem after_append (s : σ) (first second : List ε) :
    M.after s (first ++ second) = M.after (M.after s first) second := List.foldl_append

@[simp] theorem accepts_nil (s : σ) : M.Accepts s [] := trivial

@[simp] theorem accepts_cons (s : σ) (e : ε) (log : List ε) :
    M.Accepts s (e :: log) ↔ M.allows s e ∧ M.Accepts (M.next s e) log := Iff.rfl

theorem accepts_append (s : σ) (first second : List ε) :
    M.Accepts s (first ++ second) ↔ M.Accepts s first ∧ M.Accepts (M.after s first) second := by
  induction first generalizing s with
  | nil => simp
  | cons e rest ih => simp [ih,and_assoc]

/-- Entries that change nothing are accepted when each is allowed. -/
theorem still {s : σ} {log : List ε} (quiet : ∀ e ∈ log, M.allows s e ∧ M.next s e = s) :
    M.Accepts s log ∧ M.after s log = s := by
  induction log with
  | nil => exact ⟨trivial,rfl⟩
  | cons e rest ih =>
    obtain ⟨allowed,same⟩ := quiet e List.mem_cons_self
    obtain ⟨accepted,final⟩ := ih fun e member => quiet e (List.mem_cons_of_mem _ member)
    simp [allowed,same,accepted,final]

end Monitor
