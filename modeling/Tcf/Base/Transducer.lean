import Mathlib.Data.List.Basic

/-! Transducers that read one symbol at a time and emit at most one. Splitting
the input anywhere changes neither the final state nor the output. -/

structure Transducer (σ α β : Type) where
  step : σ → α → σ × Option β

namespace Transducer

variable {σ α β : Type} (T : Transducer σ α β)

def final : σ → List α → σ
  | s, [] => s
  | s, a :: rest => final (T.step s a).1 rest

def output : σ → List α → List β
  | _, [] => []
  | s, a :: rest => (T.step s a).2.toList ++ output (T.step s a).1 rest

@[simp] theorem final_nil (s : σ) : T.final s [] = s := rfl
@[simp] theorem output_nil (s : σ) : T.output s [] = [] := rfl

theorem final_cons (s : σ) (a : α) (rest : List α) :
    T.final s (a :: rest) = T.final (T.step s a).1 rest := rfl

theorem output_cons (s : σ) (a : α) (rest : List α) :
    T.output s (a :: rest) = (T.step s a).2.toList ++ T.output (T.step s a).1 rest := rfl

theorem final_append (s : σ) (first second : List α) :
    T.final s (first ++ second) = T.final (T.final s first) second := by
  induction first generalizing s with
  | nil => rfl
  | cons a rest ih => exact ih _

theorem output_append (s : σ) (first second : List α) :
    T.output s (first ++ second) = T.output s first ++ T.output (T.final s first) second := by
  induction first generalizing s with
  | nil => rfl
  | cons a rest ih => simp [output_cons,final_cons,ih,List.append_assoc]

/-- Symbols a state copies to the output without leaving it. -/
theorem copies (s : σ) (embed : α → β) (input : List α)
    (step : ∀ a ∈ input, T.step s a = (s,some (embed a))) :
    T.final s input = s ∧ T.output s input = input.map embed := by
  induction input with
  | nil => exact ⟨rfl,rfl⟩
  | cons a rest ih =>
    have here := step a (List.mem_cons_self ..)
    obtain ⟨last,out⟩ := ih fun b member => step b (List.mem_cons_of_mem _ member)
    simp [final_cons,output_cons,here,last,out]

/-- What every step of a run meets, where a value that does not change the run is kept along with it. -/
def Along (track : σ → γ → α → γ) (meets : σ → γ → α → Prop) : σ → γ → List α → Prop
  | _, _, [] => True
  | s, g, a :: rest => meets s g a ∧ Along track meets (T.step s a).1 (track s g a) rest

instance decideAlong (track : σ → γ → α → γ) (meets : σ → γ → α → Prop) [∀ s g a, Decidable (meets s g a)] :
    ∀ s g input, Decidable (T.Along track meets s g input)
  | _, _, [] => isTrue trivial
  | s, g, a :: rest =>
    have := decideAlong track meets (T.step s a).1 (track s g a) rest
    inferInstanceAs (Decidable (meets s g a ∧ T.Along track meets (T.step s a).1 (track s g a) rest))

variable {T} in
/-- Two transducers in step with each other, of which the first emits whenever the second does, have the same output exactly
when they emit the same in every step. -/
theorem output_eq_iff {S : Transducer τ α β} {track : σ → γ → α → γ} {meets : σ → γ → α → Prop}
    (linked : τ → σ → γ → Prop)
    (keeps : ∀ t s g a, linked t s g → linked (S.step t a).1 (T.step s a).1 (track s g a))
    (covers : ∀ t s g a, linked t s g → (T.step s a).2.isSome → (S.step t a).2.isSome)
    (same : ∀ t s g a, linked t s g → ((S.step t a).2 = (T.step s a).2 ↔ meets s g a))
    {t : τ} {s : σ} {g : γ} {input : List α} (link : linked t s g) :
    S.output t input = T.output s input ↔ T.Along track meets s g input := by
  have more : ∀ input t s g, linked t s g → (T.output s input).length ≤ (S.output t input).length := by
    intro input
    induction input with
    | nil => simp
    | cons a rest ih =>
      intro t s g link
      have later := ih _ _ _ (keeps t s g a link)
      have now := covers t s g a link
      simp only [output_cons,List.length_append]
      cases out : (T.step s a).2 with
      | none => simpa using Nat.le_add_left_of_le later
      | some b =>
        obtain ⟨c,other⟩ := Option.isSome_iff_exists.mp (now (by simp [out]))
        simpa [other] using later
  induction input generalizing t s g with
  | nil => simp [Along]
  | cons a rest ih =>
    have link' := keeps t s g a link
    have longer := more rest _ _ _ link'
    have now := covers t s g a link
    simp only [output_cons,Along,← same t s g a link,← ih link']
    constructor
    · intro equal
      cases out : (T.step s a).2 with
      | none =>
        cases other : (S.step t a).2 with
        | none => simpa [out,other] using equal
        | some c =>
          have lengths := congrArg List.length equal
          simp [out,other] at lengths
          omega
      | some b =>
        obtain ⟨c,other⟩ := Option.isSome_iff_exists.mp (now (by simp [out]))
        simpa [out,other] using equal
    · rintro ⟨now,later⟩
      rw [now,later]

end Transducer
