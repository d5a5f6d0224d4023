import Tcf.Base.Process

/-! Readers of a stream that stop at a boundary: what is behind it neither is consumed nor makes a difference. -/

/-- What a reader returns has the rest of the stream in it. -/
class Remains (ρ : Type) (ι : outParam Type) where
  rest : ρ → List ι
  put : ρ → List ι → ρ

instance : Remains (List ι) ι := ⟨id,fun _ rest => rest⟩

instance [Remains ρ ι] : Remains (α × ρ) ι := ⟨fun r => Remains.rest r.2,fun r rest => (r.1,Remains.put r.2 rest)⟩

namespace Boundary

open Remains

variable {ι α ρ ρ' κ : Type} [Remains ρ ι] [Remains ρ' ι]

/-- In front of the boundary `m` a reader raises an exception or finishes, in the same way whatever follows. `k` is what it
does not depend on, of those in `K`. -/
def StopsFor (m : ι) (front : List ι) (K : κ → Prop) (read : κ → List ι → Code ρ) : Prop :=
  (∀ k, K k → ∀ behind, read k (front ++ m :: behind) = .error .exception) ∨
    ∃ r : ρ, (rest r).length ≤ front.length ∧ ∀ k, K k → ∀ behind, read k (front ++ m :: behind) = .ok (put r (rest r ++ m :: behind))

/-- The same for one reader. -/
def StopsAt (m : ι) (front : List ι) (read : List ι → Code ρ) : Prop := StopsFor m front (fun _ : Unit => True) fun _ => read

section Rules

variable {m : ι} {front : List ι} {K : κ → Prop}

theorem stopsAt_iff {read : List ι → Code ρ} : StopsAt m front read ↔
    (∀ behind, read (front ++ m :: behind) = .error .exception) ∨
      ∃ r : ρ, (rest r).length ≤ front.length ∧ ∀ behind, read (front ++ m :: behind) = .ok (put r (rest r ++ m :: behind)) := by
  simp [StopsAt,StopsFor]

theorem StopsAt.stops {read : List ι → Code ρ} (stops : StopsAt m front read) : StopsFor m front K fun _ => read := by
  rcases stopsAt_iff.mp stops with raises | ⟨r,short,finishes⟩
  · exact .inl fun _ _ => raises
  · exact .inr ⟨r,short,fun _ _ => finishes⟩

variable {read : κ → List ι → Code ρ}

theorem StopsFor.raise (raises : ∀ k inp, read k inp = .error .exception) : StopsFor m front K read :=
  .inl fun k _ _ => raises k _

theorem stops_pure (value : α) : StopsFor m front K fun _ inp => (pure (value,inp) : Code (α × List ι)) :=
  .inr ⟨(value,front),Nat.le_refl _,fun _ _ _ => rfl⟩

theorem stops_done : StopsFor m front K fun _ inp => (pure inp : Code (List ι)) :=
  .inr ⟨front,Nat.le_refl _,fun _ _ _ => rfl⟩

theorem StopsFor.comap {κ' : Type} {K' : κ' → Prop} (f : κ' → κ) (stops : StopsFor m front K read)
    (less : ∀ p, K' p → K (f p)) : StopsFor m front K' fun p => read (f p) := by
  rcases stops with raises | ⟨r,short,finishes⟩
  · exact .inl fun p inside => raises (f p) (less p inside)
  · exact .inr ⟨r,short,fun p inside => finishes (f p) (less p inside)⟩

theorem StopsFor.weaken {K' : κ → Prop} (stops : StopsFor m front K read) (less : ∀ k, K' k → K k) :
    StopsFor m front K' read := stops.comap id less

theorem StopsFor.ite {c : Prop} [Decidable c] {yes no : κ → List ι → Code ρ} (holds : c → StopsFor m front K yes)
    (fails : ¬c → StopsFor m front K no) : StopsFor m front K fun k inp => if c then yes k inp else no k inp := by
  by_cases h : c
  · simp only [if_pos h]
    exact holds h
  · simp only [if_neg h]
    exact fails h

/-- What a reader does first, it may do itself. -/
theorem StopsFor.after {left : List ι} {read' : κ → List ι → Code ρ} (stops : StopsFor m left K read')
    (short : left.length ≤ front.length) (same : ∀ k behind, read k (front ++ m :: behind) = read' k (left ++ m :: behind)) :
    StopsFor m front K read := by
  rcases stops with raises | ⟨r,short',finishes⟩
  · exact .inl fun k inside behind => (same k behind).trans (raises k inside behind)
  · exact .inr ⟨r,Nat.le_trans short' short,fun k inside behind => (same k behind).trans (finishes k inside behind)⟩

/-- One reader behind another. -/
theorem StopsFor.bind {next : κ → ρ → Code ρ'} (first : StopsFor m front K read)
    (second : ∀ r : ρ, (rest r).length ≤ front.length → StopsFor m (rest r) K fun k inp => next k (put r inp)) :
    StopsFor m front K fun k inp => read k inp >>= next k := by
  rcases first with raises | ⟨r,short,finishes⟩
  · refine .inl fun k inside behind => ?_
    change read k _ >>= next k = _
    rw [raises k inside]
    rfl
  · rcases second r short with raises | ⟨r',short',finishes'⟩
    · refine .inl fun k inside behind => ?_
      change read k _ >>= next k = _
      rw [finishes k inside]
      exact raises k inside behind
    · refine .inr ⟨r',Nat.le_trans short' short,fun k inside behind => ?_⟩
      change read k _ >>= next k = _
      rw [finishes k inside]
      exact finishes' k inside behind

theorem StopsFor.map {β : Type} {read : κ → List ι → Code (α × ρ)} (f : α → β) (stops : StopsFor m front K read) :
    StopsFor m front K fun k inp => read k inp >>= fun r => pure (f r.1,r.2) := by
  rcases stops with raises | ⟨r,short,finishes⟩
  · refine .inl fun k inside behind => ?_
    change read k _ >>= _ = _
    rw [raises k inside]
    rfl
  · refine .inr ⟨(f r.1,r.2),short,fun k inside behind => ?_⟩
    change read k _ >>= _ = _
    rw [finishes k inside]
    rfl

/-- The same for a reader that returns a value and the rest of the stream. -/
theorem StopsFor.bind_value {read : κ → List ι → Code (α × List ι)} {next : κ → α × List ι → Code ρ} (first : StopsFor m front K read)
    (second : ∀ a left, left.length ≤ front.length → StopsFor m left K fun k inp => next k (a,inp)) :
    StopsFor m front K fun k inp => read k inp >>= next k :=
  StopsFor.bind first fun r short => second r.1 r.2 short

theorem StopsFor.bind_rest {read : κ → List ι → Code (List ι)} {next : κ → List ι → Code ρ} (first : StopsFor m front K read)
    (second : ∀ left, left.length ≤ front.length → StopsFor m left K next) : StopsFor m front K fun k inp => read k inp >>= next k :=
  StopsFor.bind first fun r short => second r short

/-- A loop of which one turn is looked at. The second index counts the turns that are left. -/
theorem StopsFor.turn {n : Nat} {loop : κ × Nat → List ι → Code ρ}
    (turn : StopsFor m front (fun p : κ × Nat => K p.1 ∧ n ≤ p.2) fun p => loop (p.1,p.2 + 1)) :
    StopsFor m front (fun p => K p.1 ∧ n < p.2) loop := by
  have reindex {P : κ × Nat → Prop} (all : ∀ p : κ × Nat, K p.1 ∧ n ≤ p.2 → P (p.1,p.2 + 1)) (p : κ × Nat)
      (inside : K p.1 ∧ n < p.2) : P p := by
    obtain ⟨k,fuel⟩ := p
    cases fuel with
    | zero => exact absurd inside.2 (Nat.not_lt_zero _)
    | succ fuel => exact all (k,fuel) ⟨inside.1,Nat.le_of_lt_succ inside.2⟩
  rcases turn with raises | ⟨r,short,finishes⟩
  · exact .inl (reindex raises)
  · exact .inr ⟨r,short,reindex finishes⟩

/-- A loop that has as many turns as there are items, and one more. -/
theorem StopsFor.loop (loop : κ → Nat → List ι → Code ρ)
    (stops : StopsFor m front (fun p : κ × Nat => K p.1 ∧ front.length < p.2) fun p => loop p.1 p.2) :
    StopsFor m front K fun k inp => loop k (inp.length + 1) inp := by
  have enough (behind : List ι) : front.length < (front ++ m :: behind).length + 1 := by
    rw [List.length_append]
    omega
  rcases stops with raises | ⟨r,short,finishes⟩
  · exact .inl fun k inside behind => raises (k,_) ⟨inside,enough behind⟩ behind
  · exact .inr ⟨r,short,fun k inside behind => finishes (k,_) ⟨inside,enough behind⟩ behind⟩

end Rules

end Boundary
