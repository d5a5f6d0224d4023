import Mathlib.Data.List.Basic

/-! Binary search for a place at which a probe says that it is there. It may be there many times, or the probe may mislead. -/
namespace Bisection

/-- The search goes on behind a place that is less. -/
def bisect (probe : Nat → Ordering) : Nat → Nat → Nat → Option Nat
  | 0, _, _ => none
  | rounds+1, l, h =>
    if l < h then
      match probe ((h + l) / 2) with
      | .lt => bisect probe rounds ((h + l) / 2 + 1) h
      | .gt => bisect probe rounds l ((h + l) / 2)
      | .eq => some ((h + l) / 2)
    else none

/-- The places that are probed on the way to `t`. -/
def path (t : Nat) : Nat → Nat → Nat → List Nat
  | 0, _, _ => []
  | rounds+1, l, h => (h + l) / 2 :: (if (h + l) / 2 < t then path t rounds ((h + l) / 2 + 1) h
      else if t < (h + l) / 2 then path t rounds l ((h + l) / 2) else [])

variable {probe : Nat → Ordering}

theorem bisect_some {rounds l h k : Nat} (found : bisect probe rounds l h = some k) : l ≤ k ∧ k < h ∧ probe k = .eq := by
  induction rounds generalizing l h with
  | zero => cases found
  | succ rounds ih =>
    rw [bisect] at found
    by_cases less : l < h
    · rw [if_pos less] at found
      cases side : probe ((h + l) / 2) with
      | lt =>
        rw [side] at found
        obtain ⟨low,high,there⟩ := ih found
        exact ⟨by omega,high,there⟩
      | gt =>
        rw [side] at found
        obtain ⟨low,high,there⟩ := ih found
        exact ⟨low,by omega,there⟩
      | eq =>
        rw [side] at found
        cases found
        exact ⟨by omega,by omega,side⟩
    · rw [if_neg less] at found
      cases found

/-- A place is found exactly when one of those that are sought is not missed on the way to it. -/
theorem bisect_found_iff {rounds l h : Nat} (enough : h ≤ l + rounds) : (∃ k, bisect probe rounds l h = some k) ↔
    ∃ t, l ≤ t ∧ t < h ∧ probe t = .eq ∧ ∀ k ∈ path t rounds l h, (k < t → probe k ≠ .gt) ∧ (t < k → probe k ≠ .lt) := by
  induction rounds generalizing l h with
  | zero =>
    constructor
    · rintro ⟨k,found⟩
      cases found
    · rintro ⟨t,low,high,-⟩
      omega
  | succ rounds ih =>
    by_cases less : l < h
    · have low : l ≤ (h + l) / 2 := by omega
      have high : (h + l) / 2 < h := by omega
      rw [bisect,if_pos less]
      simp only [path]
      generalize (h + l) / 2 = k at low high ⊢
      cases side : probe k with
      | lt =>
        refine (ih (by omega)).trans ⟨?_,?_⟩
        · rintro ⟨t,behind,inside,there,way⟩
          have front : k < t := by omega
          refine ⟨t,by omega,inside,there,?_⟩
          rw [if_pos front]
          exact List.forall_mem_cons.mpr ⟨by simp [side]; omega,way⟩
        · rintro ⟨t,from_,inside,there,way⟩
          obtain ⟨here,way⟩ := List.forall_mem_cons.mp way
          rcases Nat.lt_trichotomy k t with front | rfl | behind
          · rw [if_pos front] at way
            exact ⟨t,front,inside,there,way⟩
          · rw [side] at there
            cases there
          · exact absurd side (here.2 behind)
      | gt =>
        refine (ih (by omega)).trans ⟨?_,?_⟩
        · rintro ⟨t,from_,front,there,way⟩
          refine ⟨t,from_,by omega,there,?_⟩
          rw [if_neg (by omega),if_pos front]
          exact List.forall_mem_cons.mpr ⟨by simp [side]; omega,way⟩
        · rintro ⟨t,from_,inside,there,way⟩
          obtain ⟨here,way⟩ := List.forall_mem_cons.mp way
          rcases Nat.lt_trichotomy k t with front | rfl | behind
          · exact absurd side (here.1 front)
          · rw [side] at there
            cases there
          · rw [if_neg (by omega),if_pos behind] at way
            exact ⟨t,from_,behind,there,way⟩
      | eq =>
        refine iff_of_true ⟨k,rfl⟩ ⟨k,low,high,side,?_⟩
        simp
    · constructor
      · rintro ⟨k,found⟩
        rw [bisect,if_neg less] at found
        cases found
      · rintro ⟨t,low,high,-⟩
        omega

/-- The way stays between the bounds. -/
theorem path_inside {t rounds l h k : Nat} (low : l ≤ t) (high : t < h) (on : k ∈ path t rounds l h) : l ≤ k ∧ k < h := by
  induction rounds generalizing l h with
  | zero => cases on
  | succ rounds ih =>
    unfold path at on
    rcases List.mem_cons.mp on with rfl | on
    · omega
    · split at on
      · have inside := ih (by omega) high on
        omega
      · split at on
        · have inside := ih low (by omega) on
          omega
        · cases on

/-- What is in front of a place that is too small is too small as well, and so for those that are too large. -/
def Sorted (probe : Nat → Ordering) : Prop := ∀ i j, i ≤ j → (probe j = .lt → probe i = .lt) ∧ (probe i = .gt → probe j = .gt)

/-- A sorted probe does not mislead. -/
theorem bisect_none (sorted : Sorted probe) {rounds l h : Nat} (enough : h ≤ l + rounds) (missed : bisect probe rounds l h = none) {t : Nat}
    (low : l ≤ t) (high : t < h) : probe t ≠ .eq := by
  intro there
  have way : ∀ k ∈ path t rounds l h, (k < t → probe k ≠ .gt) ∧ (t < k → probe k ≠ .lt) := by
    refine fun k _ => ⟨fun front side => ?_,fun behind side => ?_⟩
    · rw [(sorted k t (Nat.le_of_lt front)).2 side] at there
      cases there
    · rw [(sorted t k (Nat.le_of_lt behind)).1 side] at there
      cases there
  obtain ⟨k,found⟩ := (bisect_found_iff enough).mpr ⟨t,low,high,there,way⟩
  rw [missed] at found
  cases found

section Twice

variable {other : Nat → Ordering} {rounds l h j k : Nat}

/-- A search that asks the same but where the first one stops stops there as well. -/
theorem bisect_agree (same : ∀ k, probe k ≠ .eq → other k = probe k) (found : bisect probe rounds l h = some k) (there : other k = .eq) :
    bisect other rounds l h = some k := by
  induction rounds generalizing l h with
  | zero => cases found
  | succ rounds ih =>
    rw [bisect] at found ⊢
    by_cases less : l < h
    · rw [if_pos less] at found ⊢
      cases side : probe ((h + l) / 2) with
      | lt =>
        rw [side] at found
        rw [same _ (by simp [side]),side]
        exact ih found
      | gt =>
        rw [side] at found
        rw [same _ (by simp [side]),side]
        exact ih found
      | eq =>
        rw [side] at found
        cases found
        rw [there]
    · rw [if_neg less] at found
      cases found

/-- A search that goes on behind this place finds only what is behind it. -/
theorem bisect_behind (same : ∀ k, probe k ≠ .eq → other k = probe k) (found : bisect probe rounds l h = some k) (less : other k = .lt)
    (again : bisect other rounds l h = some j) : k < j := by
  induction rounds generalizing l h with
  | zero => cases found
  | succ rounds ih =>
    rw [bisect] at found again
    by_cases inside : l < h
    · rw [if_pos inside] at found again
      cases side : probe ((h + l) / 2) with
      | lt =>
        rw [side] at found
        rw [same _ (by simp [side]),side] at again
        exact ih found again
      | gt =>
        rw [side] at found
        rw [same _ (by simp [side]),side] at again
        exact ih found again
      | eq =>
        rw [side] at found
        cases found
        rw [less] at again
        exact (bisect_some again).1
    · rw [if_neg inside] at found
      cases found

end Twice

end Bisection
