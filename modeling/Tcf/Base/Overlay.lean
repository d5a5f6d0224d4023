import Mathlib.Logic.Function.Basic
import Mathlib.Data.List.Range

/-! Byte arrays without wrapping, and the loops that copy part of one into another. -/
namespace Overlay

variable {α : Type}

/-- `n` cells from `start` on replaced by those of another memory. -/
def copyAt (memory : Nat → α) (start : Nat) (source : Nat → α) (n : Nat) : Nat → α :=
  fun k => if start ≤ k ∧ k < start + n then source (k - start) else memory k

theorem copyAt_inside (memory : Nat → α) {start : Nat} (source : Nat → α) {n k : Nat} (low : start ≤ k)
    (high : k < start + n) : copyAt memory start source n k = source (k - start) := if_pos ⟨low,high⟩

theorem copyAt_outside (memory : Nat → α) {start : Nat} (source : Nat → α) {n k : Nat}
    (outside : k < start ∨ start + n ≤ k) : copyAt memory start source n k = memory k := by
  apply if_neg
  omega

@[simp] theorem copyAt_zero (memory : Nat → α) (start : Nat) (source : Nat → α) :
    copyAt memory start source 0 = memory := by
  funext k
  exact copyAt_outside memory source (by omega)

/-- A loop that stores `value i` for every admitted `i`, at the distance of `base + i`
from the start of the buffer. -/
def storeLoop (admitted : Nat → Prop) [DecidablePred admitted] (base start : Nat) (value : Nat → α)
    (n : Nat) (memory : Nat → α) : Nat → α :=
  (List.range n).foldl
    (fun memory i => if admitted i then Function.update memory (base + i - start) (value i) else memory)
    memory

variable {admitted : Nat → Prop} [DecidablePred admitted]

theorem storeLoop_succ (base start : Nat) (value : Nat → α) (n : Nat) (memory : Nat → α) :
    storeLoop admitted base start value (n + 1) memory =
      if admitted n then
        Function.update (storeLoop admitted base start value n memory) (base + n - start) (value n)
      else storeLoop admitted base start value n memory := by
  simp [storeLoop,List.range_succ]

/-- Every cell is stored at most once. -/
theorem storeLoop_apply {base start : Nat} (low : ∀ i, admitted i → start ≤ base + i)
    (value : Nat → α) (n : Nat) (memory : Nat → α) (k : Nat) :
    storeLoop admitted base start value n memory k =
      if base ≤ start + k ∧ start + k < base + n ∧ admitted (start + k - base) then
        value (start + k - base) else memory k := by
  induction n with
  | zero => exact (if_neg (by omega)).symm
  | succ n ih =>
    rw [storeLoop_succ]
    by_cases last : start + k = base + n
    · have index : start + k - base = n := by omega
      have place : admitted n → base + n - start = k := by omega
      by_cases now : admitted n
      · rw [if_pos now,place now,Function.update_self,if_pos ⟨by omega,by omega,index ▸ now⟩,index]
      · rw [if_neg now,ih,if_neg (by omega),if_neg (by rw [index]; exact fun h => now h.2.2)]
    · have same : (base ≤ start + k ∧ start + k < base + n ∧ admitted (start + k - base)) ↔
          (base ≤ start + k ∧ start + k < base + (n + 1) ∧ admitted (start + k - base)) :=
        ⟨fun ⟨a,b,c⟩ => ⟨a,by omega,c⟩,fun ⟨a,b,c⟩ => ⟨a,by omega,c⟩⟩
      rw [← if_congr same rfl rfl,← ih]
      by_cases now : admitted n
      · rw [if_pos now,Function.update_of_ne (by have := low n now; omega)]
      · rw [if_neg now]

end Overlay
