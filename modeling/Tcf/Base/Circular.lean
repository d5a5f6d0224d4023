import Mathlib.Data.List.Basic
import Mathlib.Data.List.Range

/-! Memory cells read and written through an index that wraps. `slice` is the
list view of a circular buffer; `store` is one `memcpy` into it. -/
namespace Circular

variable {α : Type}

/-- The `count` cells from `start` on, in a memory whose index wraps at `size`. -/
def slice (memory : Nat → α) (size start count : Nat) : List α :=
  (List.range count).map fun i => memory ((start + i) % size)

/-- Consecutive cells from `start` on replaced by the data. -/
def store (memory : Nat → α) (start : Nat) (data : List α) : Nat → α :=
  fun i => if start ≤ i then (data[i - start]?).getD (memory i) else memory i

@[simp] theorem slice_length (memory : Nat → α) (size start count : Nat) :
    (slice memory size start count).length = count := by simp [slice]

@[simp] theorem slice_zero (memory : Nat → α) (size start : Nat) :
    slice memory size start 0 = [] := rfl

theorem slice_succ (memory : Nat → α) (size start count : Nat) :
    slice memory size start (count + 1) =
      memory (start % size) :: slice memory size (start + 1) count := by
  simp only [slice,List.range_succ_eq_map,List.map_cons,List.map_map,Nat.add_zero,List.cons.injEq,
    true_and]
  apply List.map_congr_left
  intro i _
  simp [Nat.add_assoc,Nat.add_comm 1 i]

theorem slice_append (memory : Nat → α) (size start first second : Nat) :
    slice memory size start (first + second) =
      slice memory size start first ++ slice memory size (start + first) second := by
  simp only [slice,List.range_add,List.map_append,List.map_map]
  congr 1
  apply List.map_congr_left
  intro i _
  simp [Nat.add_assoc]

/-- Positions are taken modulo the size. -/
theorem slice_start_congr (memory : Nat → α) (size a b count : Nat) (same : a % size = b % size) :
    slice memory size a count = slice memory size b count := by
  apply List.map_congr_left
  intro i _
  rw [Nat.add_mod a,Nat.add_mod b,same]

/-- Two memories agreeing on the visited cells have the same slice. -/
theorem slice_congr (first second : Nat → α) (size start count : Nat)
    (same : ∀ i, i < count → first ((start + i) % size) = second ((start + i) % size)) :
    slice first size start count = slice second size start count := by
  apply List.map_congr_left
  intro i member
  exact same i (List.mem_range.mp member)

theorem slice_take (memory : Nat → α) (size start count n : Nat) (within : n ≤ count) :
    (slice memory size start count).take n = slice memory size start n := by
  obtain ⟨rest,rfl⟩ := Nat.exists_eq_add_of_le within
  rw [slice_append,List.take_left' (slice_length ..)]

theorem slice_drop (memory : Nat → α) (size start count n : Nat) (within : n ≤ count) :
    (slice memory size start count).drop n = slice memory size (start + n) (count - n) := by
  obtain ⟨rest,rfl⟩ := Nat.exists_eq_add_of_le within
  rw [slice_append,List.drop_left' (slice_length ..),Nat.add_sub_cancel_left]

@[simp] theorem store_nil (memory : Nat → α) (start : Nat) : store memory start [] = memory := by
  funext i
  simp [store]

theorem store_inside (memory : Nat → α) (start : Nat) (data : List α) (i : Nat)
    (inside : i < data.length) : store memory start data (start + i) = data[i] := by
  simp [store,inside]

theorem store_outside (memory : Nat → α) (start : Nat) (data : List α) (i : Nat)
    (outside : i < start ∨ start + data.length ≤ i) : store memory start data i = memory i := by
  unfold store
  split
  · rw [List.getElem?_eq_none (by omega),Option.getD_none]
  · rfl

/-- Reading back what was just stored. -/
theorem slice_store_same (memory : Nat → α) (size start : Nat) (data : List α)
    (fits : start + data.length ≤ size) :
    slice (store memory start data) size start data.length = data := by
  apply List.ext_getElem
  · simp
  · intro i inside within
    have lt : start + i < size := by omega
    simp only [slice,List.getElem_map,List.getElem_range,Nat.mod_eq_of_lt lt]
    exact store_inside memory start data i within

/-- A store beyond the last used cell extends the slice, as long as the buffer
is not overrun. -/
theorem slice_store_extend (memory : Nat → α) (size start count position : Nat) (data : List α)
    (at_end : (start + count) % size = position) (fits : position + data.length ≤ size)
    (room : count + data.length ≤ size) (positive : 0 < size) :
    slice (store memory position data) size start (count + data.length) =
      slice memory size start count ++ data := by
  rw [slice_append]
  congr 1
  · apply slice_congr
    intro i inside
    apply store_outside
    by_contra overlap
    -- the cell `start + i` lies `count - i` cells before the stored block, at most a lap away
    have lower : position ≤ (start + i) % size := by omega
    have upper : (start + i) % size < position + data.length := by omega
    have shift : (start + i + (count - i)) % size = position := by
      rw [← at_end]; congr 1; omega
    rw [Nat.add_mod] at shift
    have small : (count - i) % size = count - i ∨ count - i = size := by
      rcases Nat.lt_or_eq_of_le (show count - i ≤ size by omega) with h | h
      · exact .inl (Nat.mod_eq_of_lt h)
      · exact .inr h
    have bound := Nat.mod_lt (start + i) positive
    rcases small with small | small
    · rw [small] at shift
      rcases Nat.lt_or_ge ((start + i) % size + (count - i)) size with h | h
      · rw [Nat.mod_eq_of_lt h] at shift; omega
      · rw [Nat.mod_eq_sub_mod h,Nat.mod_eq_of_lt (by omega)] at shift; omega
    · omega
  · rw [slice_start_congr _ _ _ position _ (by rw [at_end,← at_end,Nat.mod_mod])]
    exact slice_store_same memory size position data fits

/-- Consecutive cells, without wrapping. -/
def block (memory : Nat → α) (start count : Nat) : List α :=
  (List.range count).map fun i => memory (start + i)

@[simp] theorem block_length (memory : Nat → α) (start count : Nat) :
    (block memory start count).length = count := by simp [block]

theorem slice_eq_block (memory : Nat → α) (size start count : Nat) (fits : start + count ≤ size) :
    slice memory size start count = block memory start count := by
  apply List.map_congr_left
  intro i inside
  have inside := List.mem_range.mp inside
  rw [Nat.mod_eq_of_lt (by omega)]

theorem block_append (memory : Nat → α) (start first second : Nat) :
    block memory start (first + second) = block memory start first ++ block memory (start + first) second := by
  simp only [block,List.range_add,List.map_append,List.map_map]
  congr 1
  apply List.map_congr_left
  intro i _
  simp [Nat.add_assoc]

theorem block_drop (memory : Nat → α) (start count n : Nat) (within : n ≤ count) :
    (block memory start count).drop n = block memory (start + n) (count - n) := by
  obtain ⟨rest,rfl⟩ := Nat.exists_eq_add_of_le within
  rw [block_append,List.drop_left' (block_length ..),Nat.add_sub_cancel_left]

/-- Reading back what was just stored. -/
theorem block_store_same (memory : Nat → α) (start : Nat) (data : List α) :
    block (store memory start data) start data.length = data := by
  apply List.ext_getElem
  · simp
  · intro i inside within
    simp only [block,List.getElem_map,List.getElem_range]
    exact store_inside memory start data i within

/-- A store right behind a block makes it longer. -/
theorem block_store_extend (memory : Nat → α) (start count : Nat) (data : List α) :
    block (store memory (start + count) data) start (count + data.length) =
      block memory start count ++ data := by
  rw [block_append,block_store_same]
  congr 1
  apply List.map_congr_left
  intro i inside
  have inside := List.mem_range.mp inside
  exact store_outside _ _ _ _ (.inl (by omega))

/-- A read in two parts, before and after the index wraps. -/
def fetch (memory : Nat → α) (size start count : Nat) : List α :=
  if start + count ≤ size then block memory start count
  else block memory start (size - start) ++ block memory 0 (count - (size - start))

theorem fetch_eq_slice (memory : Nat → α) (size start count : Nat) (inside : start < size)
    (small : count ≤ size) : fetch memory size start count = slice memory size start count := by
  unfold fetch
  split
  next fits => exact (slice_eq_block memory size start count fits).symm
  next wraps =>
    obtain ⟨rest,split⟩ := Nat.exists_eq_add_of_le (show size - start ≤ count by omega)
    rw [split,slice_append,slice_eq_block _ _ _ _ (by omega),Nat.add_sub_cancel_left]
    congr 1
    rw [← slice_eq_block _ size _ _ (by omega)]
    apply slice_start_congr
    rw [Nat.add_sub_cancel' (Nat.le_of_lt inside),Nat.mod_self,Nat.zero_mod]

/-- A store in two parts, before and after the index wraps. -/
def put (memory : Nat → α) (size start : Nat) (data : List α) : Nat → α :=
  if start + data.length ≤ size then store memory start data
  else store (store memory start (data.take (size - start))) 0 (data.drop (size - start))

theorem slice_put_extend (memory : Nat → α) (size start count position : Nat) (data : List α)
    (at_end : (start + count) % size = position) (room : count + data.length ≤ size) (positive : 0 < size) :
    slice (put memory size position data) size start (count + data.length) =
      slice memory size start count ++ data := by
  have low : position < size := at_end ▸ Nat.mod_lt _ positive
  unfold put
  split
  next fits => exact slice_store_extend memory size start count position data at_end fits room positive
  next wraps =>
    have front : (data.take (size - position)).length = size - position := by
      rw [List.length_take]
      omega
    have back : (data.drop (size - position)).length = data.length - (size - position) := List.length_drop
    have one := slice_store_extend memory size start count position (data.take (size - position)) at_end
      (by omega) (by omega) positive
    have again : (start + (count + (data.take (size - position)).length)) % size = 0 := by
      rw [front,← Nat.add_assoc,Nat.add_mod,at_end]
      rcases Nat.eq_zero_or_pos position with zero | some_
      · rw [zero,Nat.sub_zero,Nat.mod_self,Nat.zero_mod]
      · rw [Nat.mod_eq_of_lt (show size - position < size by omega),Nat.add_sub_cancel' (Nat.le_of_lt low),
          Nat.mod_self]
    have two := slice_store_extend (store memory position (data.take (size - position))) size start
      (count + (data.take (size - position)).length) 0 (data.drop (size - position)) again (by omega)
      (by omega) positive
    rw [one,List.append_assoc,List.take_append_drop,Nat.add_assoc,← List.length_append,
      List.take_append_drop] at two
    exact two

/-- Cells in use between two indices. -/
def gap (size inp out : Nat) : Nat := (inp + size - out) % size

theorem mod_twice {a n : Nat} (small : a < n + n) : a % n = if a < n then a else a - n := by
  split
  next less => exact Nat.mod_eq_of_lt less
  next more => rw [Nat.mod_eq_sub_mod (by omega),Nat.mod_eq_of_lt (by omega)]

variable {size inp out : Nat}

theorem gap_eq (low : inp < size) (first : out < size) :
    gap size inp out = if out ≤ inp then inp - out else inp + size - out := by
  rw [gap,mod_twice (by omega)]
  split <;> split <;> omega

theorem gap_end (low : inp < size) (first : out < size) : (out + gap size inp out) % size = inp := by
  have less : gap size inp out < size := Nat.mod_lt _ (Nat.zero_lt_of_lt low)
  rw [mod_twice (by omega),gap_eq low first]
  split <;> split <;> omega

theorem gap_add {n : Nat} (low : inp < size) (first : out < size) (room : gap size inp out + n < size) :
    gap size ((inp + n) % size) out = gap size inp out + n := by
  rw [gap_eq (Nat.mod_lt _ (Nat.zero_lt_of_lt low)) first]
  rw [gap_eq low first] at room ⊢
  have step : (inp + n) % size = if inp + n < size then inp + n else inp + n - size := by
    apply mod_twice
    split at room <;> omega
  rw [step]
  split at room <;> split <;> split <;> (try split) <;> omega

theorem gap_sub {n : Nat} (low : inp < size) (first : out < size) (within : n ≤ gap size inp out) :
    gap size inp ((out + n) % size) = gap size inp out - n := by
  have less : gap size inp out < size := Nat.mod_lt _ (Nat.zero_lt_of_lt low)
  rw [gap_eq low (Nat.mod_lt _ (Nat.zero_lt_of_lt low))]
  rw [gap_eq low first] at within less ⊢
  rw [mod_twice (show out + n < size + size by omega)]
  split at within <;> split <;> split <;> (try split) <;> omega

/-- Cells before the end of the used ones. -/
theorem back_start {n : Nat} (low : inp < size) (first : out < size) (within : n ≤ gap size inp out) :
    (inp + size - n) % size = (out + (gap size inp out - n)) % size := by
  have less : gap size inp out < size := Nat.mod_lt _ (Nat.zero_lt_of_lt low)
  rw [gap_eq low first] at within less ⊢
  rw [mod_twice (by omega),mod_twice (by split at within <;> split <;> omega)]
  split at within <;> split <;> split <;> (try split) <;> omega

end Circular
