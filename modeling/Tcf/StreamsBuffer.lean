import Tcf.Streams

/-! The contents of a stream's buffer: what a store adds, what an advance drops, and what a
read at a distance from the end finds. -/
namespace Tcf.Streams

open Circular

variable {α : Type}

/-- The indices are in the buffer. -/
structure Indexed (s : Stream α) : Prop where
  inp : s.bufInp < s.bufLen
  out : s.bufOut < s.bufLen

def Stream.contents (s : Stream α) : List α := slice s.buf s.bufLen s.bufOut s.len

@[simp] theorem contents_length (s : Stream α) : s.contents.length = s.len := slice_length ..

variable {s : Stream α}

theorem len_less (h : Indexed s) : s.len < s.bufLen := Nat.mod_lt _ (Nat.zero_lt_of_lt h.inp)

theorem room_eq (h : Indexed s) : s.room = s.bufLen - 1 - s.len := by
  have inp := h.inp
  have out := h.out
  have len : s.len = _ := gap_eq inp out
  rw [len,Stream.room,mod_twice (by omega)]
  split <;> split <;> omega

/-- Stored bytes come last. -/
theorem store_contents (h : Indexed s) (data : List α) (eos : Bool) :
    Indexed (store s data eos) ∧ (store s data eos).contents = s.contents ++ data.take s.room ∧
      (store s data eos).len = s.len + (data.take s.room).length := by
  have inp := h.inp
  have less := len_less h
  have room := room_eq h
  have fits : (data.take s.room).length ≤ s.room := List.length_take_le ..
  have positive := Nat.zero_lt_of_lt inp
  have len : (store s data eos).len = s.len + (data.take s.room).length := by
    have all : s.len + (data.take s.room).length < s.bufLen := by omega
    exact gap_add inp h.out all
  refine ⟨⟨Nat.mod_lt _ positive,h.out⟩,?_,len⟩
  rw [Stream.contents,len]
  exact slice_put_extend _ _ _ _ _ _ (gap_end inp h.out) (by omega) positive

/-- The buffer with some of its bytes dropped. -/
def Stream.advanced (s : Stream α) (n : Nat) : Stream α := { s with bufOut := (s.bufOut + n) % s.bufLen }

theorem advanced_contents (h : Indexed s) {n : Nat} (within : n ≤ s.len) :
    Indexed (s.advanced n) ∧ (s.advanced n).contents = s.contents.drop n ∧
      (s.advanced n).len = s.len - n := by
  have positive := Nat.zero_lt_of_lt h.inp
  have len : (s.advanced n).len = s.len - n := gap_sub h.inp h.out within
  refine ⟨⟨h.inp,Nat.mod_lt _ positive⟩,?_,len⟩
  rw [Stream.contents,Stream.contents,len,slice_drop _ _ _ _ _ within]
  apply slice_start_congr
  exact Nat.mod_mod ..

/-- A read some distance before the end. -/
theorem fetch_behind (h : Indexed s) {n behind : Nat} (within : behind ≤ s.len) (small : n ≤ behind) :
    fetch s.buf s.bufLen ((s.bufInp + s.bufLen - behind) % s.bufLen) n =
      (s.contents.drop (s.len - behind)).take n := by
  have less := len_less h
  have positive := Nat.zero_lt_of_lt h.inp
  rw [fetch_eq_slice _ _ _ _ (Nat.mod_lt _ positive) (by omega),Stream.contents,
    slice_drop _ _ _ _ _ (by omega),slice_take _ _ _ _ _ (by omega)]
  apply slice_start_congr
  rw [Nat.mod_mod]
  exact back_start h.inp h.out within

theorem fetch_front (h : Indexed s) {n : Nat} (within : n ≤ s.len) :
    fetch s.buf s.bufLen s.bufOut n = s.contents.take n := by
  have less := len_less h
  rw [fetch_eq_slice _ _ _ _ h.out (by omega),Stream.contents,slice_take _ _ _ _ _ within]

end Tcf.Streams
