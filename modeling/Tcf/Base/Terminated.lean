import Mathlib.Data.List.Basic

/-! Records that end with a mark which none of their symbols is. A prefix of such a
sequence splits at the marks. -/
namespace Terminated

variable {α β : Type} (embed : α → β) (mark : β)

def terminated (record : List α) : List β := record.map embed ++ [mark]

def sequence (records : List (List α)) : List β := records.flatMap (terminated embed mark)

variable {embed mark}

@[simp] theorem sequence_nil : sequence embed mark [] = [] := rfl

theorem sequence_cons (record : List α) (records : List (List α)) :
    sequence embed mark (record :: records) =
      record.map embed ++ mark :: sequence embed mark records := by
  simp [sequence,terminated]

variable (other : ∀ a, embed a ≠ mark) (distinct : Function.Injective embed)

include other in
theorem count_embedded [DecidableEq β] (record : List α) : (record.map embed).count mark = 0 := by
  rw [List.count_eq_zero]
  intro member
  obtain ⟨a,_,same⟩ := List.mem_map.mp member
  exact other a same

include other in
theorem count_sequence [DecidableEq β] (records : List (List α)) :
    (sequence embed mark records).count mark = records.length := by
  induction records with
  | nil => rfl
  | cons record rest ih =>
    rw [sequence_cons,List.count_append,List.count_cons_self,ih,count_embedded other]
    simp

/-- A nonempty sequence ends with the mark. -/
theorem suffix_mark {records : List (List α)} {front back : List β}
    (split : sequence embed mark records = front ++ back) (some_ : back ≠ []) : mark ∈ back := by
  induction records generalizing front with
  | nil => simp_all
  | cons record rest ih =>
    rw [sequence_cons] at split
    rcases List.append_eq_append_iff.mp split with ⟨more,_,tail⟩ | ⟨more,_,tail⟩
    · cases more with
      | nil =>
        rw [List.nil_append] at tail
        rw [← tail]
        exact List.mem_cons_self ..
      | cons first others =>
        exact ih (List.cons.inj tail).2
    · rw [tail]
      exact List.mem_append_right _ (List.mem_cons_self ..)

include other distinct in
theorem split_mark {first second : List α} {x y : List β}
    (h : first.map embed ++ mark :: x <+: second.map embed ++ mark :: y) : first = second ∧ x <+: y := by
  induction first generalizing second with
  | nil =>
    cases second with
    | nil => exact ⟨rfl,(List.cons_prefix_cons.mp h).2⟩
    | cons a rest => exact absurd (List.cons_prefix_cons.mp h).1.symm (other a)
  | cons a rest ih =>
    cases second with
    | nil => exact absurd (List.cons_prefix_cons.mp h).1 (other a)
    | cons a' rest' =>
      obtain ⟨same,tail⟩ := List.cons_prefix_cons.mp h
      obtain ⟨rfl,result⟩ := ih tail
      exact ⟨by rw [distinct same],result⟩

include other distinct in
/-- A record that has begun is a prefix of the one it belongs to. -/
theorem begun_prefix {first second : List α} {y : List β}
    (h : first.map embed <+: second.map embed ++ mark :: y) : first <+: second := by
  induction first generalizing second with
  | nil => exact List.nil_prefix
  | cons a rest ih =>
    cases second with
    | nil => exact absurd (List.cons_prefix_cons.mp h).1 (other a)
    | cons a' rest' =>
      obtain ⟨same,tail⟩ := List.cons_prefix_cons.mp h
      rw [distinct same]
      exact List.cons_prefix_cons.mpr ⟨rfl,ih tail⟩

include other distinct in
/-- Complete records at the front of a sequence are its first records. -/
theorem sequence_prefix {past records : List (List α)} {x tail : List β} (clean : mark ∉ tail)
    (h : sequence embed mark past ++ x <+: sequence embed mark records ++ tail) :
    ∃ rest, records = past ++ rest ∧ x <+: sequence embed mark rest ++ tail := by
  induction past generalizing records with
  | nil => exact ⟨records,rfl,h⟩
  | cons record past ih =>
    rw [sequence_cons,List.append_assoc,List.cons_append] at h
    cases records with
    | nil =>
      refine absurd (h.subset ?_) clean
      simp
    | cons record' records =>
      rw [sequence_cons,List.append_assoc,List.cons_append] at h
      obtain ⟨rfl,later⟩ := split_mark other distinct h
      obtain ⟨rest,rfl,result⟩ := ih later
      exact ⟨rest,rfl,result⟩

end Terminated
