import Mathlib.Data.List.Nodup

/-! What is known of `qsort`, and the removal of duplicates from what it has sorted. -/
namespace Sorting

/-- A correct implementation; the order of elements that compare equal is not known. -/
structure Qsort (α : Type) where
  sort : (α → α → Ordering) → List α → List α
  perm : ∀ (cmp : α → α → Ordering) [Std.TransCmp cmp] l, (sort cmp l).Perm l
  sorted : ∀ (cmp : α → α → Ordering) [Std.TransCmp cmp] l, (sort cmp l).Pairwise fun x y => (cmp x y).isLE

variable {α : Type} {cmp : α → α → Ordering}

/-- `last`, and each element behind it that differs from the last one that is kept -/
def kept (cmp : α → α → Ordering) (last : α) : List α → List α
  | [] => [last]
  | x :: rest => if cmp x last = .eq then kept cmp last rest else last :: kept cmp x rest

def withoutDuplicates (cmp : α → α → Ordering) : List α → List α
  | [] => []
  | x :: rest => kept cmp x rest

theorem kept_sublist (last : α) (rest : List α) : (kept cmp last rest).Sublist (last :: rest) := by
  induction rest generalizing last with
  | nil => exact .refl _
  | cons x rest ih =>
    unfold kept
    split
    · exact (ih last).trans ((List.sublist_cons_self x rest).cons_cons last)
    · exact (ih x).cons_cons last

theorem withoutDuplicates_sublist (l : List α) : (withoutDuplicates cmp l).Sublist l :=
  match l with
  | [] => .refl _
  | x :: rest => kept_sublist x rest

theorem last_kept (last : α) (rest : List α) : last ∈ kept cmp last rest := by
  induction rest with
  | nil => exact List.mem_singleton_self _
  | cons x rest ih =>
    unfold kept
    split
    · exact ih
    · exact List.mem_cons_self

theorem first_kept {last : α} {rest : List α} {x : α} (member : x ∈ rest) (differs : cmp x last ≠ .eq)
    (first : ∀ z, [z,x].Sublist rest → cmp x z ≠ .eq) : x ∈ kept cmp last rest := by
  induction rest generalizing last with
  | nil => cases member
  | cons y rest ih =>
    have later : ∀ z, [z,x].Sublist rest → cmp x z ≠ .eq := fun z before => first z (before.cons y)
    unfold kept
    rcases List.mem_cons.mp member with rfl | behind
    · rw [if_neg differs]
      exact List.mem_cons_of_mem _ (last_kept x rest)
    · split
      · exact ih behind differs later
      · have before : [y,x].Sublist (y :: rest) := (List.singleton_sublist.mpr behind).cons_cons y
        exact List.mem_cons_of_mem _ (ih behind (first y before) later)

/-- The first of the elements that compare equal stays. -/
theorem first_stays {l : List α} {x : α} (member : x ∈ l) (first : ∀ z, [z,x].Sublist l → cmp x z ≠ .eq) :
    x ∈ withoutDuplicates cmp l := by
  match l with
  | y :: rest =>
    rcases List.mem_cons.mp member with rfl | behind
    · exact last_kept x rest
    · have before : [y,x].Sublist (y :: rest) := (List.singleton_sublist.mpr behind).cons_cons y
      exact first_kept behind (first y before) fun z later => first z (later.cons y)

variable [Std.TransCmp cmp]

theorem kept_covers (last : α) (rest : List α) : ∀ c ∈ last :: rest, ∃ x ∈ kept cmp last rest, cmp x c = .eq := by
  induction rest generalizing last with
  | nil =>
    intro c member
    exact ⟨last,last_kept ..,List.mem_singleton.mp member ▸ Std.ReflCmp.compare_self⟩
  | cons y rest ih =>
    intro c member
    unfold kept
    split
    · rename_i equal
      rcases List.mem_cons.mp member with rfl | behind
      · exact ⟨c,last_kept ..,Std.ReflCmp.compare_self⟩
      rcases List.mem_cons.mp behind with rfl | behind
      · exact ⟨last,last_kept ..,Std.OrientedCmp.eq_symm equal⟩
      · exact ih last c (List.mem_cons_of_mem _ behind)
    · rcases List.mem_cons.mp member with rfl | behind
      · exact ⟨c,List.mem_cons_self,Std.ReflCmp.compare_self⟩
      · obtain ⟨x,stays,equal⟩ := ih y c behind
        exact ⟨x,List.mem_cons_of_mem _ stays,equal⟩

theorem withoutDuplicates_covers (l : List α) : ∀ c ∈ l, ∃ x ∈ withoutDuplicates cmp l, cmp x c = .eq :=
  match l with
  | [] => nofun
  | x :: rest => kept_covers x rest

theorem kept_ascends (last : α) (rest : List α) (sorted : (last :: rest).Pairwise fun x y => (cmp x y).isLE) :
    (kept cmp last rest).Pairwise fun x y => cmp x y = .lt := by
  induction rest generalizing last with
  | nil => exact List.pairwise_singleton ..
  | cons y rest ih =>
    have ⟨below,tail⟩ := List.pairwise_cons.mp sorted
    unfold kept
    split
    · exact ih last (sorted.sublist ((List.sublist_cons_self y rest).cons_cons last))
    · rename_i differs
      have less : cmp last y = .lt :=
        (Ordering.isLE_iff_eq_lt_or_eq_eq.mp (below y List.mem_cons_self)).resolve_right
          fun equal => differs (Std.OrientedCmp.eq_symm equal)
      refine List.pairwise_cons.mpr ⟨?_,ih y tail⟩
      intro z member
      rcases List.mem_cons.mp ((kept_sublist y rest).subset member) with rfl | behind
      · exact less
      · exact Std.TransCmp.lt_of_lt_of_isLE less (List.rel_of_pairwise_cons tail behind)

theorem withoutDuplicates_ascends (l : List α) (sorted : l.Pairwise fun x y => (cmp x y).isLE) :
    (withoutDuplicates cmp l).Pairwise fun x y => cmp x y = .lt :=
  match l with
  | [] => List.Pairwise.nil
  | x :: rest => kept_ascends x rest sorted

theorem isLE_total (a b : α) : ((cmp a b).isLE || (cmp b a).isLE) = true := by
  have swapped : cmp b a = (cmp a b).swap := Std.OrientedCmp.eq_swap
  rw [swapped]
  cases cmp a b <;> rfl

/-- A correct `qsort` that puts the elements with `p` first among those that compare equal -/
def preferring (p : α → Bool) : Qsort α where
  sort cmp l := (l.filter p ++ l.filter fun x => !p x).mergeSort fun x y => (cmp x y).isLE
  perm _ _ l := (List.mergeSort_perm ..).trans (List.filter_append_perm p l)
  sorted _ _ _ := List.pairwise_mergeSort (fun _ _ _ => Std.TransCmp.isLE_trans) isLE_total _

theorem order_nodup {l : List α} {x z : α} (nodup : l.Nodup) (before : [x,z].Sublist l) : ¬[z,x].Sublist l := by
  induction l with
  | nil => cases before
  | cons y l ih =>
    have ⟨fresh,rest⟩ := List.nodup_cons.mp nodup
    intro behind
    cases before with
    | cons _ before =>
      cases behind with
      | cons _ behind => exact ih rest before behind
      | cons_cons _ _ => exact fresh (before.subset (List.mem_cons_of_mem _ List.mem_cons_self))
    | cons_cons _ before =>
      cases behind with
      | cons _ behind => exact fresh (behind.subset (List.mem_cons_of_mem _ List.mem_cons_self))
      | cons_cons _ _ => exact fresh (before.subset List.mem_cons_self)

/-- The element that is preferred stays where it is the only such one of its equals. -/
theorem preferred_stays {p : α → Bool} {l : List α} {x : α} (nodup : l.Nodup) (member : x ∈ l) (chosen : p x = true)
    (only : ∀ z ∈ l, p z = true → cmp x z = .eq → z = x) : x ∈ withoutDuplicates cmp ((preferring p).sort cmp l) := by
  have perm := (preferring p).perm cmp l
  refine first_stays (perm.mem_iff.mpr member) fun z before equal => ?_
  have distinct := perm.nodup_iff.mpr nodup
  have inside : z ∈ l := perm.mem_iff.mp (before.subset List.mem_cons_self)
  have other : z ≠ x := by
    rintro rfl
    exact order_nodup distinct before before
  have refused : p z ≠ true := fun preferred => other (only z inside preferred equal)
  have front : [x].Sublist (l.filter p) := List.singleton_sublist.mpr (List.mem_filter.mpr ⟨member,chosen⟩)
  have behind : [z].Sublist (l.filter fun x => !p x) :=
    List.singleton_sublist.mpr (List.mem_filter.mpr ⟨inside,by simpa using refused⟩)
  have parts : [x,z].Sublist (l.filter p ++ l.filter fun x => !p x) := front.append behind
  refine order_nodup distinct ?_ before
  exact List.pair_sublist_mergeSort (fun _ _ _ => Std.TransCmp.isLE_trans) isLE_total (by rw [equal]; rfl) parts

end Sorting
