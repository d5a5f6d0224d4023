import Mathlib.Data.List.Nodup
import Mathlib.Algebra.BigOperators.Group.List.Basic
import Mathlib.Algebra.Order.Ring.Int

/-! Tables of buckets: an entry is in the bucket of its key, and no bucket has two entries with one key. -/
namespace Buckets

variable {α κ : Type}

/-- All entries, in the order of a walk over the buckets. -/
def entries (size : Nat) (table : Nat → List α) : List α := (List.range size).flatMap table

structure Placed (hash : κ → Nat) (key : α → κ) (table : Nat → List α) : Prop where
  home : ∀ h, ∀ a ∈ table h, hash (key a) = h
  once : ∀ h, ((table h).map key).Nodup

variable {hash : κ → Nat} {key : α → κ} {table : Nat → List α} {size : Nat}

@[simp] theorem mem_entries {a : α} : a ∈ entries size table ↔ ∃ h < size, a ∈ table h := by
  simp [entries]

theorem placed_empty : Placed hash key fun _ => [] := ⟨nofun,fun _ => List.nodup_nil⟩

/-- Two entries with one key are one entry. -/
theorem Placed.unique (placed : Placed hash key table) {a b : α} {g h : Nat} (first : a ∈ table g) (second : b ∈ table h)
    (same : key a = key b) : a = b := by
  have there : g = h := by rw [← placed.home g a first,same,placed.home h b second]
  subst there
  exact List.inj_on_of_nodup_map (placed.once g) first second same

theorem Placed.nodup (placed : Placed hash key table) (size : Nat) : ((entries size table).map key).Nodup := by
  rw [entries,List.map_flatMap,List.nodup_flatMap]
  refine ⟨fun h _ => placed.once h,List.nodup_range.pairwise_of_forall_ne fun g _ h _ apart k first second => ?_⟩
  obtain ⟨a,inside,rfl⟩ := List.mem_map.mp first
  obtain ⟨b,there,same⟩ := List.mem_map.mp second
  exact apart ((placed.home g a inside).symm.trans ((congrArg hash same).symm.trans (placed.home h b there)))

theorem Placed.update (placed : Placed hash key table) {h : Nat} {bucket : List α} (home : ∀ a ∈ bucket, hash (key a) = h)
    (once : (bucket.map key).Nodup) : Placed hash key (Function.update table h bucket) := by
  refine ⟨fun g a inside => ?_,fun g => ?_⟩
  · by_cases same : g = h
    · subst same
      exact home a (by simpa using inside)
    · exact placed.home g a (by simpa [same] using inside)
  · by_cases same : g = h
    · subst same
      simpa using once
    · simpa [same] using placed.once g

/-- A new entry whose key the table does not have. -/
theorem Placed.add (placed : Placed hash key table) {a : α} (new : ∀ b ∈ table (hash (key a)), key b ≠ key a)
    {bucket : List α} (perm : bucket.Perm (a :: table (hash (key a)))) :
    Placed hash key (Function.update table (hash (key a)) bucket) := by
  refine placed.update (fun b inside => ?_) ?_
  · rcases List.mem_cons.mp (perm.mem_iff.mp inside) with rfl | old
    · rfl
    · exact placed.home _ b old
  · refine (perm.map key).nodup_iff.mpr (List.nodup_cons.mpr ⟨fun old => ?_,placed.once _⟩)
    obtain ⟨b,inside,same⟩ := List.mem_map.mp old
    exact new b inside same

/-- The sum over all entries changes with the bucket. -/
theorem sum_update (table : Nat → List α) (weight : α → Nat) {h : Nat} (inside : h < size) (bucket : List α) :
    ((entries size (Function.update table h bucket)).map weight).sum + ((table h).map weight).sum =
      ((entries size table).map weight).sum + (bucket.map weight).sum := by
  induction size with
  | zero => omega
  | succ size ih =>
    simp only [entries,List.range_succ,List.flatMap_append,List.map_append,List.sum_append,List.flatMap_cons,List.flatMap_nil,
      List.append_nil] at ih ⊢
    rcases Nat.lt_succ_iff_lt_or_eq.mp inside with less | rfl
    · have apart : size ≠ h := by omega
      have before := ih less
      simp only [Function.update_of_ne apart]
      omega
    · have same : (List.range h).flatMap (Function.update table h bucket) = (List.range h).flatMap table :=
        List.flatMap_congr fun g member => by
          have less := List.mem_range.mp member
          exact Function.update_of_ne (by omega) ..
      simp only [same,Function.update_self]
      omega

end Buckets
