import Mathlib.Data.List.Nodup

/-! A table with a key for each entry, and what is announced about it. -/
namespace Announcements

variable {κ α β : Type} [DecidableEq κ]

inductive Note (α : Type) where
  | added (a : α)
  | changed (a : α)
  | heartBeat (a : α)
  | removed (a : α)
  deriving DecidableEq, Repr

section Tables

/-- Changes the first one that is meant. -/
def modifyFirst (meant : α → Bool) (f : α → α) : List α → List α
  | [] => []
  | a :: rest => if meant a then f a :: rest else a :: modifyFirst meant f rest

def lookup (key : α → κ) (table : List α) (k : κ) : Option α := table.find? fun a => key a = k

variable {key : α → κ} {table : List α} {k : κ}

theorem modifyFirst_keys {meant : α → Bool} {f : α → α} (same : ∀ a, key (f a) = key a) (table : List α) :
    (modifyFirst meant f table).map key = table.map key := by
  induction table with
  | nil => rfl
  | cons a rest ih =>
    simp only [modifyFirst]
    split
    · simp [same]
    · simp [ih]

theorem mem_modifyFirst {meant : α → Bool} {f : α → α} {a : α} (member : a ∈ table) (other : meant a = false) :
    a ∈ modifyFirst meant f table := by
  induction table with
  | nil => simp at member
  | cons b rest ih =>
    simp only [modifyFirst]
    rcases List.mem_cons.mp member with rfl | later
    · simp [other]
    · split
      · exact List.mem_cons_of_mem _ later
      · exact List.mem_cons_of_mem _ (ih later)

theorem modifyFirst_same {meant : α → Bool} {f : α → α} (same : ∀ a ∈ table, meant a = true → f a = a) : modifyFirst meant f table = table := by
  induction table with
  | nil => rfl
  | cons a rest ih =>
    obtain ⟨own,others⟩ := List.forall_mem_cons.mp same
    simp only [modifyFirst]
    split
    next here => rw [own here]
    next => rw [ih others]

theorem lookup_modifyFirst {f : α → α} (same : ∀ a, key (f a) = key a) (table : List α) (k k' : κ) :
    lookup key (modifyFirst (fun a => key a = k) f table) k' = if k' = k then (lookup key table k).map f else lookup key table k' := by
  induction table with
  | nil => simp [modifyFirst,lookup]
  | cons a rest ih =>
    simp only [lookup] at ih
    by_cases here : key a = k
    · by_cases asked : k' = k
      · simp [modifyFirst,lookup,here,same,asked]
      · have other : k ≠ k' := Ne.symm asked
        simp [modifyFirst,lookup,here,same,asked,other]
    · by_cases asked : k' = k
      · subst asked
        simpa [modifyFirst,lookup,here] using ih
      · by_cases found : key a = k'
        · simp [modifyFirst,lookup,here,found,asked]
        · simpa [modifyFirst,lookup,here,found,asked] using ih

theorem lookup_cons (key : α → κ) (a : α) (table : List α) (k : κ) :
    lookup key (a :: table) k = if k = key a then some a else lookup key table k := by
  by_cases here : key a = k
  · simp [lookup,here]
  · have other : k ≠ key a := Ne.symm here
    simp [lookup,here,other]

theorem lookup_none : lookup key table k = none ↔ k ∉ table.map key := by
  simp only [lookup,List.find?_eq_none,List.mem_map,not_exists,not_and]
  exact forall₂_congr fun a _ => by simp

theorem lookup_some {a : α} (found : lookup key table k = some a) : a ∈ table ∧ key a = k :=
  ⟨List.mem_of_find?_eq_some found,by simpa using List.find?_some found⟩

theorem lookup_mem {a : α} (distinct : (table.map key).Nodup) (member : a ∈ table) : lookup key table (key a) = some a := by
  induction table with
  | nil => simp at member
  | cons b rest ih =>
    obtain ⟨fresh,distinct⟩ := List.nodup_cons.mp distinct
    rw [lookup_cons]
    rcases List.mem_cons.mp member with rfl | later
    · rw [if_pos rfl]
    · have ne : key a ≠ key b := fun same => fresh (same ▸ List.mem_map_of_mem later)
      rw [if_neg ne,ih distinct later]

/-- Of entries with different keys, one goes. -/
theorem lookup_eraseP (distinct : (table.map key).Nodup) (k k' : κ) :
    lookup key (table.eraseP fun a => key a = k) k' = if k' = k then none else lookup key table k' := by
  induction table with
  | nil => simp [lookup]
  | cons a rest ih =>
    obtain ⟨fresh,distinct⟩ := List.nodup_cons.mp distinct
    by_cases here : key a = k
    · rw [List.eraseP_cons_of_pos (by simpa using here),lookup_cons,here]
      by_cases asked : k' = k
      · rw [if_pos asked,asked]
        exact lookup_none.mpr (here ▸ fresh)
      · rw [if_neg asked,if_neg asked]
    · rw [List.eraseP_cons_of_neg (by simpa using here),lookup_cons,lookup_cons,ih distinct]
      by_cases own : k' = key a
      · have other : k' ≠ k := fun same => here (own ▸ same)
        rw [if_pos own,if_neg other,if_pos own]
      · rw [if_neg own,if_neg own]

theorem lookup_filter (distinct : (table.map key).Nodup) (kept : α → Bool) (k : κ) :
    lookup key (table.filter kept) k = (lookup key table k).filter kept := by
  induction table with
  | nil => simp [lookup]
  | cons a rest ih =>
    obtain ⟨fresh,distinct⟩ := List.nodup_cons.mp distinct
    rw [lookup_cons]
    by_cases own : k = key a
    · rw [if_pos own]
      by_cases stays : kept a = true
      · rw [List.filter_cons_of_pos stays,lookup_cons,if_pos own]
        simp [Option.filter,stays]
      · have gone : lookup key rest k = none := lookup_none.mpr (own ▸ fresh)
        rw [List.filter_cons_of_neg stays,ih distinct,gone]
        simp [Option.filter,stays]
    · rw [if_neg own]
      by_cases stays : kept a = true
      · rw [List.filter_cons_of_pos stays,lookup_cons,if_neg own,ih distinct]
      · rw [List.filter_cons_of_neg stays,ih distinct]

end Tables

section Replays

/-- What a listener that starts with nothing makes of one notification. -/
def Note.apply (key : α → κ) (shown : α → β) (seen : κ → Option β) : Note α → κ → Option β
  | .added a | .changed a => Function.update seen (key a) (some (shown a))
  | .removed a => Function.update seen (key a) none
  | .heartBeat _ => seen

def replay (key : α → κ) (shown : α → β) (notes : List (Note α)) : κ → Option β := notes.foldl (Note.apply key shown) fun _ => none

theorem replay_append (key : α → κ) (shown : α → β) (notes more : List (Note α)) :
    replay key shown (notes ++ more) = more.foldl (Note.apply key shown) (replay key shown notes) := List.foldl_append

theorem replay_snoc (key : α → κ) (shown : α → β) (notes : List (Note α)) (note : Note α) :
    replay key shown (notes ++ [note]) = note.apply key shown (replay key shown notes) := by
  rw [replay_append]
  rfl

theorem foldl_removed (key : α → κ) (shown : α → β) (seen : κ → Option β) (gone : List α) (k : κ) :
    (gone.map Note.removed).foldl (Note.apply key shown) seen k = if k ∈ gone.map key then none else seen k := by
  induction gone generalizing seen with
  | nil => simp
  | cons a rest ih =>
    rw [List.map_cons,List.foldl_cons,ih]
    by_cases own : k = key a
    · simp [Note.apply,own]
    · simp [Note.apply,own]

end Replays

end Announcements
