import Mathlib.Algebra.Order.Ring.Int
import Mathlib.Data.List.Nodup
import Tcf.Base.Qsort

/-! The list of the symbols that a search by name has found, sorted -/
namespace Tcf.SymbolsSort

open Sorting

/-- `Symbol`. Objects and symbol tables are their addresses, 0 is NULL; `data` is what the sort does not
look at: the frame, the address, the class and the like. -/
structure Symbol (α : Type) where
  obj : Nat
  var : Nat
  tbl : Nat
  index : Nat
  hasLocation : Bool
  weak : Bool
  priority : Int
  level : Nat
  pos : Nat
  data : α
  deriving DecidableEq, Repr

variable {α : Type}

/-- `symbol_equ_comparator` -/
def symbolEquComparator (sx sy : Symbol α) : Ordering :=
  if sx.obj < sy.obj then .lt
  else if sx.obj > sy.obj then .gt
  else if sx.var < sy.var then .lt
  else if sx.var > sy.var then .gt
  else if sx.tbl < sy.tbl then .lt
  else if sx.tbl > sy.tbl then .gt
  else if sx.index < sy.index then .lt
  else if sx.index > sy.index then .gt
  else .eq

/-- `symbol_prt_comparator`: from low to high, the most likely match must be last. -/
def symbolPrtComparator (sx sy : Symbol α) : Ordering :=
  if sx.hasLocation ∧ ¬sy.hasLocation then .gt
  else if sy.hasLocation ∧ ¬sx.hasLocation then .lt
  else if sx.weak ∧ ¬sy.weak then .lt
  else if sy.weak ∧ ¬sx.weak then .gt
  else if sx.level < sy.level then .lt
  else if sx.level > sy.level then .gt
  else if sx.obj = 0 ∧ sy.obj ≠ 0 then .lt
  else if sx.obj ≠ 0 ∧ sy.obj = 0 then .gt
  else if sx.priority < sy.priority then .lt
  else if sx.priority > sy.priority then .gt
  else if sx.var = 0 ∧ sy.var ≠ 0 then .gt
  else if sx.var ≠ 0 ∧ sy.var = 0 then .lt
  else if sx.pos < sy.pos then .gt
  else if sx.pos > sy.pos then .lt
  else .eq

/-- The symbols as the first loop leaves them in the buffer -/
def numbered (cnt : Nat) : List (Symbol α) → List (Symbol α)
  | [] => []
  | s :: next => { s with pos := cnt } :: numbered (cnt - 1) next

/-- `sort_find_symbol_buf`. With 2^32 symbols or more the count wraps and the buffer is too small. -/
def sortFindSymbolBuf (q : Qsort (Symbol α)) (list : List (Symbol α)) : Option (List (Symbol α)) :=
  if list.length ≤ 1 then some list
  else if list.length < 2 ^ 32 then
    let buf := q.sort symbolEquComparator (numbered list.length list)
    some (q.sort symbolPrtComparator (withoutDuplicates symbolEquComparator buf)).reverse
  else none

/-- What makes an object or a table entry -/
def Symbol.entry (s : Symbol α) : List Nat := [s.obj,s.var,s.tbl,s.index]

/-- The priority: symbols with an address, strong ones, inner scopes, DWARF before ELF, extern and definitions,
variables before members, and what was found first -/
def Symbol.rank (s : Symbol α) : List Int :=
  [s.hasLocation.toNat,-s.weak.toNat,s.level,if s.obj = 0 then 0 else 1,s.priority,if s.var = 0 then 1 else 0,-s.pos]

/-- The symbol without the volatile fields -/
def Symbol.lasting (s : Symbol α) : Symbol α := { s with level := 0, pos := 0 }

/-- `x` comes before `y` in the list. -/
def Outranks (x y : Symbol α) : Prop := compare y.rank x.rank = .lt

def candidates (list : List (Symbol α)) : List (Symbol α) := numbered list.length list

/-- A list of the candidates as it is meant: each one once, in the order of their best copies -/
structure Ranked (list out : List (Symbol α)) : Prop where
  distinct : (out.map Symbol.entry).Nodup
  complete : ∀ c ∈ list, ∃ s ∈ out, s.entry = c.entry
  sound : ∀ s ∈ out, ∃ c ∈ list, c.lasting = s.lasting
  ordered : out.Pairwise Outranks
  innermost : out.Pairwise fun x y => ∃ c ∈ candidates list, c.entry = x.entry ∧
    ∀ d ∈ candidates list, d.entry = y.entry → Outranks c d

/-- The result is such a list, and the same one whatever the sort. -/
structure Reliable (list : List (Symbol α)) : Prop where
  ranked : ∀ q, ∃ out, sortFindSymbolBuf q list = some out ∧ Ranked list out
  same : ∀ q q' out out', sortFindSymbolBuf q list = some out → sortFindSymbolBuf q' list = some out' →
    out.map Symbol.lasting = out'.map Symbol.lasting

/-- Copies of a symbol differ in the volatile fields only. -/
def CopiesAgree (list : List (Symbol α)) : Prop := ∀ x ∈ list, ∀ y ∈ list, x.entry = y.entry → x.lasting = y.lasting

/-- No symbol comes between the copies of another one. -/
def CopiesTogether (list : List (Symbol α)) : Prop := ∀ x ∈ candidates list, ∀ y ∈ candidates list, x.entry ≠ y.entry →
  Outranks x y → ∀ x' ∈ candidates list, ∀ y' ∈ candidates list, x'.entry = x.entry → y'.entry = y.entry → Outranks x' y'

variable {x y : Symbol α}

section Comparators

theorem compare_cons {β : Type} [LinearOrder β] (a b : β) (l m : List β) :
    compare (a :: l) (b :: m) = if a < b then .lt else if a > b then .gt else compare l m := by
  have first : compare (a :: l) (b :: m) = (compare a b).then (compare l m) := List.compareLex_cons_cons
  rw [first]
  rcases lt_trichotomy a b with less | rfl | more
  · rw [compare_lt_iff_lt.mpr less,if_pos less]
    rfl
  · rw [compare_eq_iff_eq.mpr rfl,if_neg (lt_irrefl a),if_neg (lt_irrefl a)]
    rfl
  · rw [compare_gt_iff_gt.mpr more,if_neg (not_lt_of_gt more),if_pos more]
    rfl

theorem equ_eq : symbolEquComparator (α := α) = compareOn Symbol.entry := by
  funext sx sy
  simp only [compareOn,Symbol.entry,compare_cons]
  rfl

/-- Two tests that exclude each other, in either order -/
theorem ite_swap {β : Type} {p r : Prop} [Decidable p] [Decidable r] (apart : p → ¬r) (a b c : β) :
    (if p then a else if r then b else c) = if r then b else if p then a else c := by
  by_cases first : p
  · rw [if_pos first,if_neg (apart first),if_pos first]
  · rw [if_neg first,if_neg first]

theorem prt_eq : symbolPrtComparator (α := α) = compareOn Symbol.rank := by
  funext sx sy
  have located (a b : Bool) : ((a.toNat : Int) < b.toNat) = (b ∧ ¬a) := by cases a <;> cases b <;> decide
  have weak (a b : Bool) : (-(a.toNat : Int) < -b.toNat) = (a ∧ ¬b) := by cases a <;> cases b <;> decide
  have dwarf (a b : Nat) : ((if a = 0 then (0 : Int) else 1) < if b = 0 then 0 else 1) = (a = 0 ∧ b ≠ 0) := by grind
  have member (a b : Nat) : ((if a = 0 then (1 : Int) else 0) < if b = 0 then 1 else 0) = (a ≠ 0 ∧ b = 0) := by grind
  have place (a b : Nat) : (-(a : Int) < -b) = (b < a) := by grind
  simp only [compareOn,Symbol.rank,compare_cons,gt_iff_lt,located,weak,dwarf,member,place,Int.ofNat_lt]
  unfold symbolPrtComparator
  rw [ite_swap fun (here : sx.hasLocation ∧ ¬sy.hasLocation) (there : sy.hasLocation ∧ ¬sx.hasLocation) => here.2 there.1,
    ite_swap fun (here : sx.var = 0 ∧ sy.var ≠ 0) (there : sx.var ≠ 0 ∧ sy.var = 0) => there.1 here.1,
    ite_swap fun (before : sx.pos < sy.pos) (after : sx.pos > sy.pos) => Nat.lt_asymm before after]
  simp only [and_comm (a := sx.obj ≠ 0),and_comm (a := sx.var = 0),gt_iff_lt]
  rfl

instance : Std.TransCmp (symbolEquComparator (α := α)) := by
  rw [equ_eq]
  infer_instance

instance : Std.TransCmp (symbolPrtComparator (α := α)) := by
  rw [prt_eq]
  infer_instance

theorem equ_eq_iff : symbolEquComparator x y = .eq ↔ x.entry = y.entry := by
  rw [equ_eq]
  exact Std.LawfulEqOrd.compare_eq_iff_eq

theorem outranks_iff : Outranks x y ↔ symbolPrtComparator y x = .lt := by
  rw [prt_eq]
  exact Iff.rfl

theorem Outranks.asymm (outranks : Outranks x y) : ¬Outranks y x := Std.OrientedCmp.not_lt_of_lt outranks

theorem pos_of_rank (same : x.rank = y.rank) : x.pos = y.pos := by
  simp only [Symbol.rank,List.cons.injEq] at same
  omega

theorem entry_of_lasting (same : x.lasting = y.lasting) : x.entry = y.entry := by
  have entries : x.lasting.entry = y.lasting.entry := congrArg Symbol.entry same
  exact entries

end Comparators

section Buffer

variable {list : List (Symbol α)}

theorem numbered_lasting (n : Nat) (list : List (Symbol α)) : (numbered n list).map Symbol.lasting = list.map Symbol.lasting := by
  induction list generalizing n with
  | nil => rfl
  | cons s next ih => exact congrArg (s.lasting :: ·) (ih (n - 1))

theorem numbered_below {n : Nat} (s : Symbol α) (member : s ∈ numbered n list) : s.pos ≤ n := by
  induction list generalizing n with
  | nil => cases member
  | cons t next ih =>
    rcases List.mem_cons.mp member with rfl | behind
    · exact Nat.le_refl n
    · exact Nat.le_trans (ih behind) (Nat.sub_le n 1)

theorem numbered_descends {n : Nat} (fits : list.length ≤ n) : (numbered n list).Pairwise fun x y => y.pos < x.pos := by
  induction list generalizing n with
  | nil => exact List.Pairwise.nil
  | cons s next ih =>
    rw [List.length_cons] at fits
    refine List.pairwise_cons.mpr ⟨fun t member => ?_,ih (Nat.le_sub_one_of_lt fits)⟩
    have below := numbered_below t member
    have inside : ({ s with pos := n } : Symbol α).pos = n := rfl
    omega

theorem candidates_nodup (list : List (Symbol α)) : ((candidates list).map Symbol.pos).Nodup := by
  refine List.pairwise_map.mpr ((numbered_descends (Nat.le_refl _)).imp fun less => ?_)
  exact Nat.ne_of_gt less

theorem candidate_eq (first : x ∈ candidates list) (second : y ∈ candidates list) (same : x.pos = y.pos) :
    x = y := List.inj_on_of_nodup_map (candidates_nodup list) first second same

theorem candidate_listed {c : Symbol α} (member : c ∈ candidates list) : ∃ l ∈ list, l.lasting = c.lasting := by
  have listed : c.lasting ∈ list.map Symbol.lasting := numbered_lasting list.length list ▸ List.mem_map_of_mem member
  exact List.mem_map.mp listed

theorem listed_candidate {l : Symbol α} (member : l ∈ list) : ∃ c ∈ candidates list, c.lasting = l.lasting := by
  have numbered : l.lasting ∈ (candidates list).map Symbol.lasting :=
    (numbered_lasting list.length list).symm ▸ List.mem_map_of_mem member
  exact List.mem_map.mp numbered

end Buffer

section Result

/-- The sorted list -/
def result (q : Qsort (Symbol α)) (list : List (Symbol α)) : List (Symbol α) :=
  (q.sort symbolPrtComparator (withoutDuplicates symbolEquComparator (q.sort symbolEquComparator (candidates list)))).reverse

variable {q : Qsort (Symbol α)} {list : List (Symbol α)}

theorem sort_eq (more : ¬list.length ≤ 1) (fits : list.length < 2 ^ 32) : sortFindSymbolBuf q list = some (result q list) := by
  unfold sortFindSymbolBuf
  rw [if_neg more,if_pos fits]
  rfl

theorem result_perm (q : Qsort (Symbol α)) (list : List (Symbol α)) :
    (result q list).Perm (withoutDuplicates symbolEquComparator (q.sort symbolEquComparator (candidates list))) :=
  (List.reverse_perm _).trans (q.perm symbolPrtComparator _)

theorem result_candidate {s : Symbol α} (member : s ∈ result q list) : s ∈ candidates list := by
  have kept := (result_perm q list).mem_iff.mp member
  exact (q.perm symbolEquComparator _).mem_iff.mp ((withoutDuplicates_sublist _).subset kept)

theorem result_distinct (q : Qsort (Symbol α)) (list : List (Symbol α)) : ((result q list).map Symbol.entry).Nodup := by
  refine ((result_perm q list).map Symbol.entry).nodup_iff.mpr (List.pairwise_map.mpr ?_)
  refine (withoutDuplicates_ascends _ (q.sorted symbolEquComparator _)).imp fun less same => ?_
  rw [equ_eq_iff.mpr same] at less
  cases less

theorem result_complete {c : Symbol α} (member : c ∈ candidates list) : ∃ s ∈ result q list, s.entry = c.entry := by
  have inside := (q.perm symbolEquComparator _).mem_iff.mpr member
  have covers : ∃ s ∈ withoutDuplicates symbolEquComparator (q.sort symbolEquComparator (candidates list)),
      symbolEquComparator s c = .eq := withoutDuplicates_covers _ c inside
  obtain ⟨s,kept,same⟩ := covers
  exact ⟨s,(result_perm q list).mem_iff.mpr kept,equ_eq_iff.mp same⟩

theorem result_eq (first : x ∈ result q list) (second : y ∈ result q list) (same : x.entry = y.entry) :
    x = y := List.inj_on_of_nodup_map (result_distinct q list) first second same

theorem result_ordered (q : Qsort (Symbol α)) (list : List (Symbol α)) : (result q list).Pairwise Outranks := by
  have sorted : (result q list).Pairwise fun x y => (symbolPrtComparator y x).isLE :=
    List.pairwise_reverse.mpr (q.sorted symbolPrtComparator _)
  have distinct : (result q list).Pairwise fun x y => x.entry ≠ y.entry := List.pairwise_map.mp (result_distinct q list)
  refine (sorted.and distinct).imp_of_mem fun {x y} first second ⟨below,differ⟩ => outranks_iff.mpr ?_
  refine (Ordering.isLE_iff_eq_lt_or_eq_eq.mp below).resolve_right fun equal => differ ?_
  rw [prt_eq] at equal
  have same : y.rank = x.rank := Std.LawfulEqOrd.compare_eq_iff_eq.mp equal
  rw [candidate_eq (result_candidate second) (result_candidate first) (pos_of_rank same)]

/-- A candidate that a sort can put in front of its copies -/
theorem preferred_in_result {p : Symbol α → Bool} (member : x ∈ candidates list) (chosen : p x = true)
    (only : ∀ z ∈ candidates list, p z = true → x.entry = z.entry → z = x) : x ∈ result (preferring p) list := by
  refine (result_perm _ list).mem_iff.mpr (preferred_stays ?_ member chosen fun z inside preferred equal => ?_)
  · exact (candidates_nodup list).of_map
  · exact only z inside preferred (equ_eq_iff.mp equal)

end Result

section Exact

variable {q : Qsort (Symbol α)} {list : List (Symbol α)}

theorem CopiesAgree.candidates (agree : CopiesAgree list) (first : x ∈ candidates list)
    (second : y ∈ candidates list) (same : x.entry = y.entry) : x.lasting = y.lasting := by
  obtain ⟨u,listed,first⟩ := candidate_listed first
  obtain ⟨v,listed',second⟩ := candidate_listed second
  have entries : u.entry = v.entry := (entry_of_lasting first).trans (same.trans (entry_of_lasting second).symm)
  rw [← first,← second]
  exact agree u listed v listed' entries

theorem result_ranked (together : CopiesTogether list) : Ranked list (result q list) where
  distinct := result_distinct q list
  complete c member := by
    obtain ⟨d,inside,same⟩ := listed_candidate member
    obtain ⟨s,kept,equal⟩ := result_complete (q := q) inside
    exact ⟨s,kept,equal.trans (entry_of_lasting same)⟩
  sound _ kept := candidate_listed (result_candidate kept)
  ordered := result_ordered q list
  innermost := by
    have distinct := List.pairwise_map.mp (result_distinct q list)
    refine ((result_ordered q list).and distinct).imp_of_mem fun {x y} first second ⟨outranks,differ⟩ => ?_
    refine ⟨x,result_candidate first,rfl,fun d inside same => ?_⟩
    exact together x (result_candidate first) y (result_candidate second) differ outranks x (result_candidate first) d inside rfl same

theorem result_lasting (agree : CopiesAgree list) {v : Symbol α} :
    v ∈ (result q list).map Symbol.lasting ↔ ∃ c ∈ candidates list, c.lasting = v := by
  constructor
  · intro member
    obtain ⟨s,kept,same⟩ := List.mem_map.mp member
    exact ⟨s,result_candidate kept,same⟩
  · rintro ⟨c,inside,rfl⟩
    obtain ⟨s,kept,same⟩ := result_complete (q := q) inside
    exact List.mem_map.mpr ⟨s,kept,agree.candidates (result_candidate kept) inside same⟩

theorem lasting_nodup (q : Qsort (Symbol α)) (list : List (Symbol α)) : ((result q list).map Symbol.lasting).Nodup := by
  refine List.pairwise_map.mpr ((List.pairwise_map.mp (result_distinct q list)).imp fun differ same => ?_)
  exact differ (entry_of_lasting same)

theorem result_same (agree : CopiesAgree list) (together : CopiesTogether list) (q q' : Qsort (Symbol α)) :
    (result q list).map Symbol.lasting = (result q' list).map Symbol.lasting := by
  -- the order of two symbols is that of any of their copies
  let above (v w : Symbol α) := ∃ x ∈ candidates list, ∃ y ∈ candidates list, x.lasting = v ∧ y.lasting = w ∧ Outranks x y
  have sorted (q : Qsort (Symbol α)) : ((result q list).map Symbol.lasting).Pairwise above := by
    refine List.pairwise_map.mpr ((result_ordered q list).imp_of_mem fun {x y} first second outranks => ?_)
    exact ⟨x,result_candidate first,y,result_candidate second,rfl,rfl,outranks⟩
  have antisymm (v w : Symbol α) : v ∈ (result q list).map Symbol.lasting → w ∈ (result q' list).map Symbol.lasting →
      above v w → above w v → v = w := by
    rintro - - ⟨x,first,y,second,rfl,rfl,outranks⟩ ⟨y',second',x',first',same,same',outranks'⟩
    by_cases equal : x.entry = y.entry
    · exact agree.candidates first second equal
    · have again := together x first y second equal outranks x' first' y' second' (entry_of_lasting same') (entry_of_lasting same)
      exact absurd outranks' again.asymm
  have perm : ((result q list).map Symbol.lasting).Perm ((result q' list).map Symbol.lasting) := by
    refine (List.perm_ext_iff_of_nodup (lasting_nodup q list) (lasting_nodup q' list)).mpr fun v => ?_
    exact (result_lasting agree).trans (result_lasting agree).symm
  exact List.Perm.eq_of_pairwise antisymm (sorted q) (sorted q') perm

theorem short_ranked (short : list.length ≤ 1) : Ranked list list := by
  have alone (r : Symbol α → Symbol α → Prop) : list.Pairwise r := by
    match list with
    | [] => exact List.Pairwise.nil
    | [s] => exact List.pairwise_singleton r s
  exact {
    distinct := List.pairwise_map.mpr (alone _)
    complete := fun c member => ⟨c,member,rfl⟩
    sound := fun c member => ⟨c,member,rfl⟩
    ordered := alone _
    innermost := alone _ }

theorem reliable (fits : list.length < 2 ^ 32) (agree : CopiesAgree list) (together : CopiesTogether list) : Reliable list := by
  by_cases more : list.length ≤ 1
  · have unchanged (q : Qsort (Symbol α)) : sortFindSymbolBuf q list = some list := if_pos more
    refine ⟨fun q => ⟨list,unchanged q,short_ranked more⟩,fun q q' out out' sorted sorted' => ?_⟩
    rw [unchanged] at sorted sorted'
    cases sorted
    cases sorted'
    rfl
  · refine ⟨fun q => ⟨_,sort_eq more fits,result_ranked together⟩,fun q q' out out' sorted sorted' => ?_⟩
    rw [sort_eq more fits] at sorted sorted'
    cases sorted
    cases sorted'
    exact result_same agree together q q'

/-- A sort that puts two copies before the other copies of their symbols -/
def choosing (x y : Symbol α) : Qsort (Symbol α) := preferring fun s => decide (s.pos = x.pos ∨ s.pos = y.pos)

theorem choosing_first (first : x ∈ candidates list) (second : y ∈ candidates list)
    (single : x.entry = y.entry → y = x) : x ∈ result (choosing x y) list := by
  refine preferred_in_result first (decide_eq_true (.inl rfl)) fun z inside chosen same => ?_
  rcases of_decide_eq_true chosen with place | place
  · exact candidate_eq inside first place
  · have equal := candidate_eq inside second place
    rw [equal] at same ⊢
    exact single same

theorem choosing_second (first : x ∈ candidates list) (second : y ∈ candidates list)
    (single : y.entry = x.entry → x = y) : y ∈ result (choosing x y) list := by
  refine preferred_in_result second (decide_eq_true (.inr rfl)) fun z inside chosen same => ?_
  rcases of_decide_eq_true chosen with place | place
  · have equal := candidate_eq inside first place
    rw [equal] at same ⊢
    exact single same
  · exact candidate_eq inside second place

theorem Reliable.fits (reliable : Reliable list) : list.length < 2 ^ 32 := by
  by_contra long
  obtain ⟨out,sorted,-⟩ := reliable.ranked (preferring fun _ => true)
  have more : ¬list.length ≤ 1 := fun short => long (Nat.lt_of_le_of_lt short (by decide))
  unfold sortFindSymbolBuf at sorted
  rw [if_neg more,if_neg long] at sorted
  cases sorted

theorem Reliable.result (reliable : Reliable list) (more : ¬list.length ≤ 1) (q q' : Qsort (Symbol α)) :
    (result q list).map Symbol.lasting = (SymbolsSort.result q' list).map Symbol.lasting :=
  reliable.same q q' _ _ (sort_eq more reliable.fits) (sort_eq more reliable.fits)

/-- The copies in two results are of one symbol where they stand in one place. -/
theorem Reliable.at_place (reliable : Reliable list) (more : ¬list.length ≤ 1) (q q' : Qsort (Symbol α))
    {i : Nat} (first : (SymbolsSort.result q list)[i]? = some x) (second : y ∈ SymbolsSort.result q' list) (same : y.entry = x.entry) :
    (SymbolsSort.result q' list)[i]? = some y ∧ y.lasting = x.lasting := by
  have lasting : ((SymbolsSort.result q' list).map Symbol.lasting)[i]? = some x.lasting := by
    rw [← reliable.result more q q',List.getElem?_map,first]
    rfl
  rw [List.getElem?_map,Option.map_eq_some_iff] at lasting
  obtain ⟨z,there,equal⟩ := lasting
  have one : z = y := result_eq (List.mem_of_getElem? there) second ((entry_of_lasting equal).trans same.symm)
  rw [one] at there equal
  exact ⟨there,equal⟩

theorem short_eq (short : list.length ≤ 1) (first : x ∈ list) (second : y ∈ list) : x = y := by
  match list with
  | [s] => exact (List.mem_singleton.mp first).trans (List.mem_singleton.mp second).symm

theorem Reliable.agree (reliable : Reliable list) : CopiesAgree list := by
  intro x listed y listed' same
  by_cases more : list.length ≤ 1
  · rw [short_eq more listed listed']
  obtain ⟨u,first,equal⟩ := listed_candidate listed
  obtain ⟨v,second,equal'⟩ := listed_candidate listed'
  have chosen := choosing_first first first fun _ => rfl
  obtain ⟨i,there⟩ := List.mem_iff_getElem?.mp chosen
  have entries : v.entry = u.entry := (entry_of_lasting equal').trans (same.symm.trans (entry_of_lasting equal).symm)
  have lasting := (reliable.at_place more _ _ there (choosing_first second second fun _ => rfl) entries).2
  rw [← equal,← equal',lasting]

theorem ordered_places {q : Qsort (Symbol α)} {i j : Nat} (first : (result q list)[i]? = some x)
    (second : (result q list)[j]? = some y) (less : i < j) : Outranks x y := by
  obtain ⟨inside,rfl⟩ := List.getElem?_eq_some_iff.mp first
  obtain ⟨inside',rfl⟩ := List.getElem?_eq_some_iff.mp second
  exact List.pairwise_iff_getElem.mp (result_ordered q list) i j inside inside' less

theorem Reliable.together (reliable : Reliable list) : CopiesTogether list := by
  intro x first y second differ outranks x' first' y' second' same same'
  have more : ¬list.length ≤ 1 := by
    intro short
    obtain ⟨u,listed,equal⟩ := candidate_listed first
    obtain ⟨v,listed',equal'⟩ := candidate_listed second
    refine differ ((entry_of_lasting equal).symm.trans ?_)
    rw [short_eq short listed listed']
    exact entry_of_lasting equal'
  have differ' : x'.entry ≠ y'.entry := fun equal => differ (same.symm.trans (equal.trans same'))
  obtain ⟨i,there⟩ := List.mem_iff_getElem?.mp (choosing_first first second fun equal => absurd equal differ)
  obtain ⟨j,behind⟩ := List.mem_iff_getElem?.mp (choosing_second first second fun equal => absurd equal.symm differ)
  have less : i < j := by
    rcases Nat.lt_trichotomy i j with less | rfl | more
    · exact less
    · rw [there] at behind
      cases behind
      exact absurd rfl differ
    · exact absurd outranks (ordered_places behind there more).asymm
  have there' := (reliable.at_place more _ _ there (choosing_first first' second' fun equal => absurd equal differ') same).1
  have behind' := (reliable.at_place more _ _ behind (choosing_second first' second' fun equal => absurd equal.symm differ') same').1
  exact ordered_places there' behind' less

/-- The choice of the symbol is reliable exactly where the copies of each candidate agree and no other candidate ranks
between them. -/
theorem sort_reliable_iff (list : List (Symbol α)) : Reliable list ↔
    list.length < 2 ^ 32 ∧ CopiesAgree list ∧ CopiesTogether list :=
  ⟨fun reliable => ⟨reliable.fits,reliable.agree,reliable.together⟩,
    fun ⟨fits,agree,together⟩ => SymbolsSort.reliable fits agree together⟩

instance (x y : Symbol α) : Decidable (Outranks x y) := inferInstanceAs (Decidable (compare y.rank x.rank = .lt))

/-- An object without a table entry, at a level -/
def object (obj level : Nat) : Symbol Unit := ⟨obj,0,0,0,true,false,0,level,0,()⟩

/-- A name of a namespace that a block and its unit both import, with a local variable of that name in the function -/
def importedTwice : List (Symbol Unit) := [object 0x100 0,object 0x200 1,object 0x100 2]

/-- The sort decides whether the imported name or the local variable comes first. -/
theorem between_the_copies : ¬∀ (α : Type) (list : List (Symbol α)), Reliable list := by
  intro claim
  have together := (claim Unit importedTwice).together
  have local_first := together { object 0x200 1 with pos := 2 } (by decide) { object 0x100 0 with pos := 3 } (by decide)
    (by decide) (by decide) { object 0x200 1 with pos := 2 } (by decide) { object 0x100 2 with pos := 1 } (by decide) rfl rfl
  exact absurd local_first (by decide)

end Exact

end Tcf.SymbolsSort
