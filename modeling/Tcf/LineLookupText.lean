import Mathlib.Data.List.Nodup
import Tcf.Base.Sorting
import Tcf.LineLookup

/-! Which rows a line leads to: the binary search, the walk back to the first row of a place, and the scan from there. -/
namespace Tcf.Dwarf

open Bisection Sorting

section Order

theorem textPos_sorts : Sorts fun r1 r2 : Row => stateTextPosComparator r1.state r2.state :=
  ((((sorts_compare fun r : Row => r.state.address).after fun r => r.state.sect).after fun r => r.state.column).after
    fun r => r.state.line).after fun r => r.state.file

theorem textPos_isLE {a b : LineNumbersState} (less : (stateTextPosComparator a b).isLE) :
    a.file < b.file ∨ (a.file = b.file ∧ ¬textBefore (b.line,b.column) (a.line,a.column)) := by
  unfold stateTextPosComparator at less
  unfold textBefore
  rcases then_isLE.mp less with file | ⟨file,less⟩
  · exact .inl file
  rcases then_isLE.mp less with line | ⟨line,less⟩
  · exact .inr ⟨file,by omega⟩
  rcases then_isLE.mp less with column | ⟨column,-⟩
  · exact .inr ⟨file,by omega⟩
  · exact .inr ⟨file,by omega⟩

/-- Of two rows of the index, the first one. -/
def textLe (a b : Row) : Prop := a.state.file < b.state.file ∨ (a.state.file = b.state.file ∧ ¬textBefore b.pos a.pos)

/-- The index has every row once, in the order of the text, and the rows know where they are in it. -/
structure Indexed (rows : Rows) : Prop where
  perm : rows.index.Perm (rowsOf rows.states)
  sorted : rows.index.Pairwise textLe
  pos : ∀ k row, rows.index[k]? = some row → rows.indexPos.getD row.place 0 = k

theorem rowsOf_get {states : List LineNumbersState} {k : Nat} {row : Row} :
    (rowsOf states)[k]? = some row ↔ row.place = k ∧ states[k]? = some row.state := by
  unfold rowsOf
  rw [List.getElem?_map,List.getElem?_zipIdx]
  cases states[k]? with
  | none => simp
  | some state =>
    simp only [Option.map_some,Nat.zero_add,Option.some.injEq]
    constructor
    · rintro rfl
      exact ⟨rfl,rfl⟩
    · rintro ⟨rfl,rfl⟩
      rfl

theorem mem_rowsOf {states : List LineNumbersState} {row : Row} : row ∈ rowsOf states ↔ states[row.place]? = some row.state := by
  rw [List.mem_iff_getElem?]
  constructor
  · rintro ⟨k,there⟩
    obtain ⟨rfl,state⟩ := rowsOf_get.mp there
    exact state
  · exact fun state => ⟨row.place,rowsOf_get.mpr ⟨rfl,state⟩⟩

theorem rowsOf_nodup (states : List LineNumbersState) : (rowsOf states).Nodup := by
  have places : (rowsOf states).map Row.place = List.range' 0 states.length := by
    rw [rowsOf,List.map_map,← List.zipIdx_map_snd]
    rfl
  refine List.Nodup.of_map Row.place ?_
  rw [places]
  exact List.nodup_range'

theorem computeStatesIndex_indexed (states : List LineNumbersState) : Indexed (computeStatesIndex states) := by
  unfold computeStatesIndex
  generalize dropRepeats (states.mergeSort fun s1 s2 => (stateAddressComparator s1 s2).isLE) = states
  have perm := List.mergeSort_perm (rowsOf states) fun r1 r2 => (stateTextPosComparator r1.state r2.state).isLE
  have nodup := perm.nodup_iff.mpr (rowsOf_nodup states)
  refine ⟨perm,(textPos_sorts.sorted _).imp fun less => textPos_isLE less,fun k row there => ?_⟩
  have member := perm.mem_iff.mp (List.mem_of_getElem? there)
  have own := rowsOf_get.mpr ⟨rfl,mem_rowsOf.mp member⟩
  obtain ⟨inside,rfl⟩ := List.getElem?_eq_some_iff.mp there
  rw [List.getD_eq_getElem?_getD,List.getElem?_map,own]
  exact nodup.idxOf_getElem k inside

end Order

section Next

variable {rows : Rows} {row next other : Row}

theorem Indexed.before (indexed : Indexed rows) {i j : Nat} {a b : Row} (first : rows.index[i]? = some a) (second : rows.index[j]? = some b)
    (less : i ≤ j) : a = b ∨ textLe a b := by
  obtain ⟨inside,rfl⟩ := List.getElem?_eq_some_iff.mp first
  obtain ⟨inside',rfl⟩ := List.getElem?_eq_some_iff.mp second
  rcases Nat.eq_or_lt_of_le less with rfl | less
  · exact .inl rfl
  · exact .inr (List.pairwise_iff_getElem.mp indexed.sorted i j inside inside' less)

theorem textBefore_irrefl (a : Nat × Nat) : ¬textBefore a a := by
  unfold textBefore
  omega

theorem textBefore_trans {a b c : Nat × Nat} (first : textBefore a b) (second : ¬textBefore c b) : textBefore a c := by
  unfold textBefore at *
  omega

theorem textBefore_antisymm {a b : Nat × Nat} (first : ¬textBefore a b) (second : ¬textBefore b a) : a = b := by
  unfold textBefore at *
  ext <;> omega

/-- The rows of the index around one of them. -/
theorem index_split {k : Nat} (there : rows.index[k]? = some row) :
    rows.index = rows.index.take k ++ row :: rows.index.drop (k + 1) := by
  obtain ⟨inside,rfl⟩ := List.getElem?_eq_some_iff.mp there
  rw [← List.drop_eq_getElem_cons inside,List.take_append_drop]

/-- The next row of a file is that of the least place behind. -/
structure IsNext (rows : Rows) (row next : Row) : Prop where
  member : next ∈ rows.index
  file : next.state.file = row.state.file
  behind : textBefore row.pos next.pos
  least : ∀ other ∈ rows.index, other.state.file = row.state.file → textBefore row.pos other.pos → ¬textBefore other.pos next.pos

theorem getNextInText_cases (indexed : Indexed rows) (member : row ∈ rows.index) :
    (∃ next, getNextInText rows row = some next ∧ IsNext rows row next) ∨
    (getNextInText rows row = none ∧ ∀ other ∈ rows.index, other.state.file = row.state.file → ¬textBefore row.pos other.pos) := by
  obtain ⟨k,there⟩ := List.mem_iff_getElem?.mp member
  have split := index_split there
  have sorted := indexed.sorted
  rw [split,List.pairwise_append,List.pairwise_cons] at sorted
  obtain ⟨-,⟨after,order⟩,before⟩ := sorted
  -- Rows up to this one are not behind it.
  have early : ∀ other ∈ rows.index.take k ++ [row], other.state.file = row.state.file → ¬textBefore row.pos other.pos := by
    intro other inside file
    rcases List.mem_append.mp inside with inside | inside
    · rcases before other inside row (List.mem_cons_self ..) with less | ⟨-,near⟩
      · omega
      · exact near
    · obtain rfl := List.mem_singleton.mp inside
      exact textBefore_irrefl _
  have same {other : Row} (equal : other.state.line = row.state.line ∧ other.state.column = row.state.column) : other.pos = row.pos := by
    rw [Row.pos,Row.pos,equal.1,equal.2]
  unfold getNextInText
  rw [indexed.pos k row there]
  generalize rows.index.drop (k + 1) = behind at split after order
  have all : ∀ other, other ∈ rows.index ↔ other ∈ rows.index.take k ++ [row] ∨ other ∈ behind := by
    intro other
    constructor
    · intro inside
      rw [split] at inside
      simpa [or_assoc] using inside
    · intro inside
      rw [split]
      simpa [or_assoc] using inside
  generalize rows.index.take k ++ [row] = front at early all
  cases found : behind.find? fun next => ¬(next.state.line = row.state.line ∧ next.state.column = row.state.column) with
  | none =>
    refine .inr ⟨rfl,fun other inside file => ?_⟩
    rcases (all other).mp inside with inside | inside
    · exact early other inside file
    · have equal : other.pos = row.pos := same (by simpa using List.find?_eq_none.mp found other inside)
      rw [equal]
      exact textBefore_irrefl _
  | some next =>
    obtain ⟨differs,near,far,parts,skipped⟩ := List.find?_eq_some_iff_append.mp found
    have member : next ∈ behind := List.mem_of_find?_eq_some found
    have apart : next.pos ≠ row.pos := by
      intro equal
      have := Prod.ext_iff.mp equal
      simp only [Row.pos] at this
      simp [this] at differs
    have later : ∀ other ∈ behind, textBefore row.pos other.pos → other = next ∨ textLe next other := by
      intro other inside less
      rw [parts] at inside order
      rcases List.mem_append.mp inside with inside | inside
      · have equal : other.pos = row.pos := same (by simpa using skipped other inside)
        rw [equal] at less
        exact absurd less (textBefore_irrefl _)
      · rcases List.mem_cons.mp inside with rfl | inside
        · exact .inl rfl
        · exact .inr ((List.pairwise_cons.mp (List.pairwise_append.mp order).2.1).1 other inside)
    by_cases file : row.state.file = next.state.file
    · refine .inl ⟨next,if_neg (not_not.mpr file),(all next).mpr (.inr member),file.symm,?_,fun other inside own less => ?_⟩
      · by_contra near
        rcases after next member with less | ⟨-,far⟩
        · omega
        · exact apart (textBefore_antisymm far near)
      · rcases (all other).mp inside with inside | inside
        · exact absurd less (early other inside own)
        · rcases later other inside less with rfl | differs | ⟨-,far⟩
          · exact textBefore_irrefl _
          · omega
          · exact far
    · refine .inr ⟨if_pos file,fun other inside own less => ?_⟩
      rcases (all other).mp inside with inside | inside
      · exact early other inside own less
      · have order := after next member
        unfold textLe at order
        rcases later other inside less with rfl | differs | ⟨equal,-⟩
        · exact file own.symm
        · omega
        · exact file (own.symm.trans equal.symm)

end Next

section Containing

/-- No place in the file of the row is behind it. -/
def Last (rows : Rows) (row : Row) : Prop :=
  ∀ other ∈ rowsOf rows.states, other.state.file = row.state.file → ¬textBefore row.pos other.pos

/-- The text of a row goes on to the next place in its file, or to the end of its line. -/
structure Contains (rows : Rows) (row : Row) (place : Nat × Nat) : Prop where
  start : ¬textBefore place row.pos
  next : ∀ other ∈ rowsOf rows.states, other.state.file = row.state.file → textBefore row.pos other.pos → textBefore place other.pos
  last : Last rows row → place.1 ≤ row.state.line

variable {rows : Rows} {row other : Row} {file line column : Nat}

theorem Indexed.mem (indexed : Indexed rows) : row ∈ rows.index ↔ row ∈ rowsOf rows.states := indexed.perm.mem_iff

theorem line_end {line column last : Nat} (start : ¬textBefore (line,column) (last,0) ∨ last ≤ line) :
    textBefore (line,column) ((last + 1) % 2 ^ 32,0) ↔ line ≤ last ∧ last + 1 < 2 ^ 32 := by
  unfold textBefore at *
  simp only at *
  omega

/-- The end that the code computes is that of the text, unless the number of the line behind wraps around. -/
theorem textEnd_iff (indexed : Indexed rows) (member : row ∈ rows.index) (start : ¬textBefore (line,column) row.pos) :
    textBefore (line,column) (textEnd row (getNextInText rows row)) ↔
      Contains rows row (line,column) ∧ (Last rows row → row.state.line + 1 < 2 ^ 32) := by
  rcases getNextInText_cases indexed member with ⟨next,run,isNext⟩ | ⟨run,none_⟩
  · rw [run]
    have later : ¬Last rows row := fun last => last next (indexed.mem.mp isNext.member) isNext.file isNext.behind
    constructor
    · intro less
      refine ⟨⟨start,fun other inside own behind => ?_,fun last => absurd last later⟩,fun last => absurd last later⟩
      exact textBefore_trans less (isNext.least other (indexed.mem.mpr inside) own behind)
    · rintro ⟨contains,-⟩
      exact contains.next next (indexed.mem.mp isNext.member) isNext.file isNext.behind
  · rw [run]
    have last : Last rows row := fun other inside => none_ other (indexed.mem.mpr inside)
    have low : row.state.line ≤ line := by
      unfold textBefore Row.pos at start
      simp only at start
      omega
    refine (line_end (.inr low)).trans ?_
    constructor
    · rintro ⟨near,small⟩
      exact ⟨⟨start,fun other inside own behind => absurd behind (last other inside own),fun _ => near⟩,fun _ => small⟩
    · rintro ⟨contains,small⟩
      exact ⟨contains.last last,small last⟩

/-- A row that the binary search stops at. -/
def Hit (rows : Rows) (file line column : Nat) (row : Row) : Prop :=
  row.state.file = file ∧ Contains rows row (line,column) ∧ (Last rows row → row.state.line + 1 < 2 ^ 32)

theorem probeText_at {k : Nat} (there : rows.index[k]? = some row) : probeText rows file line column k =
    if row.state.file < file then .lt
    else if row.state.file > file ∨ textBefore (line,column) row.pos then .gt
    else if textBefore (line,column) (textEnd row (getNextInText rows row)) then .eq
    else .lt := by
  unfold probeText
  rw [there]

theorem probeText_hit (indexed : Indexed rows) {k : Nat} (there : rows.index[k]? = some row) :
    probeText rows file line column k = .eq ↔ Hit rows file line column row := by
  rw [probeText_at there]
  have member := List.mem_of_getElem? there
  by_cases less : row.state.file < file
  · rw [if_pos less]
    exact iff_of_false nofun fun hit => Nat.ne_of_lt less hit.1
  rw [if_neg less]
  by_cases more : row.state.file > file ∨ textBefore (line,column) row.pos
  · rw [if_pos more]
    exact iff_of_false nofun fun hit => more.elim (fun above => Nat.ne_of_gt above hit.1) hit.2.1.start
  rw [if_neg more]
  obtain ⟨above,start⟩ := not_or.mp more
  have own : row.state.file = file := by omega
  have ends := textEnd_iff indexed member start
  by_cases inside : textBefore (line,column) (textEnd row (getNextInText rows row))
  · rw [if_pos inside]
    exact iff_of_true rfl ⟨own,ends.mp inside⟩
  · rw [if_neg inside]
    exact iff_of_false nofun fun hit => inside (ends.mpr hit.2)

/-- The same text, from a row that is not in front. -/
theorem Contains.onward {place : Nat × Nat} (contains : Contains rows row place) (member : other ∈ rowsOf rows.states)
    (own : other.state.file = row.state.file) (behind : ¬textBefore other.pos row.pos) (start : ¬textBefore place other.pos) :
    other.pos = row.pos ∧ Contains rows other place := by
  have same : other.pos = row.pos := textBefore_antisymm behind fun less => start (contains.next other member own less)
  have line : other.state.line = row.state.line := congrArg Prod.fst same
  refine ⟨same,start,fun third inside own' less => ?_,fun last => ?_⟩
  · rw [same] at less
    exact contains.next third inside (own'.trans own) less
  · rw [line]
    refine contains.last fun third inside own' => ?_
    rw [← same]
    exact last third inside (own'.trans own.symm)

theorem Last.same (last : Last rows row) (own : other.state.file = row.state.file) (same : other.pos = row.pos) : Last rows other := by
  intro third inside own'
  rw [same]
  exact last third inside (own'.trans own)

theorem probeText_sorted (indexed : Indexed rows) : Sorted (probeText rows file line column) := by
  intro i j less
  cases there : rows.index[i]? with
  | none =>
    have none_ : rows.index[j]? = none := by
      rw [List.getElem?_eq_none_iff] at there ⊢
      omega
    unfold probeText
    simp [there,none_]
  | some a =>
    cases there' : rows.index[j]? with
    | none =>
      unfold probeText
      simp [there']
    | some b =>
      rcases indexed.before there there' less with rfl | order
      · rw [probeText_at there,probeText_at there']
        exact ⟨id,id⟩
      have memberA := List.mem_of_getElem? there
      have memberB := List.mem_of_getElem? there'
      unfold textLe at order
      rw [probeText_at there,probeText_at there']
      constructor
      · intro lower
        by_cases front : a.state.file < file
        · rw [if_pos front]
        by_cases front' : b.state.file < file
        · rcases order with less | ⟨own,-⟩
          · omega
          · omega
        rw [if_neg front'] at lower
        by_cases beyond : b.state.file > file ∨ textBefore (line,column) b.pos
        · rw [if_pos beyond] at lower
          cases lower
        rw [if_neg beyond] at lower
        obtain ⟨above,start⟩ := not_or.mp beyond
        obtain ⟨own,behind⟩ : a.state.file = b.state.file ∧ ¬textBefore b.pos a.pos := order.resolve_left (by omega)
        have start' : ¬textBefore (line,column) a.pos := fun first => start (textBefore_trans first behind)
        have below : ¬(a.state.file > file ∨ textBefore (line,column) a.pos) := fun beyond => beyond.elim (fun _ => by omega) start'
        rw [if_neg front,if_neg below,if_neg]
        intro inside
        obtain ⟨contains,small⟩ := (textEnd_iff indexed memberA start').mp inside
        obtain ⟨same,contains'⟩ := contains.onward (indexed.mem.mp memberB) own.symm behind start
        rw [if_pos] at lower
        · cases lower
        · refine (textEnd_iff indexed memberB start).mpr ⟨contains',fun last => ?_⟩
          have line : b.state.line = a.state.line := congrArg Prod.fst same
          rw [line]
          exact small (last.same own same.symm)
      · intro upper
        by_cases front : a.state.file < file
        · rw [if_pos front] at upper
          cases upper
        rw [if_neg front] at upper
        by_cases beyond : a.state.file > file ∨ textBefore (line,column) a.pos
        · have front' : ¬b.state.file < file := by
            rcases order with above | ⟨own,-⟩
            · omega
            · omega
          rw [if_neg front',if_pos]
          rcases beyond with above | first
          · left
            rcases order with more | ⟨own,-⟩
            · omega
            · omega
          · rcases order with above | ⟨own,behind⟩
            · left
              omega
            · exact .inr (textBefore_trans first behind)
        · rw [if_neg beyond] at upper
          split at upper <;> cases upper

end Containing

end Tcf.Dwarf
