import Tcf.LineLookupText

/-! The rows for which the client is called, and when they are those that have the place, each of them once. -/
namespace Tcf.Dwarf

open Bisection CodeAreas PathMap

section Calls

variable {t : LineTable} {row : Row} {rest : List Row} {call : Row → Code (List ClientCall)} {κ : Type} {key : ClientCall → κ}
  {expected : Row → Option κ} {callable : Row → Prop}

/-- One row after another. -/
def collect (call : Row → Code (List ClientCall)) : List Row → Code (List ClientCall)
  | [] => pure []
  | row :: rest => do
    let calls ← call row
    let others ← collect call rest
    pure (calls ++ others)

theorem collect_single : collect call [row] = call row := by
  unfold collect collect
  cases call row with
  | error stop => rfl
  | ok calls => simp

/-- What is done with a row: nothing, the call that is expected, or no return when the client cannot be called. -/
def Calls (call : Row → Code (List ClientCall)) (key : ClientCall → κ) (expected : Row → Option κ) (callable : Row → Prop) (row : Row) : Prop :=
  (expected row = none ∧ call row = .ok []) ∨
  (callable row ∧ ∃ made, call row = .ok [made] ∧ expected row = some (key made)) ∨
  (expected row ≠ none ∧ ¬callable row ∧ ∃ stop, call row = .error stop)

theorem collect_cases (each : ∀ row ∈ rest, Calls call key expected callable row) :
    (∃ calls, collect call rest = .ok calls ∧ calls.map key = rest.filterMap expected ∧
      ∀ row ∈ rest, expected row ≠ none → callable row) ∨
    ((∃ stop, collect call rest = .error stop) ∧ ¬∀ row ∈ rest, expected row ≠ none → callable row) := by
  induction rest with
  | nil => exact .inl ⟨[],rfl,rfl,nofun⟩
  | cons row rest ih =>
    obtain ⟨here,each⟩ := List.forall_mem_cons.mp each
    simp only [collect,List.forall_mem_cons]
    rcases here with ⟨unwanted,run⟩ | ⟨fine,made,run,wanted⟩ | ⟨wanted,stuck,stop,run⟩
    · rcases ih each with ⟨calls,run',states,all⟩ | ⟨⟨stop,run'⟩,wrong⟩
      · refine .inl ⟨calls,by simp [run,run'],?_,fun wanted => absurd unwanted wanted,all⟩
        rw [states,List.filterMap_cons_none unwanted]
      · exact .inr ⟨⟨stop,by simp [run,run']⟩,fun both => wrong both.2⟩
    · rcases ih each with ⟨calls,run',states,all⟩ | ⟨⟨stop,run'⟩,wrong⟩
      · refine .inl ⟨made :: calls,by simp [run,run'],?_,fun _ => fine,all⟩
        rw [List.map_cons,states,List.filterMap_cons_some wanted]
      · exact .inr ⟨⟨stop,by simp [run,run']⟩,fun both => wrong both.2⟩
    · exact .inr ⟨⟨stop,by simp [run]⟩,fun both => stuck (both.1 wanted)⟩

/-- The row behind in the code is of the same section, and the file has a name. -/
def CallableWith (t : LineTable) (row codeNext : Row) : Prop :=
  row.state.sect = codeNext.state.sect ∧ (t.unit.files[row.state.file]?).bind FileInfo.name ≠ none

/-- The same for the row behind, if it is there. -/
def Callable (t : LineTable) (row : Row) : Prop := ∀ next, getNextInCode t.rows row = some next → CallableWith t row next

theorem callClient_some {codeNext : Row} {textNext : Option Row} {addr : Nat} :
    (CallableWith t row codeNext ∧ callClient t row (some codeNext) textNext addr = .ok [⟨row,codeNext,textNext,addr⟩]) ∨
    (¬CallableWith t row codeNext ∧ ∃ stop, callClient t row (some codeNext) textNext addr = .error stop) := by
  unfold callClient CallableWith
  by_cases same : row.state.sect = codeNext.state.sect
  · simp only [require_true same,Code.ok_bind]
    cases (t.unit.files[row.state.file]?).bind FileInfo.name with
    | none => exact .inr ⟨fun both => both.2 rfl,.fault,rfl⟩
    | some name => exact .inl ⟨⟨same,Option.some_ne_none name⟩,rfl⟩
  · simp only [require_false same,Code.error_bind]
    exact .inr ⟨fun both => same both.1,.assertion,rfl⟩

end Calls

section Scan

variable {t : LineTable} {file line column : Nat} {inRegion : Nat → Nat → Option Nat} {row a : Row} {rest index : List Row}

/-- A row that has a row behind in the code, and an address in the region. -/
def Wanted (t : LineTable) (inRegion : Nat → Nat → Option Nat) (row : Row) : Prop :=
  inRegion row.state.sect row.state.address ≠ none ∧ getNextInCode t.rows row ≠ none

instance : DecidablePred (Wanted t inRegion) := fun row =>
  inferInstanceAs (Decidable (inRegion row.state.sect row.state.address ≠ none ∧ getNextInCode t.rows row ≠ none))

/-- A row that is wanted, if the client can be called for it. -/
theorem callForLine_hit (indexed : Indexed t.rows) (member : row ∈ t.rows.index) (hit : Hit t.rows file line column row) :
    Calls (callForLine line column t inRegion) ClientCall.state (Option.guard (Wanted t inRegion)) (Callable t) row := by
  have start := hit.2.1.start
  have inside := (textEnd_iff indexed member start).mpr hit.2
  unfold Calls callForLine Callable
  cases region : inRegion row.state.sect row.state.address with
  | none => exact .inl ⟨by simp [Wanted,region],rfl⟩
  | some addr =>
    cases behind : getNextInCode t.rows row with
    | none => exact .inl ⟨by simp [Wanted,behind],rfl⟩
    | some codeNext =>
      have low : row.state.line ≤ line ∧ (row.state.line < line ∨ row.state.column ≤ column) := by
        unfold textBefore Row.pos at start
        simp only at start
        omega
      have wanted : Option.guard (Wanted t inRegion) row = some row := by simp [Wanted,region,behind]
      simp only [if_pos inside,require_true low.1,require_true low.2,Code.ok_bind,wanted,Option.some.injEq,forall_eq']
      rcases callClient_some with ⟨both,called⟩ | ⟨neither,stopped⟩
      · exact .inr (.inl ⟨both,_,called,rfl⟩)
      · exact .inr (.inr ⟨Option.some_ne_none row,neither,stopped⟩)

/-- Rows of one file that start at one place of the text. -/
def SamePlace (a b : Row) : Prop := b.state.file = a.state.file ∧ b.pos = a.pos

instance (a : Row) : DecidablePred (SamePlace a) := fun b => inferInstanceAs (Decidable (b.state.file = a.state.file ∧ b.pos = a.pos))

theorem Hit.same {rows : Rows} {b : Row} (hit : Hit rows file line column a) (same : SamePlace a b) : Hit rows file line column b := by
  obtain ⟨own,contains,small⟩ := hit
  obtain ⟨file_,pos⟩ := same
  refine ⟨file_.trans own,⟨?_,?_,?_⟩,?_⟩
  · rw [pos]
    exact contains.start
  · intro other inside own' behind
    rw [pos] at behind
    exact contains.next other inside (own'.trans file_) behind
  · intro last
    have line : b.state.line = a.state.line := congrArg Prod.fst pos
    rw [line]
    exact contains.last (last.same file_.symm pos.symm)
  · intro last
    have line : b.state.line = a.state.line := congrArg Prod.fst pos
    rw [line]
    exact small (last.same file_.symm pos.symm)

theorem textLe_between {b c : Row} (first : textLe a b) (second : textLe b c) (same : SamePlace a c) : SamePlace a b := by
  obtain ⟨own,pos⟩ := same
  unfold textLe at first second
  rw [pos] at second
  rcases first with less | ⟨file_,front⟩
  · rcases second with less' | ⟨file',-⟩
    · omega
    · omega
  · rcases second with less | ⟨file',front'⟩
    · omega
    · exact ⟨file_.symm,textBefore_antisymm front front'⟩

theorem scanText_single : scanText file line column t inRegion [a] = callForLine line column t inRegion a := by
  unfold scanText
  cases callForLine line column t inRegion a with
  | error stop => rfl
  | ok calls => rfl

theorem scanText_stops {b : Row} (stops : b.state.file > file ∨ b.state.line > line ∨ b.state.column > column) :
    scanText file line column t inRegion (a :: b :: rest) = callForLine line column t inRegion a := by
  unfold scanText
  cases callForLine line column t inRegion a with
  | error stop => rfl
  | ok calls => simp [stops]

theorem scanText_onward {b : Row} (onward : ¬(b.state.file > file ∨ b.state.line > line ∨ b.state.column > column)) :
    scanText file line column t inRegion (a :: b :: rest) =
      callForLine line column t inRegion a >>= fun calls =>
        scanText file line column t inRegion (b :: rest) >>= fun others => pure (calls ++ others) := by
  rw [scanText]
  simp only [if_neg onward]

theorem samePlace_iff {b c : Row} (same : SamePlace a b) : SamePlace b c ↔ SamePlace a c := by
  unfold SamePlace
  rw [same.1,same.2]

/-- In sorted rows, those of the place of the first one end with a row of another place. -/
theorem filter_place_single {b : Row} (sorted : (a :: b :: rest).Pairwise textLe) (other : ¬SamePlace a b) :
    (a :: b :: rest).filter (SamePlace a) = [a] := by
  obtain ⟨after,order⟩ := List.pairwise_cons.mp sorted
  have self : SamePlace a a := ⟨rfl,rfl⟩
  rw [List.filter_cons_of_pos (by simpa using self)]
  congr 1
  rw [List.filter_eq_nil_iff]
  intro c inside
  rw [decide_eq_true_iff]
  intro same
  rcases List.mem_cons.mp inside with rfl | inside
  · exact other same
  · exact other (textLe_between (after b (List.mem_cons_self ..)) ((List.pairwise_cons.mp order).1 c inside) same)

/-- The scan comes to the rows of one place, and to the first of them only when the column is in front of theirs. -/
theorem scanText_run (indexed : Indexed t.rows) (sorted : (a :: rest).Pairwise textLe) (members : ∀ row ∈ a :: rest, row ∈ t.rows.index)
    (hit : Hit t.rows file line column a) : scanText file line column t inRegion (a :: rest) =
      collect (callForLine line column t inRegion) (if a.state.column ≤ column then (a :: rest).filter (SamePlace a) else [a]) := by
  induction rest generalizing a with
  | nil =>
    have only : (if a.state.column ≤ column then [a].filter (SamePlace a) else [a]) = [a] := by
      have self : SamePlace a a := ⟨rfl,rfl⟩
      rw [List.filter_cons_of_pos (by simpa using self),List.filter_nil]
      exact ite_self _
    rw [only,collect_single,scanText_single]
  | cons b rest ih =>
    obtain ⟨after,order⟩ := List.pairwise_cons.mp sorted
    obtain ⟨member,members⟩ := List.forall_mem_cons.mp members
    have own := hit.1
    have start := hit.2.1.start
    by_cases stops : b.state.file > file ∨ b.state.line > line ∨ b.state.column > column
    · rw [scanText_stops stops]
      have only : (if a.state.column ≤ column then (a :: b :: rest).filter (SamePlace a) else [a]) = [a] := by
        by_cases low : a.state.column ≤ column
        · rw [if_pos low,filter_place_single sorted]
          intro same
          have line : b.state.line = a.state.line := congrArg Prod.fst same.2
          have column : b.state.column = a.state.column := congrArg Prod.snd same.2
          have := same.1
          unfold textBefore Row.pos at start
          simp only at start
          omega
        · rw [if_neg low]
      rw [only,collect_single]
    · rw [scanText_onward stops]
      have same : SamePlace a b := by
        rcases after b (List.mem_cons_self ..) with less | ⟨file_,behind⟩
        · omega
        · have start : ¬textBefore (line,column) b.pos := by
            unfold textBefore Row.pos
            simp only
            omega
          exact ⟨file_.symm,(hit.2.1.onward (indexed.mem.mp (members b (List.mem_cons_self ..))) file_.symm behind start).1⟩
      have column_ : b.state.column = a.state.column := congrArg Prod.snd same.2
      have self : SamePlace a a := ⟨rfl,rfl⟩
      have places : (b :: rest).filter (SamePlace b) = (b :: rest).filter (SamePlace a) :=
        List.filter_congr fun c _ => decide_eq_decide.mpr (samePlace_iff same)
      have first : (a :: b :: rest).filter (SamePlace a) = a :: (b :: rest).filter (SamePlace a) :=
        List.filter_cons_of_pos (by simpa using self)
      rw [ih order members (hit.same same),if_pos (by omega),if_pos (by omega),places,first]
      rfl

end Scan

section Start

variable {rows : Rows} {row a : Row}

/-- The walk back ends at the first row of its place. -/
theorem firstInText_spec (indexed : Indexed rows) {k : Nat} (there : rows.index[k]? = some row) :
    firstInText rows row k ≤ k ∧ (∃ a, rows.index[firstInText rows row k]? = some a ∧ SamePlace row a) ∧
      ∀ i a, rows.index[i]? = some a → SamePlace row a → firstInText rows row k ≤ i := by
  have main : ∀ j, j ≤ k → (∃ a, rows.index[j]? = some a ∧ SamePlace row a) →
      firstInText rows row j ≤ j ∧ (∃ a, rows.index[firstInText rows row j]? = some a ∧ SamePlace row a) ∧
        ∀ i a, rows.index[i]? = some a → SamePlace row a → firstInText rows row j ≤ i := by
    intro j less here
    induction j with
    | zero => exact ⟨Nat.le_refl _,here,fun i _ _ _ => Nat.zero_le i⟩
    | succ j ih =>
      have inside : j < rows.index.length := by
        have := (List.getElem?_eq_some_iff.mp there).1
        omega
      obtain ⟨prev,before⟩ : ∃ prev, rows.index[j]? = some prev := ⟨_,List.getElem?_eq_getElem inside⟩
      simp only [firstInText,before]
      by_cases same : prev.state.file = row.state.file ∧ prev.pos = row.pos
      · rw [if_pos same]
        obtain ⟨low,first,least⟩ := ih (by omega) ⟨prev,before,same⟩
        exact ⟨by omega,first,least⟩
      · rw [if_neg same]
        refine ⟨Nat.le_refl _,here,fun i c there' same' => ?_⟩
        by_contra front
        rcases indexed.before there' before (Nat.le_of_lt_succ (Nat.lt_of_not_le front)) with rfl | order
        · exact same same'
        · rcases indexed.before before there (by omega) with rfl | order'
          · exact same ⟨rfl,rfl⟩
          · have between := textLe_between order order' ⟨same'.1.symm,same'.2.symm⟩
            exact same ⟨between.1.trans same'.1,between.2.trans same'.2⟩
  exact main k (Nat.le_refl k) ⟨row,there,rfl,rfl⟩

end Start

section Lookup

variable {t : LineTable} {file line column : Nat} {inRegion : Nat → Nat → Option Nat} {row : Row}

/-- The first row of its place in the index, where those of one place are in the order of their sections and addresses. -/
def FirstOfPlace (rows : Rows) (row : Row) : Prop :=
  ∀ other ∈ rowsOf rows.states, SamePlace row other → rows.indexPos.getD row.place 0 ≤ rows.indexPos.getD other.place 0

theorem unitLineToAddress_miss (indexed : Indexed t.rows) (missed : ∀ row ∈ t.rows.index, ¬Hit t.rows file line column row) :
    unitLineToAddress file line column t inRegion = .ok [] := by
  unfold unitLineToAddress
  by_cases enough : t.rows.states.length ≥ 2
  · rw [if_pos enough]
    cases found : bisect (probeText t.rows file line column) t.rows.states.length 0 t.rows.states.length with
    | none => rfl
    | some k =>
      obtain ⟨-,-,here⟩ := bisect_some found
      cases there : t.rows.index[k]? with
      | none => simp only [there,Code.pure_eq]
      | some row =>
        exact absurd ((probeText_hit indexed there).mp here) (missed row (List.mem_of_getElem? there))
  · rw [if_neg enough]
    rfl

theorem unitLineToAddress_hit (indexed : Indexed t.rows) (enough : t.rows.states.length ≥ 2) (member : row ∈ t.rows.index)
    (hit : Hit t.rows file line column row) : ∃ a group, a ∈ group ∧ Hit t.rows file line column a ∧ FirstOfPlace t.rows a ∧
      (∀ other, other ∈ group ↔ other ∈ t.rows.index ∧ SamePlace a other) ∧ group.Nodup ∧
      unitLineToAddress file line column t inRegion = collect (callForLine line column t inRegion) (if a.state.column ≤ column then group else [a]) := by
  have size : t.rows.index.length = t.rows.states.length := by
    rw [indexed.perm.length_eq,rowsOf,List.length_map,List.length_zipIdx]
  unfold unitLineToAddress
  rw [if_pos enough]
  cases found : bisect (probeText t.rows file line column) t.rows.states.length 0 t.rows.states.length with
  | none =>
    obtain ⟨k,there⟩ := List.mem_iff_getElem?.mp member
    have inside := (List.getElem?_eq_some_iff.mp there).1
    exact absurd ((probeText_hit indexed there).mpr hit)
      (bisect_none (probeText_sorted indexed) (Nat.le_of_eq (Nat.zero_add _).symm) found (Nat.zero_le k) (by omega))
  | some k =>
    obtain ⟨-,inside,here⟩ := bisect_some found
    obtain ⟨b,there⟩ : ∃ b, t.rows.index[k]? = some b := ⟨_,List.getElem?_eq_getElem (by omega)⟩
    have hitB := (probeText_hit indexed there).mp here
    obtain ⟨low,⟨a,start,same⟩,least⟩ := firstInText_spec indexed there
    simp only [there,require_true hitB.1,Code.ok_bind]
    generalize firstInText t.rows b k = f at low start least ⊢
    obtain ⟨inside',rfl⟩ := List.getElem?_eq_some_iff.mp start
    have split := List.drop_eq_getElem_cons inside'
    have parts : t.rows.index.take f ++ t.rows.index.drop f = t.rows.index := List.take_append_drop f _
    generalize t.rows.index[f] = a at start same split
    have sorted : (t.rows.index.drop f).Pairwise textLe := indexed.sorted.sublist (List.drop_sublist f _)
    have nodup : (t.rows.index.drop f).Nodup :=
      (indexed.perm.nodup_iff.mpr (rowsOf_nodup _)).sublist (List.drop_sublist f _)
    have members : ∀ row ∈ t.rows.index.drop f, row ∈ t.rows.index := fun row => List.mem_of_mem_drop
    have hitA := hitB.same same
    have places : ∀ c, SamePlace b c ↔ SamePlace a c := fun c => (samePlace_iff same).symm
    refine ⟨a,(t.rows.index.drop f).filter (SamePlace a),?_,hitA,?_,?_,nodup.filter _,?_⟩
    · rw [split]
      simp [SamePlace]
    · intro other inside same'
      obtain ⟨i,there'⟩ := List.mem_iff_getElem?.mp (indexed.mem.mpr inside)
      rw [indexed.pos f a start,indexed.pos i other there']
      exact least i other there' ((places other).mpr same')
    · intro other
      rw [List.mem_filter,decide_eq_true_iff]
      refine and_congr_left fun same' => ⟨members other,fun inside => ?_⟩
      obtain ⟨i,there'⟩ := List.mem_iff_getElem?.mp inside
      have behind := least i other there' ((places other).mpr same')
      rw [List.mem_iff_getElem?]
      refine ⟨i - f,?_⟩
      rw [List.getElem?_drop,Nat.add_sub_cancel' behind]
      exact there'
    · rw [split] at sorted members ⊢
      exact scanText_run indexed sorted members hitA

/-- A row of the file that has the place, an address in the region and a row behind in the code. -/
structure Due (t : LineTable) (file line column : Nat) (inRegion : Nat → Nat → Option Nat) (row : Row) : Prop where
  member : row ∈ rowsOf t.rows.states
  file : row.state.file = file
  contains : Contains t.rows row (line,column)
  wanted : Wanted t inRegion row

/-- The client is called once for each row that is due, and for no other. -/
def LineExact (t : LineTable) (file line column : Nat) (inRegion : Nat → Nat → Option Nat) : Prop :=
  ∃ calls, unitLineToAddress file line column t inRegion = .ok calls ∧ (calls.map ClientCall.state).Nodup ∧
    ∀ row, row ∈ calls.map ClientCall.state ↔ Due t file line column inRegion row

/-- A row behind the column is the first of its place, one of the last place is not in the last line that there is. -/
def Answerable (t : LineTable) (file line column : Nat) (inRegion : Nat → Nat → Option Nat) : Prop :=
  ∀ row, Due t file line column inRegion row → Callable t row ∧ (Last t.rows row → row.state.line + 1 < 2 ^ 32) ∧
    (row.state.column ≤ column ∨ FirstOfPlace t.rows row)

theorem Due.hit (due : Due t file line column inRegion row) (small : Last t.rows row → row.state.line + 1 < 2 ^ 32) :
    Hit t.rows file line column row := ⟨due.file,due.contains,small⟩

/-- A row that is due is not alone. -/
theorem Due.enough (due : Due t file line column inRegion row) : t.rows.states.length ≥ 2 := by
  by_contra few
  have inside := (List.getElem?_eq_some_iff.mp (mem_rowsOf.mp due.member)).1
  have none_ : t.rows.states.drop (row.place + 1) = [] := List.drop_eq_nil_of_le (by omega)
  apply due.wanted.2
  unfold getNextInCode
  rw [none_]
  exact ite_self _

theorem Contains.samePlace {rows : Rows} {a b : Row} {place : Nat × Nat} (first : Contains rows a place) (second : Contains rows b place)
    (memberA : a ∈ rowsOf rows.states) (memberB : b ∈ rowsOf rows.states) (own : b.state.file = a.state.file) : SamePlace a b :=
  ⟨own,textBefore_antisymm (fun less => first.start (second.next a memberA own.symm less)) fun less =>
    second.start (first.next b memberB own less)⟩

theorem FirstOfPlace.unique {rows : Rows} {a b : Row} (indexed : Indexed rows) (first : FirstOfPlace rows a) (second : FirstOfPlace rows b)
    (memberA : a ∈ rowsOf rows.states) (memberB : b ∈ rowsOf rows.states) (same : SamePlace a b) : b = a := by
  have less := first b memberB same
  have less' := second a memberA ⟨same.1.symm,same.2.symm⟩
  obtain ⟨i,there⟩ := List.mem_iff_getElem?.mp (indexed.mem.mpr memberA)
  obtain ⟨j,there'⟩ := List.mem_iff_getElem?.mp (indexed.mem.mpr memberB)
  rw [indexed.pos i a there,indexed.pos j b there'] at less less'
  obtain rfl := Nat.le_antisymm less less'
  rw [there] at there'
  exact (Option.some.inj there').symm

theorem unitLineToAddress_exact (indexed : Indexed t.rows) : LineExact t file line column inRegion ↔ Answerable t file line column inRegion := by
  by_cases some_ : t.rows.states.length ≥ 2 ∧ ∃ row ∈ t.rows.index, Hit t.rows file line column row
  · obtain ⟨enough,row,member,hit⟩ := some_
    obtain ⟨a,group,own,hitA,first,members,nodup,run⟩ := @unitLineToAddress_hit t file line column inRegion row indexed enough member hit
    have memberA := indexed.mem.mp ((members a).mp own).1
    have due : ∀ other, Due t file line column inRegion other ↔ other ∈ group ∧ Wanted t inRegion other := by
      intro other
      constructor
      · intro due
        have same := hitA.2.1.samePlace due.contains memberA due.member (due.file.trans hitA.1.symm)
        exact ⟨(members other).mpr ⟨indexed.mem.mpr due.member,same⟩,due.wanted⟩
      · rintro ⟨inside,wanted⟩
        obtain ⟨inside,same⟩ := (members other).mp inside
        have hit := hitA.same same
        exact ⟨indexed.mem.mp inside,hit.1,hit.2.1,wanted⟩
    have inGroup : ∀ other, other ∈ (if a.state.column ≤ column then group else [a]) → other ∈ group := by
      intro other inside
      by_cases low : a.state.column ≤ column
      · rwa [if_pos low] at inside
      · rw [if_neg low] at inside
        obtain rfl := List.mem_singleton.mp inside
        exact own
    have hits : ∀ other ∈ group, other ∈ t.rows.index ∧ Hit t.rows file line column other := fun other inside =>
      ⟨((members other).mp inside).1,hitA.same ((members other).mp inside).2⟩
    unfold LineExact
    rw [run]
    have each : ∀ other ∈ (if a.state.column ≤ column then group else [a]),
        Calls (callForLine line column t inRegion) ClientCall.state (Option.guard (Wanted t inRegion)) (Callable t) other :=
      fun other inside => callForLine_hit indexed (hits other (inGroup other inside)).1 (hits other (inGroup other inside)).2
    rcases collect_cases each with ⟨calls,run',states,fine⟩ | ⟨⟨stop,run'⟩,wrong⟩
    · constructor
      · rintro ⟨calls',ran,-,all⟩ other dueOther
        rw [run'] at ran
        cases ran
        rw [states,List.filterMap_eq_filter] at all
        have called := List.mem_filter.mp ((all other).mpr dueOther)
        have inside := ((due other).mp dueOther).1
        refine ⟨fine other called.1 (by simp [dueOther.wanted]),(hits other inside).2.2.2,?_⟩
        by_cases low : a.state.column ≤ column
        · left
          have column_ : other.state.column = a.state.column := congrArg Prod.snd ((members other).mp inside).2.2
          omega
        · right
          rw [if_neg low] at called
          obtain rfl := List.mem_singleton.mp called.1
          exact first
      · intro answerable
        refine ⟨calls,run',?_,fun other => ?_⟩
        · rw [states,List.filterMap_eq_filter]
          refine List.Nodup.filter _ ?_
          by_cases low : a.state.column ≤ column
          · rwa [if_pos low]
          · rw [if_neg low]
            exact List.nodup_singleton a
        · rw [states,List.filterMap_eq_filter,List.mem_filter,decide_eq_true_iff]
          constructor
          · rintro ⟨inside,wanted⟩
            exact (due other).mpr ⟨inGroup other inside,wanted⟩
          · intro dueOther
            obtain ⟨inside,wanted⟩ := (due other).mp dueOther
            refine ⟨?_,wanted⟩
            have same := ((members other).mp inside).2
            by_cases low : a.state.column ≤ column
            · rwa [if_pos low]
            · have column_ : other.state.column = a.state.column := congrArg Prod.snd same.2
              have second : FirstOfPlace t.rows other := (answerable other dueOther).2.2.resolve_left (by omega)
              rw [if_neg low,first.unique indexed second memberA dueOther.member same]
              exact List.mem_singleton_self a
    · constructor
      · rintro ⟨calls,ran,-⟩
        rw [run'] at ran
        cases ran
      · intro answerable
        refine absurd (fun other inside wanted => ?_) wrong
        exact (answerable other ((due other).mpr ⟨inGroup other inside,by simpa using wanted⟩)).1
  · have missed : Answerable t file line column inRegion → ∀ other, ¬Due t file line column inRegion other := by
      intro answerable other due
      exact some_ ⟨due.enough,other,indexed.mem.mpr due.member,due.hit (answerable other due).2.1⟩
    have run : unitLineToAddress file line column t inRegion = .ok [] := by
      by_cases enough : t.rows.states.length ≥ 2
      · exact unitLineToAddress_miss indexed fun row member hit => some_ ⟨enough,row,member,hit⟩
      · unfold unitLineToAddress
        rw [if_neg enough]
        rfl
    unfold LineExact
    rw [run]
    constructor
    · rintro ⟨calls,ran,-,all⟩ other due
      cases ran
      exact absurd ((all other).mpr due) List.not_mem_nil
    · intro answerable
      exact ⟨[],rfl,List.nodup_nil,fun other => iff_of_false List.not_mem_nil (missed answerable other)⟩

/-- For the rows of every unit, in every region, a lookup is exact if and only if the rows that are due can be answered for. -/
theorem line_lookup_exact (unit : CompUnit) (states : List LineNumbersState) (toRunTime : Nat → Nat → Nat) (file line column : Nat)
    (inRegion : Nat → Nat → Option Nat) :
    LineExact ⟨unit,computeStatesIndex states,toRunTime⟩ file line column inRegion ↔
      Answerable ⟨unit,computeStatesIndex states,toRunTime⟩ file line column inRegion :=
  unitLineToAddress_exact (computeStatesIndex_indexed states)

/-- Column 20 of line 5 is at two addresses. -/
def twoAddresses : List LineNumbersState :=
  [⟨0x10,1,0,5,20,LINE_IsStmt,0,0,0,false⟩,⟨0x18,1,0,5,20,LINE_IsStmt,0,0,1,false⟩,⟨0x20,1,0,8,0,LINE_EndSequence,0,0,0,false⟩]

def twoAddressesTable : LineTable :=
  ⟨⟨0,none,[],[⟨some [97],none,0,0,0⟩],[]⟩,⟨twoAddresses,rowsOf twoAddresses,[0,1,2]⟩,fun _ address => address⟩

theorem twoAddresses_index : computeStatesIndex twoAddresses = twoAddressesTable.rows := by
  have ordered : twoAddresses.mergeSort (fun s1 s2 => (stateAddressComparator s1 s2).isLE) = twoAddresses :=
    List.mergeSort_of_pairwise (by decide)
  have kept : dropRepeats twoAddresses = twoAddresses := by simp [twoAddresses,dropRepeats,sameRow]
  have ordered' : (rowsOf twoAddresses).mergeSort (fun r1 r2 => (stateTextPosComparator r1.state r2.state).isLE) = rowsOf twoAddresses :=
    List.mergeSort_of_pairwise (by decide)
  unfold computeStatesIndex
  simp only [ordered,kept,ordered']
  rfl

/-- Of line 6, column 3, the second address is missed. -/
theorem second_address_missed : ¬LineExact ⟨twoAddressesTable.unit,computeStatesIndex twoAddresses,fun _ address => address⟩ 0 6 3
    fun _ address => some address := by
  rw [twoAddresses_index]
  rintro ⟨calls,run,-,all⟩
  have due : Due twoAddressesTable 0 6 3 (fun _ address => some address) ⟨1,⟨0x18,1,0,5,20,LINE_IsStmt,0,0,1,false⟩⟩ :=
    { member := by decide
      file := rfl
      contains :=
        { start := by decide
          next := by decide
          last := fun last => absurd (last ⟨2,⟨0x20,1,0,8,0,LINE_EndSequence,0,0,0,false⟩⟩ (by decide) rfl) (by decide) }
      wanted := ⟨nofun,by decide⟩ }
  have called := (all _).mpr due
  cases run
  revert called
  decide

end Lookup

end Tcf.Dwarf
