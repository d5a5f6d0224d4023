import Mathlib.Data.Nat.Bitwise
import Tcf.LineLookupExact

/-! Which rows an address range leads to: the binary search among the addresses, the walk back, and the scan from there. -/
namespace Tcf.Dwarf

open Bisection Sorting

section Order

/-- The order of addresses has the ends of sequences in front of the other rows. -/
def endKey (state : LineNumbersState) : Nat := if state.flags &&& LINE_EndSequence ≠ 0 then 0 else 1

theorem endSequence_iff (flags : UInt8) : flags &&& LINE_EndSequence ≠ 0 ↔ flags.toNat.testBit 4 = true := by
  have value : (flags &&& LINE_EndSequence).toNat = (flags.toNat.testBit 4).toNat * 2 ^ 4 := by
    rw [UInt8.toNat_and]
    exact Nat.and_two_pow flags.toNat 4
  rw [Ne,← UInt8.toNat_inj,value]
  cases flags.toNat.testBit 4 with
  | false => simp
  | true => simp

theorem endSequence_differs (a b : LineNumbersState) (o : Ordering) :
    (if (a.flags ^^^ b.flags) &&& LINE_EndSequence ≠ 0 then if a.flags &&& LINE_EndSequence ≠ 0 then .lt else .gt else o) =
      (compare (endKey a) (endKey b)).then o := by
  unfold endKey
  simp only [endSequence_iff,UInt8.toNat_xor,Nat.testBit_xor]
  cases a.flags.toNat.testBit 4 with
  | false =>
    cases b.flags.toNat.testBit 4 with
    | false => rfl
    | true => rfl
  | true =>
    cases b.flags.toNat.testBit 4 with
    | false => rfl
    | true => rfl

theorem stateAddress_sorts : Sorts stateAddressComparator := by
  have same : stateAddressComparator = fun s1 s2 => (compare s1.sect s2.sect).then <| (compare s1.address s2.address).then <|
      (compare (endKey s1) (endKey s2)).then <| (compare s1.file s2.file).then <| (compare s1.line s2.line).then <|
        compare s1.column s2.column := by
    funext s1 s2
    rw [stateAddressComparator,endSequence_differs]
  rw [same]
  exact (((((sorts_compare LineNumbersState.column).after LineNumbersState.line).after LineNumbersState.file).after
    endKey).after LineNumbersState.address).after LineNumbersState.sect

/-- Rows in the order of their sections and addresses. -/
def codeLe (a b : LineNumbersState) : Prop := a.sect < b.sect ∨ (a.sect = b.sect ∧ a.address ≤ b.address)

theorem stateAddress_isLE {a b : LineNumbersState} (less : (stateAddressComparator a b).isLE) : codeLe a b := by
  unfold stateAddressComparator at less
  rcases then_isLE.mp less with sect | ⟨sect,less⟩
  · exact .inl sect
  rcases then_isLE.mp less with address | ⟨address,-⟩
  · exact .inr ⟨sect,Nat.le_of_lt address⟩
  · exact .inr ⟨sect,Nat.le_of_eq address⟩

theorem dropRepeats_sublist (states : List LineNumbersState) : (dropRepeats states).Sublist states := by
  induction states using dropRepeats.induct with
  | case1 => simp [dropRepeats]
  | case2 s1 => simp [dropRepeats]
  | case3 s1 s2 rest same ih =>
    rw [dropRepeats,if_pos same]
    exact ih.trans ((List.sublist_cons_self s2 rest).cons_cons s1)
  | case4 s1 s2 rest differs ih =>
    rw [dropRepeats,if_neg differs]
    exact ih.cons_cons s1

/-- The first one of the rows that are left is the first one. -/
theorem dropRepeats_cons (s1 : LineNumbersState) (rest : List LineNumbersState) : ∃ rest', dropRepeats (s1 :: rest) = s1 :: rest' := by
  induction rest with
  | nil => exact ⟨[],by simp [dropRepeats]⟩
  | cons s2 rest ih =>
    rw [dropRepeats]
    by_cases same : sameRow s1 s2
    · rw [if_pos same]
      exact ih
    · rw [if_neg same]
      exact ⟨_,rfl⟩

theorem dropRepeats_distinct (states : List LineNumbersState) : (dropRepeats states).IsChain fun a b => ¬sameRow a b := by
  induction states using dropRepeats.induct with
  | case1 => simp [dropRepeats]
  | case2 s1 => simp [dropRepeats]
  | case3 s1 s2 rest same ih =>
    rw [dropRepeats,if_pos same]
    exact ih
  | case4 s1 s2 rest differs ih =>
    rw [dropRepeats,if_neg differs]
    obtain ⟨rest',run⟩ := dropRepeats_cons s2 rest
    rw [run] at ih ⊢
    exact List.IsChain.cons_cons differs ih

/-- The rows of a unit are in the order of the code, and neighbours differ. -/
structure InOrder (states : List LineNumbersState) : Prop where
  sorted : states.Pairwise codeLe
  distinct : states.IsChain fun a b => ¬sameRow a b

theorem computeStatesIndex_inOrder (states : List LineNumbersState) : InOrder (computeStatesIndex states).states where
  sorted := ((stateAddress_sorts.sorted states).imp fun less => stateAddress_isLE less).sublist (dropRepeats_sublist _)
  distinct := dropRepeats_distinct _

theorem InOrder.before {states : List LineNumbersState} (order : InOrder states) {i j : Nat} {a b : LineNumbersState}
    (first : states[i]? = some a) (second : states[j]? = some b) (less : i < j) : codeLe a b := by
  obtain ⟨inside,rfl⟩ := List.getElem?_eq_some_iff.mp first
  obtain ⟨inside',rfl⟩ := List.getElem?_eq_some_iff.mp second
  exact List.pairwise_iff_getElem.mp order.sorted i j inside inside' less

theorem InOrder.differ {states : List LineNumbersState} (order : InOrder states) {i : Nat} {a b : LineNumbersState}
    (first : states[i]? = some a) (second : states[i+1]? = some b) : ¬sameRow a b := by
  obtain ⟨inside,rfl⟩ := List.getElem?_eq_some_iff.mp first
  obtain ⟨inside',rfl⟩ := List.getElem?_eq_some_iff.mp second
  exact List.isChain_iff_getElem.mp order.distinct i inside'

end Order

section Next

variable {rows : Rows} {row next : Row}

/-- The row behind in the code is the next one, if there is any. -/
theorem getNextInCode_next (order : InOrder rows.states) (member : rows.states[row.place]? = some row.state)
    (behind : getNextInCode rows row = some next) : next.place = row.place + 1 ∧ rows.states[row.place+1]? = some next.state := by
  unfold getNextInCode at behind
  by_cases ended : row.state.flags &&& LINE_EndSequence ≠ 0
  · rw [if_pos ended] at behind
    cases behind
  rw [if_neg ended] at behind
  cases there : rows.states[row.place+1]? with
  | none =>
    rw [List.drop_eq_nil_of_le (List.getElem?_eq_none_iff.mp there)] at behind
    cases behind
  | some state =>
    obtain ⟨inside,rfl⟩ := List.getElem?_eq_some_iff.mp there
    rw [List.drop_eq_getElem_cons inside,nextInCode] at behind
    have differ := order.differ member there
    generalize rows.states[row.place+1] = state at differ behind
    by_cases place : state.file ≠ row.state.file ∨ state.line ≠ row.state.line ∨ state.column ≠ row.state.column
    · rw [if_pos place] at behind
      cases behind
      exact ⟨rfl,rfl⟩
    rw [if_neg place] at behind
    by_cases sect : state.sect ≠ row.state.sect
    · rw [if_pos sect] at behind
      cases behind
    rw [if_neg sect,if_pos] at behind
    · cases behind
      exact ⟨rfl,rfl⟩
    · by_contra same
      apply differ
      unfold sameRow
      simp only [not_or,not_not] at place same
      simp [place,same]

end Next

section Scan

variable {range : AddressRange} {rtAddr low high : Nat} {row next : Row}

/-- A row with its area in the code, when that is not empty. -/
def codeArea (rows : Rows) (row : Row) : Option (Row × Row) :=
  (getNextInCode rows row).bind fun next => if row.state.address < next.state.address then some (row,next) else none

theorem codeArea_some {rows : Rows} {pair : Row × Row} : codeArea rows row = some pair ↔
    pair.1 = row ∧ getNextInCode rows row = some pair.2 ∧ row.state.address < pair.2.state.address := by
  unfold codeArea
  cases getNextInCode rows row with
  | none => simp
  | some next =>
    rw [Option.bind_some]
    by_cases less : row.state.address < next.state.address
    · rw [if_pos less]
      constructor
      · rintro ⟨⟩
        exact ⟨rfl,rfl,less⟩
      · rintro ⟨rfl,same,-⟩
        cases same
        rfl
    · rw [if_neg less]
      refine iff_of_false nofun ?_
      rintro ⟨-,same,less'⟩
      cases same
      exact less less'

/-- The row that the client is called for, and the one behind. -/
def ClientCall.pair (call : ClientCall) : Row × Row := (call.state,call.codeNext)

theorem callForCode_calls (order : InOrder range.table.rows.states) (member : range.table.rows.states[row.place]? = some row.state) :
    Calls (callForCode range rtAddr) ClientCall.pair (codeArea range.table.rows) (Callable range.table) row := by
  unfold Calls callForCode Callable codeArea
  cases behind : getNextInCode range.table.rows row with
  | none => exact .inl ⟨rfl,rfl⟩
  | some codeNext =>
    have place : codeNext.place > row.place := by
      have := (getNextInCode_next order member behind).1
      omega
    simp only [require_true place,Option.some.injEq,forall_eq',Option.bind_some]
    by_cases less : row.state.address < codeNext.state.address
    · rw [if_pos less,if_pos less]
      rcases @callClient_some range.table row codeNext (getNextInText range.table.rows row) _ with ⟨both,called⟩ | ⟨neither,stop,stopped⟩
      · exact .inr (.inl ⟨both,_,by rw [called]; rfl,rfl⟩)
      · exact .inr (.inr ⟨Option.some_ne_none _,neither,stop,by rw [stopped]; rfl⟩)
    · rw [if_neg less,if_neg less]
      exact .inl ⟨rfl,rfl⟩

theorem placeBehind_next (order : InOrder range.table.rows.states) (member : range.table.rows.states[row.place]? = some row.state) :
    placeBehind range row = row.place + 1 := by
  unfold placeBehind
  cases behind : getNextInCode range.table.rows row with
  | none => rfl
  | some codeNext => exact (getNextInCode_next order member behind).1

/-- The scan comes to the rows up to one that is not below the end. -/
theorem scanCode_run (order : InOrder range.table.rows.states) {rounds : Nat} (member : range.table.rows.states[row.place]? = some row.state)
    (enough : range.table.rows.states.length ≤ row.place + rounds) : scanCode range rtAddr high rounds row =
      collect (callForCode range rtAddr) (row :: ((rowsOf range.table.rows.states).drop (row.place + 1)).takeWhile (·.state.address < high)) := by
  induction rounds generalizing row with
  | zero =>
    have := (List.getElem?_eq_some_iff.mp member).1
    omega
  | succ rounds ih =>
    rw [scanCode,placeBehind_next order member]
    cases there : range.table.rows.states[row.place+1]? with
    | none =>
      have none_ : (rowsOf range.table.rows.states).drop (row.place + 1) = [] := by
        apply List.drop_eq_nil_of_le
        rw [rowsOf,List.length_map,List.length_zipIdx]
        exact List.getElem?_eq_none_iff.mp there
      rw [none_,List.takeWhile_nil,collect_single]
      cases callForCode range rtAddr row with
      | error stop => rfl
      | ok calls => rfl
    | some state =>
      have here : (rowsOf range.table.rows.states)[row.place+1]? = some ⟨row.place + 1,state⟩ := rowsOf_get.mpr ⟨rfl,there⟩
      obtain ⟨inside,value⟩ := List.getElem?_eq_some_iff.mp here
      rw [List.drop_eq_getElem_cons inside,value]
      by_cases beyond : state.address ≥ high
      · rw [List.takeWhile_cons_of_neg (by simpa using beyond),collect_single]
        simp only [if_pos beyond]
        cases callForCode range rtAddr row with
        | error stop => rfl
        | ok calls => rfl
      · rw [List.takeWhile_cons_of_pos (by simpa using beyond)]
        simp only [if_neg beyond]
        rw [@ih ⟨row.place + 1,state⟩ there (by simp only; omega)]
        rfl

end Scan

section Stretch

variable {range : AddressRange} {states : List LineNumbersState} {low high : Nat} {row : Row} {k t w : Nat}

/-- The walks from the place `t` come to the place `w`. -/
def Joined (states : List LineNumbersState) (low high t w : Nat) : Prop :=
  ∀ i state, states[i]? = some state → min t w ≤ i → i ≤ max t w → state.address < high ∧ (w < i → low < state.address)

theorem firstInCode_spec (inside : k < states.length) (self : Joined states low high k k) :
    firstInCode low high states k ≤ k ∧ Joined states low high k (firstInCode low high states k) ∧
      ∀ w < firstInCode low high states k, ¬Joined states low high k w := by
  have main : ∀ j, j ≤ k → Joined states low high k j →
      firstInCode low high states j ≤ j ∧ Joined states low high k (firstInCode low high states j) ∧
        ∀ w < firstInCode low high states j, ¬Joined states low high k w := by
    intro j less joined
    induction j with
    | zero => exact ⟨Nat.le_refl 0,joined,fun w front => absurd front (Nat.not_lt_zero w)⟩
    | succ j ih =>
      obtain ⟨state,here⟩ : ∃ state, states[j+1]? = some state := ⟨_,List.getElem?_eq_getElem (by omega)⟩
      obtain ⟨prev,before⟩ : ∃ prev, states[j]? = some prev := ⟨_,List.getElem?_eq_getElem (by omega)⟩
      simp only [firstInCode,here,before]
      by_cases stops : state.address ≤ low ∨ prev.address ≥ high
      · rw [if_pos stops]
        refine ⟨Nat.le_refl _,joined,fun w front other => ?_⟩
        rcases stops with below | beyond
        · have := (other (j + 1) state here (by omega) (by omega)).2 front
          omega
        · have := (other j prev before (by omega) (by omega)).1
          omega
      · rw [if_neg stops]
        have onward : Joined states low high k j := by
          intro i state' there from_ upto
          rcases Nat.lt_trichotomy i (j + 1) with less | rfl | more
          · obtain rfl : i = j := by omega
            rw [before] at there
            cases there
            exact ⟨by omega,fun front => absurd front (Nat.lt_irrefl i)⟩
          · rw [here] at there
            cases there
            exact ⟨(joined (j + 1) state here (by omega) (by omega)).1,fun _ => by omega⟩
          · have both := joined i state' there (by omega) (by omega)
            exact ⟨both.1,fun _ => both.2 more⟩
        obtain ⟨low_,first,least⟩ := ih (by omega) onward
        exact ⟨by omega,first,least⟩
  exact main k (Nat.le_refl k) self

theorem mem_takeWhile {n : Nat} : row ∈ ((rowsOf states).drop n).takeWhile (·.state.address < high) ↔
    row ∈ rowsOf states ∧ n ≤ row.place ∧ ∀ i state, states[i]? = some state → n ≤ i → i ≤ row.place → state.address < high := by
  have size : (rowsOf states).length = states.length := by rw [rowsOf,List.length_map,List.length_zipIdx]
  generalize left : (rowsOf states).drop n = rest
  induction rest generalizing n with
  | nil =>
    have few : states.length ≤ n := by
      rw [← size]
      exact List.drop_eq_nil_iff.mp left
    rw [List.takeWhile_nil]
    refine iff_of_false List.not_mem_nil ?_
    rintro ⟨member,behind,-⟩
    have := (List.getElem?_eq_some_iff.mp (mem_rowsOf.mp member)).1
    omega
  | cons first rest ih =>
    have here : (rowsOf states)[n]? = some first := by
      have head := congrArg List.head? left
      rwa [List.head?_drop] at head
    obtain ⟨place,there⟩ := rowsOf_get.mp here
    have tail : (rowsOf states).drop (n + 1) = rest := by
      rw [← List.tail_drop,left]
      rfl
    by_cases below : first.state.address < high
    · rw [List.takeWhile_cons_of_pos (by simpa using below)]
      refine (List.mem_cons.trans (or_congr_right (ih tail))).trans ⟨?_,?_⟩
      · rintro (rfl | ⟨member,behind,all⟩)
        · refine ⟨mem_rowsOf.mpr (place ▸ there),Nat.le_of_eq place.symm,fun i state here' from_ upto => ?_⟩
          obtain rfl : i = n := by omega
          rw [there] at here'
          cases here'
          exact below
        · refine ⟨member,by omega,fun i state here' from_ upto => ?_⟩
          rcases Nat.eq_or_lt_of_le from_ with rfl | from_
          · rw [there] at here'
            cases here'
            exact below
          · exact all i state here' from_ upto
      · rintro ⟨member,behind,all⟩
        rcases Nat.eq_or_lt_of_le behind with same | behind
        · left
          have state := mem_rowsOf.mp member
          rw [← same,there] at state
          obtain ⟨place',state'⟩ := row
          obtain ⟨place'',state''⟩ := first
          simp only [Option.some.injEq] at state same place
          rw [← state,← same,place]
        · exact .inr ⟨member,behind,fun i state here' from_ upto => all i state here' (by omega) upto⟩
    · rw [List.takeWhile_cons_of_neg (by simpa using below)]
      refine iff_of_false List.not_mem_nil ?_
      rintro ⟨-,behind,all⟩
      exact below (all n first.state there (Nat.le_refl n) behind)

theorem rowsOf_places (states : List LineNumbersState) : (rowsOf states).Pairwise fun row other => row.place < other.place := by
  rw [List.pairwise_iff_getElem]
  intro i j inside inside' less
  have first := (rowsOf_get.mp (List.getElem?_eq_getElem inside)).1
  have second := (rowsOf_get.mp (List.getElem?_eq_getElem inside')).1
  omega

/-- The rows that are come to from the place `k`. -/
theorem mem_stretch (self : Joined states low high k k) {state : LineNumbersState}
    (first : states[firstInCode low high states k]? = some state) (inside : k < states.length) :
    row ∈ (⟨firstInCode low high states k,state⟩ : Row) ::
        ((rowsOf states).drop (firstInCode low high states k + 1)).takeWhile (·.state.address < high) ↔
      row ∈ rowsOf states ∧ Joined states low high k row.place := by
  obtain ⟨front,joined,least⟩ := firstInCode_spec inside self
  generalize firstInCode low high states k = f at first front joined least ⊢
  rw [List.mem_cons,mem_takeWhile]
  constructor
  · rintro (rfl | ⟨member,behind,all⟩)
    · exact ⟨mem_rowsOf.mpr first,joined⟩
    · refine ⟨member,fun i state' there from_ upto => ?_⟩
      by_cases early : i ≤ k
      · have both := joined i state' there (by omega) (by omega)
        exact ⟨both.1,fun less => both.2 (by omega)⟩
      · exact ⟨all i state' there (by omega) (by omega),fun less => by omega⟩
  · rintro ⟨member,other⟩
    have behind : f ≤ row.place := by
      by_contra less
      exact least row.place (by omega) other
    rcases Nat.eq_or_lt_of_le behind with same | behind
    · left
      have state' := mem_rowsOf.mp member
      rw [← same,first] at state'
      obtain ⟨place',state''⟩ := row
      simp only [Option.some.injEq] at state' same
      rw [← state',← same]
    · refine .inr ⟨member,behind,fun i state' there from_ upto => ?_⟩
      by_cases early : i ≤ k
      · exact (joined i state' there (by omega) (by omega)).1
      · exact (other i state' there (by omega) (by omega)).1

end Stretch

section Search

variable {range : AddressRange} {low high : Nat} {row next a b : Row}

/-- A row that the search stops at. -/
structure InWindow (range : AddressRange) (low high : Nat) (row : Row) : Prop where
  member : row ∈ rowsOf range.table.rows.states
  sect : row.state.sect = range.sect
  below : row.state.address < high
  above : ∃ next, getNextInCode range.table.rows row = some next ∧ low < next.state.address

/-- A row behind the place `t` that makes the search go on behind it. -/
structure Misleads (range : AddressRange) (low high t : Nat) (row : Row) : Prop where
  member : row ∈ rowsOf range.table.rows.states
  behind : t < row.place
  sect : row.state.sect = range.sect
  below : row.state.address < high
  above : ∀ next, getNextInCode range.table.rows row = some next → next.state.address ≤ low

/-- A row in the window that the search is not misled in front of. -/
def Reached (range : AddressRange) (low high : Nat) : Prop :=
  ∃ row, InWindow range low high row ∧ ∀ other, Misleads range low high row.place other →
    other.place ∉ path row.place range.table.rows.states.length 0 range.table.rows.states.length

theorem probeCode_at (member : row ∈ rowsOf range.table.rows.states) : probeCode range low high row.place =
    if row.state.sect > range.sect then .gt
    else if row.state.sect < range.sect then .lt
    else if row.state.address ≥ high then .gt
    else (getNextInCode range.table.rows row).elim .lt fun next => if next.state.address ≤ low then .lt else .eq := by
  have same : (⟨row.place,row.state⟩ : Row) = row := rfl
  unfold probeCode
  simp only [mem_rowsOf.mp member,same]
  cases getNextInCode range.table.rows row with
  | none => rfl
  | some next => rfl

theorem probeCode_hit (member : row ∈ rowsOf range.table.rows.states) :
    probeCode range low high row.place = .eq ↔ InWindow range low high row := by
  rw [probeCode_at member]
  constructor
  · intro hit
    by_cases more : row.state.sect > range.sect
    · rw [if_pos more] at hit
      cases hit
    by_cases less : row.state.sect < range.sect
    · rw [if_neg more,if_pos less] at hit
      cases hit
    by_cases beyond : row.state.address ≥ high
    · rw [if_neg more,if_neg less,if_pos beyond] at hit
      cases hit
    rw [if_neg more,if_neg less,if_neg beyond] at hit
    refine ⟨member,by omega,by omega,?_⟩
    cases behind : getNextInCode range.table.rows row with
    | none =>
      rw [behind] at hit
      cases hit
    | some next =>
      rw [behind] at hit
      by_cases early : next.state.address ≤ low
      · simp [early] at hit
      · exact ⟨next,rfl,by omega⟩
  · rintro ⟨-,sect,below,next,behind,above⟩
    rw [if_neg (by omega),if_neg (by omega),if_neg (by omega),behind]
    exact if_neg (by omega)

theorem probeCode_lt (member : row ∈ rowsOf range.table.rows.states) (sect : range.sect ≤ row.state.sect) :
    probeCode range low high row.place = .lt ↔ row.state.sect = range.sect ∧ row.state.address < high ∧
      ∀ next, getNextInCode range.table.rows row = some next → next.state.address ≤ low := by
  rw [probeCode_at member,if_neg (Nat.not_lt.mpr sect)]
  by_cases more : row.state.sect > range.sect
  · rw [if_pos more]
    exact iff_of_false nofun fun both => by omega
  rw [if_neg more]
  by_cases beyond : row.state.address ≥ high
  · rw [if_pos beyond]
    exact iff_of_false nofun fun both => by omega
  rw [if_neg beyond]
  have same : row.state.sect = range.sect := by omega
  have below : row.state.address < high := by omega
  cases getNextInCode range.table.rows row with
  | none => simp [same,below]
  | some next => simp [same,below]

theorem reached_iff (order : InOrder range.table.rows.states) :
    (∃ k, bisect (probeCode range low high) range.table.rows.states.length 0 range.table.rows.states.length = some k) ↔
      Reached range low high := by
  have rowAt {k : Nat} (inside : k < range.table.rows.states.length) : ∃ row ∈ rowsOf range.table.rows.states, row.place = k :=
    ⟨⟨k,range.table.rows.states[k]⟩,mem_rowsOf.mpr (List.getElem?_eq_getElem inside),rfl⟩
  rw [bisect_found_iff (Nat.le_of_eq (Nat.zero_add _).symm)]
  constructor
  · rintro ⟨t,-,inside,hit,way⟩
    obtain ⟨row,member,rfl⟩ := rowAt inside
    have window := (probeCode_hit member).mp hit
    refine ⟨row,window,fun other misleads probed => ?_⟩
    have sect : range.sect ≤ other.state.sect := Nat.le_of_eq misleads.sect.symm
    exact (way other.place probed).2 misleads.behind ((probeCode_lt misleads.member sect).mpr ⟨misleads.sect,misleads.below,misleads.above⟩)
  · rintro ⟨row,window,way⟩
    have inside := (List.getElem?_eq_some_iff.mp (mem_rowsOf.mp window.member)).1
    refine ⟨row.place,Nat.zero_le _,inside,(probeCode_hit window.member).mpr window,fun k probed => ⟨fun front => ?_,fun behind side => ?_⟩⟩
    · obtain ⟨other,member,rfl⟩ := rowAt (Nat.lt_trans front inside)
      have less := order.before (mem_rowsOf.mp member) (mem_rowsOf.mp window.member) front
      have sect := window.sect
      have below := window.below
      unfold codeLe at less
      rw [probeCode_at member,if_neg (by omega)]
      by_cases lower : other.state.sect < range.sect
      · rw [if_pos lower]
        exact nofun
      rw [if_neg lower,if_neg (by omega)]
      cases getNextInCode range.table.rows other with
      | none => exact nofun
      | some next =>
        by_cases early : next.state.address ≤ low
        · simp [early]
        · simp [early]
    · have there : k < range.table.rows.states.length := by
        by_contra outside
        unfold probeCode at side
        rw [List.getElem?_eq_none_iff.mpr (by omega)] at side
        cases side
      obtain ⟨other,member,rfl⟩ := rowAt there
      have less := order.before (mem_rowsOf.mp window.member) (mem_rowsOf.mp member) behind
      have own := window.sect
      unfold codeLe at less
      obtain ⟨sect,below,above⟩ := (probeCode_lt member (by omega)).mp side
      exact way other ⟨member,behind,sect,below,above⟩ probed

end Search

section Window

variable {range : AddressRange} {low high : Nat} {row next a b : Row} {w : Nat}

section

variable (order : InOrder range.table.rows.states)

include order

theorem InWindow.next_at (window : InWindow range low high a) :
    ∃ state, range.table.rows.states[a.place+1]? = some state ∧ low < state.address := by
  obtain ⟨next,behind,above⟩ := window.above
  exact ⟨next.state,(getNextInCode_next order (mem_rowsOf.mp window.member) behind).2,above⟩

/-- The rows from one in the window on, as long as they are in its section. -/
theorem InWindow.onward (window : InWindow range low high a) {i : Nat} {state : LineNumbersState}
    (there : range.table.rows.states[i]? = some state) (behind : a.place < i) (sect : state.sect = range.sect) : low < state.address := by
  obtain ⟨first,here,above⟩ := window.next_at order
  rcases Nat.eq_or_lt_of_le (Nat.succ_le_of_lt behind) with same | later
  · rw [← same] at there
    cases here.symm.trans there
    exact above
  · have start := order.before (mem_rowsOf.mp window.member) here (Nat.lt_succ_self _)
    have less := order.before here there later
    have own := window.sect
    unfold codeLe at start less
    omega

theorem InWindow.between (first : InWindow range low high a) (second : InWindow range low high b)
    {i : Nat} {state : LineNumbersState} (there : range.table.rows.states[i]? = some state) (from_ : a.place ≤ i) (upto : i ≤ b.place) :
    state.address < high ∧ (a.place < i → low < state.address) := by
  have own := first.sect
  have own' := second.sect
  have below := second.below
  have sect : state.sect = range.sect ∧ state.address < high := by
    rcases Nat.eq_or_lt_of_le upto with rfl | front
    · rw [mem_rowsOf.mp second.member] at there
      cases there
      exact ⟨own',below⟩
    rcases Nat.eq_or_lt_of_le from_ with rfl | behind
    · rw [mem_rowsOf.mp first.member] at there
      cases there
      exact ⟨own,first.below⟩
    have less := order.before (mem_rowsOf.mp first.member) there behind
    have more := order.before there (mem_rowsOf.mp second.member) front
    unfold codeLe at less more
    omega
  exact ⟨sect.2,fun behind => first.onward order there behind sect.1⟩

omit order in
theorem InWindow.self (window : InWindow range low high a) : Joined range.table.rows.states low high a.place a.place := by
  intro i state there from_ upto
  obtain rfl : i = a.place := by omega
  rw [mem_rowsOf.mp window.member] at there
  cases there
  exact ⟨window.below,fun less => absurd less (Nat.lt_irrefl _)⟩

/-- The walks come to the same rows from every row in the window. -/
theorem InWindow.transfer (first : InWindow range low high a) (second : InWindow range low high b)
    (joined : Joined range.table.rows.states low high a.place w) : Joined range.table.rows.states low high b.place w := by
  intro i state there from_ upto
  by_cases inside : min a.place w ≤ i ∧ i ≤ max a.place w
  · exact joined i state there inside.1 inside.2
  rcases Nat.le_total a.place b.place with less | less
  · obtain ⟨below,above⟩ := first.between order second there (by omega) (by omega)
    exact ⟨below,fun behind => above (by omega)⟩
  · obtain ⟨below,-⟩ := second.between order first there (by omega) (by omega)
    exact ⟨below,fun behind => by omega⟩

/-- Of the rows of the section with an area, the walks come to those in the window. -/
theorem InWindow.joined_iff (window : InWindow range low high a)
    (member : row ∈ rowsOf range.table.rows.states) (sect : row.state.sect = range.sect)
    (area : codeArea range.table.rows row = some (row,next)) :
    Joined range.table.rows.states low high a.place row.place ↔ InWindow range low high row := by
  obtain ⟨-,behind,less⟩ := codeArea_some.mp area
  constructor
  · intro joined
    have here := mem_rowsOf.mp member
    refine ⟨member,sect,(joined row.place row.state here (by omega) (by omega)).1,next,behind,?_⟩
    rcases Nat.lt_trichotomy row.place a.place with front | same | later
    · have there := (getNextInCode_next order here behind).2
      exact (joined (row.place + 1) next.state there (by omega) (by omega)).2 (Nat.lt_succ_self _)
    · obtain ⟨next',behind',above⟩ := window.above
      have equal : row = a := by
        have here' := mem_rowsOf.mp window.member
        rw [← same,here] at here'
        obtain ⟨place,state⟩ := row
        obtain ⟨place',state'⟩ := a
        simp only [Option.some.injEq] at here' same
        rw [here',same]
      rw [← equal,behind] at behind'
      cases behind'
      exact above
    · have := window.onward order here later sect
      simp only at less
      omega
  · exact fun other => other.transfer order window other.self

end

end Window

section Lookup

variable {range : AddressRange} {rtAddr addr0 addr1 low high : Nat} {row next : Row}

/-- The part of the query that is in the range, at link time. -/
def queryStart (range : AddressRange) (rtAddr addr0 : Nat) : Nat := range.addr + (addr0 - rtAddr)

def queryEnd (range : AddressRange) (rtAddr addr1 : Nat) : Nat := min (range.addr + range.size) (range.addr + addr1 - rtAddr)

/-- A row of the section whose area meets the query. -/
structure CodeDue (range : AddressRange) (rtAddr addr0 addr1 : Nat) (row next : Row) : Prop where
  member : row ∈ rowsOf range.table.rows.states
  sect : row.state.sect = range.sect
  behind : getNextInCode range.table.rows row = some next
  meets : max row.state.address (queryStart range rtAddr addr0) < min next.state.address (queryEnd range rtAddr addr1)

/-- Calls for each area that is due, once and in the order of the addresses, and for no other. -/
def ExactCalls (range : AddressRange) (rtAddr addr0 addr1 : Nat) (calls : List ClientCall) : Prop :=
  calls.Pairwise (fun call other => call.state.place < other.state.place ∧ call.state.state.address ≤ other.state.state.address) ∧
    ∀ row next, (∃ call ∈ calls, call.pair = (row,next)) ↔ CodeDue range rtAddr addr0 addr1 row next

/-- These are the calls that are made. -/
def AddressExact (range : AddressRange) (rtAddr addr0 addr1 : Nat) : Prop :=
  ∃ calls, addressToLineIn range rtAddr addr0 addr1 = .ok calls ∧ ExactCalls range rtAddr addr0 addr1 calls

/-- What has to be so of the rows, and of the addresses modulo `2 ^ 64`. -/
structure AddressAnswerable (range : AddressRange) (rtAddr addr0 addr1 : Nat) : Prop where
  reached : (∃ row next, CodeDue range rtAddr addr0 addr1 row next) → Reached range (addrMin range rtAddr addr0) (addrMax range rtAddr addr1)
  window : Reached range (addrMin range rtAddr addr0) (addrMax range rtAddr addr1) → ∀ row next, row ∈ rowsOf range.table.rows.states →
    row.state.sect = range.sect → codeArea range.table.rows row = some (row,next) →
      (InWindow range (addrMin range rtAddr addr0) (addrMax range rtAddr addr1) row ↔ CodeDue range rtAddr addr0 addr1 row next)
  strays : Reached range (addrMin range rtAddr addr0) (addrMax range rtAddr addr1) → ∀ row next, row ∈ rowsOf range.table.rows.states →
    row.state.sect ≠ range.sect → codeArea range.table.rows row = some (row,next) →
      ∀ other, InWindow range (addrMin range rtAddr addr0) (addrMax range rtAddr addr1) other →
        ¬Joined range.table.rows.states (addrMin range rtAddr addr0) (addrMax range rtAddr addr1) other.place row.place
  callable : ∀ row next, CodeDue range rtAddr addr0 addr1 row next → CallableWith range.table row next

theorem linesBetween_missed (order : InOrder range.table.rows.states) (missed : ¬Reached range low high) :
    linesBetween range rtAddr low high = .ok [] := by
  unfold linesBetween
  have run := mt (reached_iff order).mp missed
  cases found : bisect (probeCode range low high) range.table.rows.states.length 0 range.table.rows.states.length with
  | none => exact ite_self _
  | some k => exact absurd ⟨k,found⟩ run

/-- The client is called for the rows that the walks come to from a row in the window. -/
theorem linesBetween_found (order : InOrder range.table.rows.states) (reached : Reached range low high) :
    ∃ a stretch, InWindow range low high a ∧
      (∀ row, row ∈ stretch ↔ row ∈ rowsOf range.table.rows.states ∧ Joined range.table.rows.states low high a.place row.place) ∧
      stretch.Pairwise (fun row other => row.place < other.place) ∧
      linesBetween range rtAddr low high = collect (callForCode range rtAddr) stretch := by
  obtain ⟨k,found⟩ := (reached_iff order).mpr reached
  unfold linesBetween
  rw [found]
  obtain ⟨-,inside,hit⟩ := bisect_some found
  have member : (⟨k,range.table.rows.states[k]⟩ : Row) ∈ rowsOf range.table.rows.states := mem_rowsOf.mpr (List.getElem?_eq_getElem inside)
  have window := (probeCode_hit member).mp hit
  have enough : range.table.rows.states.length ≥ 2 := by
    obtain ⟨state,there,-⟩ := window.next_at order
    have := (List.getElem?_eq_some_iff.mp there).1
    simp only at this
    omega
  have self : Joined range.table.rows.states low high k k := window.self
  obtain ⟨front,-,-⟩ := firstInCode_spec inside self
  have first : range.table.rows.states[firstInCode low high range.table.rows.states k]? =
      some range.table.rows.states[firstInCode low high range.table.rows.states k] := List.getElem?_eq_getElem (by omega)
  refine ⟨_,_,window,fun row => mem_stretch self first inside,?_,?_⟩
  · rw [List.pairwise_cons]
    constructor
    · intro row later
      have := (mem_takeWhile.mp later).2.1
      simp only
      omega
    · exact (rowsOf_places _).sublist ((List.takeWhile_sublist _).trans (List.drop_sublist ..))
  · rw [if_pos enough]
    simp only [first]
    exact scanCode_run order first (by simp only; omega)

theorem CodeDue.area (due : CodeDue range rtAddr addr0 addr1 row next) : codeArea range.table.rows row = some (row,next) := by
  have meets := due.meets
  exact codeArea_some.mpr ⟨rfl,due.behind,by simp only; omega⟩

theorem addressToLineIn_exact (order : InOrder range.table.rows.states) :
    AddressExact range rtAddr addr0 addr1 ↔ AddressAnswerable range rtAddr addr0 addr1 := by
  unfold AddressExact addressToLineIn
  by_cases reached : Reached range (addrMin range rtAddr addr0) (addrMax range rtAddr addr1)
  · obtain ⟨a,stretch,window,members,ordered,run⟩ := @linesBetween_found range rtAddr _ _ order reached
    have calls_ : ∀ row ∈ stretch, Calls (callForCode range rtAddr) ClientCall.pair (codeArea range.table.rows) (Callable range.table) row :=
      fun row inside => callForCode_calls order (mem_rowsOf.mp ((members row).mp inside).1)
    -- The walks come to a row of the section if and only if it is in the window.
    have own {row next : Row} (member : row ∈ rowsOf range.table.rows.states) (sect : row.state.sect = range.sect)
        (area : codeArea range.table.rows row = some (row,next)) :
        row ∈ stretch ↔ InWindow range (addrMin range rtAddr addr0) (addrMax range rtAddr addr1) row :=
      (members row).trans ((and_iff_right member).trans (window.joined_iff order member sect area))
    rw [run]
    rcases collect_cases calls_ with ⟨calls,run',pairs,fine⟩ | ⟨⟨stop,run'⟩,wrong⟩
    · have called : ∀ row next, (∃ call ∈ calls, call.pair = (row,next)) ↔ row ∈ stretch ∧ codeArea range.table.rows row = some (row,next) := by
        intro row next
        rw [← List.mem_map,pairs,List.mem_filterMap]
        constructor
        · rintro ⟨other,inside,area⟩
          obtain ⟨rfl,-⟩ := codeArea_some.mp area
          exact ⟨inside,area⟩
        · exact fun both => ⟨row,both.1,both.2⟩
      constructor
      · rintro ⟨calls',ran,-,all⟩
        rw [run'] at ran
        cases ran
        have due_iff : ∀ row next, row ∈ stretch ∧ codeArea range.table.rows row = some (row,next) ↔
            CodeDue range rtAddr addr0 addr1 row next := fun row next => (called row next).symm.trans (all row next)
        refine ⟨fun _ => reached,fun _ row next member sect area => ?_,fun _ row next member sect area other hit joined => ?_,
          fun row next due => ?_⟩
        · rw [← own member sect area,← due_iff row next]
          exact (and_iff_left area).symm
        · have inside := (members row).mpr ⟨member,hit.transfer order window joined⟩
          exact sect ((due_iff row next).mp ⟨inside,area⟩).sect
        · have inside := ((due_iff row next).mpr due).1
          exact fine row inside (by rw [due.area]; exact nofun) next due.behind
      · intro answerable
        have due_iff : ∀ row next, row ∈ stretch ∧ codeArea range.table.rows row = some (row,next) ↔
            CodeDue range rtAddr addr0 addr1 row next := by
          intro row next
          constructor
          · rintro ⟨inside,area⟩
            obtain ⟨member,joined⟩ := (members row).mp inside
            by_cases sect : row.state.sect = range.sect
            · exact (answerable.window reached row next member sect area).mp ((own member sect area).mp inside)
            · exact absurd joined (answerable.strays reached row next member sect area a window)
          · intro due
            exact ⟨(own due.member due.sect due.area).mpr ((answerable.window reached row next due.member due.sect due.area).mpr due),due.area⟩
        have all : ∀ row next, (∃ call ∈ calls, call.pair = (row,next)) ↔ CodeDue range rtAddr addr0 addr1 row next :=
          fun row next => (called row next).trans (due_iff row next)
        refine ⟨calls,run',?_,all⟩
        have places : (calls.map ClientCall.pair).Pairwise fun pair other => pair.1.place < other.1.place := by
          rw [pairs]
          refine ordered.filterMap _ ?_
          intro row other less pair here pair' there
          obtain ⟨rfl,-⟩ := codeArea_some.mp here
          obtain ⟨rfl,-⟩ := codeArea_some.mp there
          exact less
        refine (List.pairwise_map.mp places).imp_of_mem ?_
        intro call other inside inside' less
        have due := (all call.state call.codeNext).mp ⟨call,inside,rfl⟩
        have due' := (all other.state other.codeNext).mp ⟨other,inside',rfl⟩
        have sorted := order.before (mem_rowsOf.mp due.member) (mem_rowsOf.mp due'.member) less
        have sect := due.sect
        have sect' := due'.sect
        unfold codeLe at sorted
        exact ⟨less,by omega⟩
    · constructor
      · rintro ⟨calls,ran,-⟩
        rw [run'] at ran
        cases ran
      · intro answerable
        refine absurd (fun row inside wanted next behind => ?_) wrong
        obtain ⟨pair,area⟩ := Option.ne_none_iff_exists'.mp wanted
        obtain ⟨rfl,behind',-⟩ := codeArea_some.mp area
        obtain ⟨member,joined⟩ := (members pair.1).mp inside
        cases behind.symm.trans behind'
        by_cases sect : pair.1.state.sect = range.sect
        · exact answerable.callable pair.1 pair.2
            ((answerable.window reached pair.1 pair.2 member sect area).mp ((own member sect area).mp inside))
        · exact absurd joined (answerable.strays reached pair.1 pair.2 member sect area a window)
  · rw [linesBetween_missed order reached]
    constructor
    · rintro ⟨calls,ran,-,all⟩
      cases ran
      have none_ : ∀ row next, ¬CodeDue range rtAddr addr0 addr1 row next := by
        intro row next due
        obtain ⟨call,inside,-⟩ := (all row next).mpr due
        cases inside
      exact ⟨fun some_ => absurd some_ (by rintro ⟨row,next,due⟩; exact none_ row next due),fun there => absurd there reached,
        fun there => absurd there reached,fun row next due => absurd due (none_ row next)⟩
    · intro answerable
      refine ⟨[],rfl,List.Pairwise.nil,fun row next => iff_of_false ?_ fun due => reached (answerable.reached ⟨row,next,due⟩)⟩
      rintro ⟨call,inside,-⟩
      cases inside

/-- A range that is looked up, its address at run time, and the query. -/
structure Visit where
  range : AddressRange
  rtAddr : Nat
  addr0 : Nat
  addr1 : Nat

def Visit.Exact (visit : Visit) : List ClientCall → Prop := ExactCalls visit.range visit.rtAddr visit.addr0 visit.addr1

/-- The ranges of a query, when there are enough rounds for them. -/
def visits (findUnit : Nat → Nat → Option (AddressRange × Nat)) : Nat → Nat → Nat → Option (List Visit)
  | 0, _, _ => none
  | rounds+1, addr0, addr1 =>
    if addr0 < addr1 then
      match findUnit addr0 (addr1 - 1) with
      | none => some []
      | some found =>
        (visits findUnit rounds ((found.2 + found.1.size) % 2 ^ 64) addr1).map fun others => ⟨found.1,found.2,addr0,addr1⟩ :: others
    else some []

/-- The calls of a query are those of its ranges, one after another. -/
theorem addressToLine_exact {findUnit : Nat → Nat → Option (AddressRange × Nat)}
    (order : ∀ addr0 addr1 found, findUnit addr0 addr1 = some found → InOrder found.1.table.rows.states) {rounds : Nat} {ranges : List Visit}
    (enough : visits findUnit rounds addr0 addr1 = some ranges)
    (answerable : ∀ visit ∈ ranges, AddressAnswerable visit.range visit.rtAddr visit.addr0 visit.addr1) :
    ∃ parts, addressToLine findUnit rounds addr0 addr1 = .ok parts.flatten ∧
      List.Forall₂ Visit.Exact ranges parts := by
  induction rounds generalizing addr0 ranges with
  | zero => cases enough
  | succ rounds ih =>
    unfold visits at enough
    unfold addressToLine
    by_cases less : addr0 < addr1
    · rw [if_pos less] at enough ⊢
      cases found : findUnit addr0 (addr1 - 1) with
      | none =>
        rw [found] at enough
        cases enough
        exact ⟨[],rfl,.nil⟩
      | some found_ =>
        rw [found] at enough
        obtain ⟨others,later_,rfl⟩ := Option.map_eq_some_iff.mp enough
        obtain ⟨here,later⟩ := List.forall_mem_cons.mp answerable
        obtain ⟨calls,run,exact_⟩ := (addressToLineIn_exact (order _ _ _ found)).mpr here
        obtain ⟨parts,run',all⟩ := ih later_ later
        refine ⟨calls :: parts,?_,.cons exact_ all⟩
        simp only [run,run',Code.ok_bind,Code.pure_eq,List.flatten_cons]
    · rw [if_neg less] at enough ⊢
      cases enough
      exact ⟨[],rfl,.nil⟩

/-- One row, and the end of its code. -/
def oneRow : AddressRange := ⟨⟨⟨0,none,[],[⟨some [97],none,0,0,0⟩],[]⟩,⟨[⟨0x10,0,0,5,0,0,0,0,0,false⟩,⟨0x20,0,0,5,0,LINE_EndSequence,0,0,0,false⟩],
  [],[]⟩,fun _ a => a⟩,0,0x10,0x10⟩

theorem addressToLine_exact_one : ∃ parts, addressToLine (fun _ _ => some (oneRow,0x10)) 2 0x18 0x20 = .ok parts.flatten ∧
    List.Forall₂ Visit.Exact [⟨oneRow,0x10,0x18,0x20⟩] parts := by
  have order : InOrder oneRow.table.rows.states := ⟨by simp [oneRow,codeLe],by decide⟩
  refine addressToLine_exact (by rintro _ _ _ ⟨⟩; exact order) rfl (List.forall_mem_singleton.mpr
    ((addressToLineIn_exact order).mp ⟨_,rfl,List.pairwise_singleton _ _,fun row next => ⟨?_,?_⟩⟩))
  · rintro ⟨_,_ | ⟨_,⟨⟩⟩,⟨⟩⟩
    exact ⟨by decide,rfl,rfl,by decide⟩
  · rintro ⟨_ | ⟨_,_ | ⟨_,⟨⟩⟩⟩,_,⟨⟩,_⟩
    exact ⟨_,List.mem_singleton_self _,rfl⟩

/-- For the rows of every unit, an address range is looked up exactly if and only if it can be answered for. -/
theorem address_lookup_exact (unit : CompUnit) (states : List LineNumbersState) (toRunTime : Nat → Nat → Nat)
    (sect addr size rtAddr addr0 addr1 : Nat) :
    AddressExact ⟨⟨unit,computeStatesIndex states,toRunTime⟩,sect,addr,size⟩ rtAddr addr0 addr1 ↔
      AddressAnswerable ⟨⟨unit,computeStatesIndex states,toRunTime⟩,sect,addr,size⟩ rtAddr addr0 addr1 :=
  addressToLineIn_exact (computeStatesIndex_inOrder states)

/-- The code of line 5 ends in front of that of line 9. -/
def twoSequences : List LineNumbersState :=
  [⟨0x10,1,0,5,0,LINE_IsStmt,0,0,0,false⟩,⟨0x20,1,0,6,0,LINE_EndSequence,0,0,0,false⟩,⟨0x50,1,0,9,0,LINE_IsStmt,0,0,0,false⟩,
    ⟨0x60,1,0,10,0,LINE_EndSequence,0,0,0,false⟩]

theorem twoSequences_index : computeStatesIndex twoSequences = ⟨twoSequences,rowsOf twoSequences,[0,1,2,3]⟩ := by
  have ordered : twoSequences.mergeSort (fun s1 s2 => (stateAddressComparator s1 s2).isLE) = twoSequences :=
    List.mergeSort_of_pairwise (by decide)
  have kept : dropRepeats twoSequences = twoSequences := by simp [twoSequences,dropRepeats,sameRow]
  have ordered' : (rowsOf twoSequences).mergeSort (fun r1 r2 => (stateTextPosComparator r1.state r2.state).isLE) = rowsOf twoSequences :=
    List.mergeSort_of_pairwise (by decide)
  unfold computeStatesIndex
  simp only [ordered,kept,ordered']
  rfl

/-- From the first address up to one between the sequences, line 5 is missed. -/
theorem end_of_sequence_misleads :
    ¬AddressExact ⟨⟨⟨0,none,[],[⟨some [97],none,0,0,0⟩],[]⟩,computeStatesIndex twoSequences,fun _ address => address⟩,1,0x10,0x50⟩
      0x10 0x10 0x40 := by
  rw [twoSequences_index]
  rintro ⟨calls,run,-,all⟩
  have due := (all ⟨0,⟨0x10,1,0,5,0,LINE_IsStmt,0,0,0,false⟩⟩ ⟨1,⟨0x20,1,0,6,0,LINE_EndSequence,0,0,0,false⟩⟩).mpr
    ⟨by decide,rfl,by decide,by decide⟩
  cases run
  revert due
  decide

end Lookup

end Tcf.Dwarf
