import Mathlib.Data.Nat.Find
import Tcf.UnitRanges

/-! When the search for an address range finds what a linear scan finds. -/
namespace Tcf.UnitRanges

open Bisection

variable {U : Type} {cache : DwarfCache U} {argument : SectionArgument} {s addrMin addrMax i j k n t : Nat} {range : UnitAddressRange U}

section Walks

theorem addr_le {later : UnitAddressRange U} (first : cache.mAddrRanges[i]? = some range) (second : cache.mAddrRanges[j]? = some later)
    (order : i ≤ j) : range.mAddr ≤ later.mAddr := by
  obtain ⟨_,rfl⟩ := List.getElem?_eq_some_iff.mp first
  obtain ⟨_,rfl⟩ := List.getElem?_eq_some_iff.mp second
  rcases Nat.lt_or_eq_of_le order with less | rfl
  · exact List.pairwise_iff_getElem.mp cache.sorted i j _ _ less
  · exact Nat.le_refl _

/-- The range at a place is one that the walk returns. -/
def Seen (cache : DwarfCache U) (s addrMin addrMax i : Nat) : Prop :=
  ∃ range, cache.mAddrRanges[i]? = some range ∧ (range.mAddr ≤ addrMax ∧ addrMin < add64 range.mAddr range.mSize) ∧ range.Compatible s

/-- `t` is the first place seen among `n` from `k` on. -/
def FirstSeen (cache : DwarfCache U) (s addrMin addrMax n k t : Nat) : Prop :=
  (k ≤ t ∧ t < k + n) ∧ Seen cache s addrMin addrMax t ∧ ∀ i, k ≤ i → i < t → ¬Seen cache s addrMin addrMax i

theorem firstSeen_skip (unseen : ¬Seen cache s addrMin addrMax k) :
    FirstSeen cache s addrMin addrMax n (k + 1) t ↔ FirstSeen cache s addrMin addrMax (n + 1) k t := by
  constructor
  · rintro ⟨⟨low,high⟩,seen,first⟩
    refine ⟨⟨by omega,by omega⟩,seen,fun i from_ before => ?_⟩
    rcases Nat.eq_or_lt_of_le from_ with rfl | behind
    · exact unseen
    · exact first i behind before
  · rintro ⟨⟨low,high⟩,seen,first⟩
    have other : k ≠ t := by
      rintro rfl
      exact unseen seen
    exact ⟨⟨by omega,by omega⟩,seen,fun i from_ before => first i (by omega) before⟩

theorem walkForward_iff : walkForward cache s addrMin addrMax n k = some t ↔ FirstSeen cache s addrMin addrMax n k t := by
  induction n generalizing k with
  | zero =>
    refine iff_of_false (by simp [walkForward]) ?_
    rintro ⟨⟨low,high⟩,-⟩
    omega
  | succ n ih =>
    rw [walkForward]
    cases here : cache.mAddrRanges[k]? with
    | none =>
      refine iff_of_false (by simp) ?_
      rintro ⟨⟨low,-⟩,⟨range,there,-⟩,-⟩
      have := List.getElem?_eq_none_iff.mp here
      have := (List.getElem?_eq_some_iff.mp there).1
      omega
    | some rk =>
      have seen_here : Seen cache s addrMin addrMax k ↔ (rk.mAddr ≤ addrMax ∧ addrMin < add64 rk.mAddr rk.mSize) ∧ rk.Compatible s := by
        simp [Seen,here]
      dsimp only
      by_cases beyond : addrMax < rk.mAddr
      · rw [if_pos beyond]
        refine iff_of_false (by simp) ?_
        rintro ⟨⟨low,-⟩,⟨range,there,⟨near,-⟩,-⟩,-⟩
        have := addr_le here there low
        omega
      · rw [if_neg beyond]
        by_cases below : add64 rk.mAddr rk.mSize ≤ addrMin
        · have unseen : ¬Seen cache s addrMin addrMax k := by
            rw [seen_here]
            omega
          rw [if_pos below,ih,firstSeen_skip unseen]
        · rw [if_neg below]
          by_cases other : rk.mSection ≠ 0 ∧ s ≠ 0 ∧ rk.mSection ≠ s
          · have unseen : ¬Seen cache s addrMin addrMax k := by
              rw [seen_here]
              rintro ⟨-,none_ | none_ | same⟩
              · exact other.1 none_
              · exact other.2.1 none_
              · exact other.2.2 same
            rw [if_pos other,ih,firstSeen_skip unseen]
          · have seen : Seen cache s addrMin addrMax k := by
              rw [seen_here]
              refine ⟨⟨by omega,by omega⟩,?_⟩
              unfold UnitAddressRange.Compatible
              tauto
            rw [if_neg other]
            constructor
            · intro same
              cases same
              exact ⟨⟨Nat.le_refl _,by omega⟩,seen,fun i from_ before => by omega⟩
            · rintro ⟨⟨low,-⟩,-,first⟩
              rcases Nat.eq_or_lt_of_le low with rfl | behind
              · rfl
              · exact absurd seen (first k (Nat.le_refl _) behind)

/-- Where the loop has found that ranges are beyond, the walk does not come. -/
theorem walkForward_limit (beyond : ∀ i range, k + n ≤ i → cache.mAddrRanges[i]? = some range → addrMax < range.mAddr)
    (bound : k + n ≤ cache.mAddrRanges.length) :
    walkForward cache s addrMin addrMax n k = walkForward cache s addrMin addrMax (cache.mAddrRanges.length - k) k := by
  apply Option.ext
  intro t
  rw [walkForward_iff,walkForward_iff]
  constructor
  · rintro ⟨⟨low,high⟩,first⟩
    exact ⟨⟨low,by omega⟩,first⟩
  · rintro ⟨⟨low,-⟩,⟨range,there,⟨near,above⟩,compatible⟩,first⟩
    refine ⟨⟨low,?_⟩,⟨range,there,⟨near,above⟩,compatible⟩,first⟩
    rcases Nat.lt_or_ge t (k + n) with inside | outside
    · exact inside
    · have := beyond t range outside there
      omega

/-- A range that the walk back stops behind. -/
def Low (cache : DwarfCache U) (addrMin j : Nat) : Prop := ∃ range, cache.mAddrRanges[j]? = some range ∧ isLow cache addrMin range

theorem walkBack_le_iff : walkBack cache addrMin k ≤ t ↔ k ≤ t ∨ ∀ j, t ≤ j → j < k → ¬Low cache addrMin j := by
  induction k with
  | zero => simp [walkBack]
  | succ k ih =>
    have low : cache.mAddrRanges[k]?.any (isLow cache addrMin) = true ↔ Low cache addrMin k := by simp [Low,Option.any_eq_true]
    rw [walkBack]
    by_cases here : Low cache addrMin k
    · rw [if_pos (low.mpr here)]
      constructor
      · exact fun le => .inl le
      · rintro (le | none_)
        · exact le
        · rcases Nat.lt_or_ge k t with less | le
          · exact less
          · exact absurd here (none_ k le (Nat.lt_succ_self k))
    · rw [if_neg (fun any => here (low.mp any)),ih]
      constructor
      · rintro (le | none_)
        · rcases Nat.eq_or_lt_of_le le with rfl | less
          · right
            intro j from_ before
            have same : j = k := by omega
            rw [same]
            exact here
          · exact .inl less
        · right
          intro j from_ before
          rcases Nat.eq_or_lt_of_le (Nat.le_of_lt_succ before) with rfl | less
          · exact here
          · exact none_ j from_ less
      · rintro (le | none_)
        · exact .inl (by omega)
        · exact .inr fun j from_ before => none_ j from_ (by omega)

end Walks

section Search

/-- What the loop asks at a place. -/
def codeProbe (cache : DwarfCache U) (addrMin addrMax k : Nat) : Ordering :=
  match cache.mAddrRanges[k]? with
  | none => .gt
  | some rk => if addrMax < rk.mAddr then .gt else if isLow cache addrMin rk then .lt else .eq

theorem findLoop_bisect {rounds l h : Nat} (bound : h ≤ cache.mAddrRanges.length)
    (beyond : ∀ i range, h ≤ i → cache.mAddrRanges[i]? = some range → addrMax < range.mAddr) :
    findLoop cache s addrMin addrMax rounds l h = (bisect (codeProbe cache addrMin addrMax) rounds l h).bind fun k =>
      walkForward cache s addrMin addrMax (cache.mAddrRanges.length - walkBack cache addrMin k) (walkBack cache addrMin k) := by
  induction rounds generalizing l h with
  | zero => rfl
  | succ rounds ih =>
    rw [findLoop,bisect]
    by_cases less : l < h
    · rw [if_pos less,if_pos less,codeProbe]
      cases here : cache.mAddrRanges[(h + l) / 2]? with
      | none =>
        have := List.getElem?_eq_none_iff.mp here
        omega
      | some rk =>
        dsimp only
        by_cases far : addrMax < rk.mAddr
        · rw [if_pos far,if_pos far]
          refine ih (by omega) fun i range from_ there => ?_
          exact Nat.lt_of_lt_of_le far (addr_le here there from_)
        · rw [if_neg far,if_neg far]
          by_cases low : isLow cache addrMin rk = true
          · rw [if_pos low,if_pos low]
            exact ih bound beyond
          · have back : walkBack cache addrMin ((h + l) / 2) ≤ (h + l) / 2 := walkBack_le_iff.mpr (.inl (Nat.le_refl _))
            rw [if_neg low,if_neg low]
            refine walkForward_limit (fun i range from_ there => beyond i range (by omega) there) (by omega)
    · rw [if_neg less,if_neg less]
      rfl

/-- The search finds a place when it stops at one from which the walks come to it. -/
theorem find_iff : findCompUnitAddrRange cache argument addrMin addrMax = some t ↔
    ∃ k, bisect (codeProbe cache addrMin addrMax) cache.mAddrRanges.length 0 cache.mAddrRanges.length = some k ∧
      FirstSeen cache (sectionIndex cache argument) addrMin addrMax (cache.mAddrRanges.length - walkBack cache addrMin k) (walkBack cache addrMin k) t := by
  have beyond : ∀ i range, cache.mAddrRanges.length ≤ i → cache.mAddrRanges[i]? = some range → addrMax < range.mAddr := by
    intro i range from_ there
    have := (List.getElem?_eq_some_iff.mp there).1
    omega
  rw [findCompUnitAddrRange,findLoop_bisect (Nat.le_refl _) beyond,Option.bind_eq_some_iff]
  simp only [walkForward_iff]

theorem meets_iff (ordered : addrMin ≤ addrMax) : range.Meets addrMin addrMax ↔ range.mAddr ≤ addrMax ∧ addrMin < range.mAddr + range.mSize := by
  have := range.nonempty
  constructor
  · rintro ⟨addr,⟨low,high⟩,from_,to_⟩
    exact ⟨by omega,by omega⟩
  · rintro ⟨near,above⟩
    rcases Nat.le_total range.mAddr addrMin with before | behind
    · exact ⟨addrMin,⟨Nat.le_refl _,ordered⟩,before,above⟩
    · exact ⟨range.mAddr,⟨behind,near⟩,Nat.le_refl _,by omega⟩

/-- A range is seen when it is sought and does not end where the address space does. -/
theorem seen_iff (ordered : addrMin ≤ addrMax) : Seen cache (sectionIndex cache argument) addrMin addrMax i ↔
    Hit cache argument addrMin addrMax i ∧ ∀ range, cache.mAddrRanges[i]? = some range → range.mAddr + range.mSize < 2 ^ 64 := by
  have sum : ∀ range : UnitAddressRange U, addrMin < add64 range.mAddr range.mSize ↔
      addrMin < range.mAddr + range.mSize ∧ range.mAddr + range.mSize < 2 ^ 64 := by
    intro range
    have := range.inside
    unfold add64
    omega
  constructor
  · rintro ⟨range,there,⟨near,above⟩,compatible⟩
    obtain ⟨above,inside⟩ := (sum range).mp above
    refine ⟨⟨range,there,(meets_iff ordered).mpr ⟨near,above⟩,compatible⟩,fun other same => ?_⟩
    rw [there] at same
    cases same
    exact inside
  · rintro ⟨⟨range,there,meets,compatible⟩,inside⟩
    obtain ⟨near,above⟩ := (meets_iff ordered).mp meets
    exact ⟨range,there,⟨near,(sum range).mpr ⟨above,inside range there⟩⟩,compatible⟩

theorem lowest_exists (hit : Hit cache argument addrMin addrMax i) : ∃ t, Lowest cache argument addrMin addrMax t := by
  classical
  have found : ∃ t, Hit cache argument addrMin addrMax t := ⟨i,hit⟩
  exact ⟨Nat.find found,Nat.find_spec found,fun j before => Nat.find_min found before⟩

/-- What is found was sought, so that it is enough to find what is lowest. -/
theorem agrees_iff (ordered : addrMin ≤ addrMax) : Agrees cache argument addrMin addrMax ↔
    ∀ t, Lowest cache argument addrMin addrMax t → findCompUnitAddrRange cache argument addrMin addrMax = some t := by
  constructor
  · exact fun agrees t lowest => (agrees t).mpr lowest
  · refine fun finds t => ⟨fun found => ?_,finds t⟩
    obtain ⟨k,-,-,seen,-⟩ := find_iff.mp found
    obtain ⟨hit,-⟩ := (seen_iff ordered).mp seen
    obtain ⟨u,lowest⟩ := lowest_exists hit
    have same := finds u lowest
    rw [found] at same
    cases same
    exact lowest

/-- The lowest range is found when it is seen and the search stops at a place from which the walk back comes to it. -/
theorem find_lowest (ordered : addrMin ≤ addrMax) (lowest : Lowest cache argument addrMin addrMax t) :
    findCompUnitAddrRange cache argument addrMin addrMax = some t ↔
      Seen cache (sectionIndex cache argument) addrMin addrMax t ∧
      ∃ k, bisect (codeProbe cache addrMin addrMax) cache.mAddrRanges.length 0 cache.mAddrRanges.length = some k ∧ walkBack cache addrMin k ≤ t := by
  rw [find_iff]
  constructor
  · rintro ⟨k,stops,⟨low,-⟩,seen,-⟩
    exact ⟨seen,k,stops,low⟩
  · rintro ⟨seen,k,stops,low⟩
    have inside : t < cache.mAddrRanges.length := by
      obtain ⟨range,there,-⟩ := seen
      exact (List.getElem?_eq_some_iff.mp there).1
    refine ⟨k,stops,⟨low,by omega⟩,seen,fun i from_ before again => ?_⟩
    exact lowest.2 i before ((seen_iff ordered).mp again).1

end Search

section Wrapping

theorem isLow_iff (small : addrMin < 2 ^ 64) (range : UnitAddressRange U) : isLow cache addrMin range = true ↔
    range.mAddr + cache.mAddrRangesMaxSize ≤ addrMin ∨
    (2 ^ 64 ≤ range.mAddr + cache.mAddrRangesMaxSize ∧ range.mAddr + cache.mAddrRangesMaxSize ≤ 2 ^ 64 + addrMin) := by
  have := range.nonempty
  have := range.inside
  have := cache.small
  rw [isLow,decide_eq_true_eq,add64]
  omega

theorem exactProbe_eq_iff (there : cache.mAddrRanges[k]? = some range) : exactProbe cache addrMin addrMax k = .eq ↔
    range.mAddr ≤ addrMax ∧ addrMin < range.mAddr + cache.mAddrRangesMaxSize := by
  rw [exactProbe,there]
  dsimp only
  by_cases far : addrMax < range.mAddr
  · rw [if_pos far]
    exact iff_of_false (by decide) (by omega)
  · rw [if_neg far]
    by_cases low : range.mAddr + cache.mAddrRangesMaxSize ≤ addrMin
    · rw [if_pos low]
      exact iff_of_false (by decide) (by omega)
    · rw [if_neg low]
      exact iff_of_true rfl (by omega)

theorem codeProbe_eq_iff (there : cache.mAddrRanges[k]? = some range) : codeProbe cache addrMin addrMax k = .eq ↔
    range.mAddr ≤ addrMax ∧ ¬isLow cache addrMin range := by
  rw [codeProbe,there]
  dsimp only
  by_cases far : addrMax < range.mAddr
  · rw [if_pos far]
    exact iff_of_false (by decide) (by omega)
  · rw [if_neg far]
    by_cases low : isLow cache addrMin range = true
    · rw [if_pos low]
      exact iff_of_false (by decide) fun both => both.2 low
    · rw [if_neg low]
      exact iff_of_true rfl ⟨by omega,low⟩

/-- Wrapping changes the answer only at places where the search without it would stop. -/
theorem codeProbe_same (small : addrMin < 2 ^ 64) (k : Nat) (other : exactProbe cache addrMin addrMax k ≠ .eq) :
    codeProbe cache addrMin addrMax k = exactProbe cache addrMin addrMax k := by
  cases there : cache.mAddrRanges[k]? with
  | none => rw [codeProbe,exactProbe,there]
  | some range =>
    rw [ne_eq,exactProbe_eq_iff there] at other
    rw [codeProbe,exactProbe,there]
    dsimp only
    by_cases far : addrMax < range.mAddr
    · rw [if_pos far,if_pos far]
    · have below : range.mAddr + cache.mAddrRangesMaxSize ≤ addrMin := by omega
      rw [if_neg far,if_neg far,if_pos below,if_pos ((isLow_iff small range).mpr (.inl below))]

theorem exactProbe_sorted (cache : DwarfCache U) (addrMin addrMax : Nat) : Sorted (exactProbe cache addrMin addrMax) := by
  intro i j order
  unfold exactProbe
  cases second : cache.mAddrRanges[j]? with
  | none => simp
  | some later =>
    have inside := (List.getElem?_eq_some_iff.mp second).1
    obtain ⟨range,first⟩ : ∃ range, cache.mAddrRanges[i]? = some range := ⟨_,List.getElem?_eq_getElem (by omega)⟩
    have le := addr_le first second order
    rw [first]
    dsimp only
    constructor
    · intro lt
      by_cases far : addrMax < later.mAddr
      · rw [if_pos far] at lt
        cases lt
      · by_cases below : later.mAddr + cache.mAddrRangesMaxSize ≤ addrMin
        · rw [if_neg (by omega),if_pos (by omega)]
        · rw [if_neg far,if_neg below] at lt
          cases lt
    · intro gt
      by_cases far : addrMax < range.mAddr
      · rw [if_pos (by omega)]
      · by_cases below : range.mAddr + cache.mAddrRangesMaxSize ≤ addrMin
        · rw [if_neg far,if_pos below] at gt
          cases gt
        · rw [if_neg far,if_neg below] at gt
          cases gt

theorem low_of_wraps (small : addrMin < 2 ^ 64) (wraps : Wraps cache addrMin j) : Low cache addrMin j := by
  obtain ⟨range,there,sum⟩ := wraps
  exact ⟨range,there,(isLow_iff small range).mpr (.inr sum)⟩

/-- From a range on that is sought, a sum looks too low only because it wraps. -/
theorem wraps_of_low (small : addrMin < 2 ^ 64) (ordered : addrMin ≤ addrMax) (hit : Hit cache argument addrMin addrMax t) (behind : t ≤ j)
    (low : Low cache addrMin j) : Wraps cache addrMin j := by
  obtain ⟨range,there,meets,-⟩ := hit
  obtain ⟨later,here,low⟩ := low
  have above := ((meets_iff ordered).mp meets).2
  have recorded := cache.recorded range (List.mem_of_getElem? there)
  have le := addr_le there here behind
  rcases (isLow_iff small later).mp low with below | sum
  · omega
  · exact ⟨later,here,sum⟩

theorem codeProbe_not_low (stops : codeProbe cache addrMin addrMax k = .eq) : ¬Low cache addrMin k := by
  rintro ⟨range,there,low⟩
  exact ((codeProbe_eq_iff there).mp stops).2 low

theorem codeProbe_lt (less : codeProbe cache addrMin addrMax k = .lt) : Low cache addrMin k := by
  rw [codeProbe] at less
  cases there : cache.mAddrRanges[k]? with
  | none =>
    rw [there] at less
    cases less
  | some range =>
    rw [there] at less
    dsimp only at less
    by_cases far : addrMax < range.mAddr
    · rw [if_pos far] at less
      cases less
    · by_cases low : isLow cache addrMin range = true
      · exact ⟨range,there,low⟩
      · rw [if_neg far,if_neg low] at less
        cases less

theorem codeProbe_gt (there : cache.mAddrRanges[k]? = some range) (greater : codeProbe cache addrMin addrMax k = .gt) : addrMax < range.mAddr := by
  rw [codeProbe,there] at greater
  dsimp only at greater
  by_cases far : addrMax < range.mAddr
  · exact far
  · rw [if_neg far] at greater
    split at greater <;> cases greater

/-- The search without wrapping stops, at or before the place at which the code stops. -/
theorem exact_stops (small : addrMin < 2 ^ 64) (ordered : addrMin ≤ addrMax) (hit : Hit cache argument addrMin addrMax t) :
    ∃ k, bisect (exactProbe cache addrMin addrMax) cache.mAddrRanges.length 0 cache.mAddrRanges.length = some k ∧
      ∀ j, bisect (codeProbe cache addrMin addrMax) cache.mAddrRanges.length 0 cache.mAddrRanges.length = some j → k ≤ j := by
  obtain ⟨range,there,meets,-⟩ := hit
  obtain ⟨near,above⟩ := (meets_iff ordered).mp meets
  have recorded := cache.recorded range (List.mem_of_getElem? there)
  have inside := (List.getElem?_eq_some_iff.mp there).1
  cases found : bisect (exactProbe cache addrMin addrMax) cache.mAddrRanges.length 0 cache.mAddrRanges.length with
  | none =>
    have missed := bisect_none (exactProbe_sorted cache addrMin addrMax) (by omega) found (Nat.zero_le t) inside
    exact absurd ((exactProbe_eq_iff there).mpr ⟨near,by omega⟩) missed
  | some k =>
    refine ⟨k,rfl,fun j again => ?_⟩
    cases side : codeProbe cache addrMin addrMax k with
    | eq =>
      have same := bisect_agree (codeProbe_same small) found side
      rw [again] at same
      cases same
      exact Nat.le_refl _
    | lt => exact Nat.le_of_lt (bisect_behind (codeProbe_same small) found side again)
    | gt =>
      obtain ⟨-,before,exact_⟩ := bisect_some found
      obtain ⟨other,here⟩ : ∃ other, cache.mAddrRanges[k]? = some other := ⟨_,List.getElem?_eq_getElem before⟩
      have far := codeProbe_gt here side
      have near := ((exactProbe_eq_iff here).mp exact_).1
      omega

theorem reached_iff (small : addrMin < 2 ^ 64) (ordered : addrMin ≤ addrMax) (hit : Hit cache argument addrMin addrMax t) :
    (∃ k, bisect (codeProbe cache addrMin addrMax) cache.mAddrRanges.length 0 cache.mAddrRanges.length = some k ∧ walkBack cache addrMin k ≤ t) ↔
    (∃ k, bisect (exactProbe cache addrMin addrMax) cache.mAddrRanges.length 0 cache.mAddrRanges.length = some k ∧ ∀ j, Wraps cache addrMin j → k < j) ∨
      ∀ j, Wraps cache addrMin j → j < t := by
  constructor
  · rintro ⟨k,stops,back⟩
    by_cases before : ∀ j, Wraps cache addrMin j → j < t
    · exact .inr before
    · left
      push Not at before
      obtain ⟨w,wraps,behind⟩ := before
      obtain ⟨k₀,exact_,first⟩ := exact_stops small ordered hit
      refine ⟨k₀,exact_,fun j wraps_j => ?_⟩
      rcases Nat.lt_or_ge k₀ j with less | ge
      · exact less
      · -- The sum at `k` wraps as well, and is not low: `w` is before it, and the walk back stops behind `w`.
        exfalso
        have far := first k stops
        obtain ⟨-,inside,there⟩ := bisect_some stops
        obtain ⟨range,here⟩ : ∃ range, cache.mAddrRanges[k]? = some range := ⟨_,List.getElem?_eq_getElem inside⟩
        have high : 2 ^ 64 + addrMin < range.mAddr + cache.mAddrRangesMaxSize := by
          obtain ⟨earlier,there_j,wrapped,-⟩ := wraps_j
          have := addr_le there_j here (by omega)
          rcases Nat.lt_or_ge (2 ^ 64 + addrMin) (range.mAddr + cache.mAddrRangesMaxSize) with high | low
          · exact high
          · exact absurd (low_of_wraps small ⟨range,here,by omega,low⟩) (codeProbe_not_low there)
        have before : w < k := by
          obtain ⟨later,there_w,-,low⟩ := wraps
          rcases Nat.lt_or_ge w k with less | ge
          · exact less
          · have := addr_le here there_w ge
            omega
        rcases walkBack_le_iff.mp back with le | none_
        · omega
        · exact none_ w behind before (low_of_wraps small wraps)
  · rintro (⟨k,exact_,behind⟩ | before)
    · obtain ⟨-,inside,there⟩ := bisect_some exact_
      obtain ⟨range,here⟩ : ∃ range, cache.mAddrRanges[k]? = some range := ⟨_,List.getElem?_eq_getElem inside⟩
      have stops : codeProbe cache addrMin addrMax k = .eq := by
        obtain ⟨near,above⟩ := (exactProbe_eq_iff here).mp there
        refine (codeProbe_eq_iff here).mpr ⟨near,fun low => ?_⟩
        rcases (isLow_iff small range).mp low with below | sum
        · omega
        · exact Nat.lt_irrefl k (behind k ⟨range,here,sum⟩)
      refine ⟨k,bisect_agree (codeProbe_same small) exact_ stops,walkBack_le_iff.mpr (.inr fun j from_ front low => ?_)⟩
      have := behind j (wraps_of_low small ordered hit from_ low)
      omega
    · have none_ : ∀ j, t ≤ j → ¬Low cache addrMin j := by
        intro j from_ low
        have := before j (wraps_of_low small ordered hit from_ low)
        omega
      obtain ⟨range,there,meets,-⟩ := id hit
      have near := ((meets_iff ordered).mp meets).1
      have inside := (List.getElem?_eq_some_iff.mp there).1
      have stops : codeProbe cache addrMin addrMax t = .eq :=
        (codeProbe_eq_iff there).mpr ⟨near,fun low => none_ t (Nat.le_refl t) ⟨range,there,low⟩⟩
      have way : ∃ k, bisect (codeProbe cache addrMin addrMax) cache.mAddrRanges.length 0 cache.mAddrRanges.length = some k := by
        refine (bisect_found_iff (by omega)).mpr ⟨t,Nat.zero_le t,inside,stops,fun k _ => ⟨fun front greater => ?_,fun behind less => ?_⟩⟩
        · obtain ⟨earlier,here⟩ : ∃ range, cache.mAddrRanges[k]? = some range := ⟨_,List.getElem?_eq_getElem (by omega)⟩
          have far := codeProbe_gt here greater
          have := addr_le here there (Nat.le_of_lt front)
          omega
        · exact none_ k (Nat.le_of_lt behind) (codeProbe_lt less)
      obtain ⟨k,found⟩ := way
      exact ⟨k,found,walkBack_le_iff.mpr (.inr fun j from_ _ => none_ j from_)⟩

end Wrapping

section Exact

/-- The search agrees with a linear scan just when the range that the scan finds is reached. -/
theorem search_agrees_iff (cache : DwarfCache U) (argument : SectionArgument) (ordered : addrMin ≤ addrMax) (inside : addrMax < 2 ^ 64) :
    Agrees cache argument addrMin addrMax ↔
      ∀ t, Lowest cache argument addrMin addrMax t → Reached cache addrMin addrMax t := by
  have small : addrMin < 2 ^ 64 := by omega
  rw [agrees_iff ordered]
  refine forall_congr' fun t => ⟨fun finds lowest => ?_,fun reached lowest => ?_⟩
  · obtain ⟨seen,way⟩ := (find_lowest ordered lowest).mp (finds lowest)
    exact ⟨((seen_iff ordered).mp seen).2,(reached_iff small ordered lowest.1).mp way⟩
  · obtain ⟨ends,way⟩ := reached lowest
    exact (find_lowest ordered lowest).mpr ⟨(seen_iff ordered).mpr ⟨lowest.1,ends⟩,(reached_iff small ordered lowest.1).mpr way⟩

/-- Sixteen bytes. -/
def sixteen (addr : Nat) (inside : addr + 16 ≤ 2 ^ 64) : UnitAddressRange Unit where
  mUnit := ()
  mSection := 0
  mAddr := addr
  mSize := 16
  nonempty := by decide
  inside := inside

/-- A file with one range. -/
def oneRange (addr : Nat) (inside : addr + 16 ≤ 2 ^ 64) : DwarfCache Unit where
  mAddrRanges := [sixteen addr inside]
  mAddrRangesMaxSize := 16
  mAddrRangesRelocatable := false
  sections := []
  sorted := List.pairwise_singleton _ _
  recorded := by simp [sixteen]
  small := by decide

theorem only_range {addr : Nat} {inside : addr + 16 ≤ 2 ^ 64} {range : UnitAddressRange Unit}
    (there : (oneRange addr inside).mAddrRanges[i]? = some range) : i = 0 ∧ range = sixteen addr inside := by
  cases i with
  | zero =>
    cases there
    exact ⟨rfl,rfl⟩
  | succ i => cases there

theorem low_range_found : Agrees (oneRange 0x1000 (by decide)) .null 0x1008 0x1008 := by
  refine (search_agrees_iff (oneRange 0x1000 (by decide)) .null (by decide) (by decide)).mpr fun t lowest => ⟨fun range there => ?_,.inr ?_⟩
  · obtain ⟨-,rfl⟩ := only_range there
    decide
  · rintro j ⟨range,there,wrapped,-⟩
    obtain ⟨-,rfl⟩ := only_range there
    exact absurd wrapped (by decide)

/-- The last sixteen bytes of the address space are not found. -/
theorem top_range_missed : ¬Agrees (oneRange (2 ^ 64 - 16) (by decide)) .null (2 ^ 64 - 8) (2 ^ 64 - 8) := by
  intro agrees
  have meets : (sixteen (2 ^ 64 - 16) (by decide)).Meets (2 ^ 64 - 8) (2 ^ 64 - 8) :=
    ⟨2 ^ 64 - 8,⟨Nat.le_refl _,Nat.le_refl _⟩,by decide,by decide⟩
  have lowest : Lowest (oneRange (2 ^ 64 - 16) (by decide)) .null (2 ^ 64 - 8) (2 ^ 64 - 8) 0 :=
    ⟨⟨_,rfl,meets,.inl rfl⟩,fun i before => absurd before (Nat.not_lt_zero i)⟩
  have found := (agrees 0).mpr lowest
  have missed : findCompUnitAddrRange (oneRange (2 ^ 64 - 16) (by decide)) .null (2 ^ 64 - 8) (2 ^ 64 - 8) = none := by decide
  rw [missed] at found
  cases found

end Exact

end Tcf.UnitRanges
