import Tcf.Breakpoints

/-! What the checks on memory access do to a buffer and to the saved bytes, address by address. -/
namespace Tcf.Breakpoints

open Overlay

variable {w : Target}

/-- The instruction stands in memory at this address. -/
def Covers (mem a : Nat) (bi : BreakInstruction) : Prop :=
  bi.Software ∧ bi.ctx = mem ∧ bi.address ≤ a ∧ a < bi.address + bi.savedSize

/-- No address is covered twice. -/
def Apart (first second : BreakInstruction) : Prop :=
  ∀ mem a, Covers mem a first → ¬Covers mem a second

def Covered (instructions : List BreakInstruction) (mem a : Nat) : Prop :=
  ∃ bi ∈ instructions, Covers mem a bi

theorem blockEnd_after (address : Nat) : address < blockEnd address := by
  unfold blockEnd
  omega

theorem pieceSize_bound (instructions : List BreakInstruction) (address : Nat) {size : Nat}
    (some_ : size ≠ 0) : 0 < pieceSize instructions address size ∧
      pieceSize instructions address size ≤ size := by
  have after := blockEnd_after address
  unfold pieceSize
  split <;> omega

variable {bi : BreakInstruction}

theorem touches_of_covers {mem a address size : Nat} (covers : Covers mem a bi)
    (low : address ≤ a) (high : a < address + size) : Touches bi mem address size := by
  obtain ⟨soft,ctx,first,last⟩ := covers
  exact ⟨soft,ctx,by omega,by omega⟩

theorem within_low {start address size : Nat} (low : start ≤ address) (i : Nat)
    (within : Within bi address size i) : start ≤ bi.address + i := by
  have := within.1
  omega

/-- One loop over the bytes of an instruction stores those in the range of the access. -/
theorem storeLoop_within {start address : Nat} (low : start ≤ address) (size : Nat)
    (bi : BreakInstruction) (value buf : Nat → UInt8) (k : Nat) :
    storeLoop (Within bi address size) bi.address start value bi.savedSize buf k =
      if (bi.address ≤ start + k ∧ start + k < bi.address + bi.savedSize) ∧
          address ≤ start + k ∧ start + k < address + size then
        value (start + k - bi.address) else buf k := by
  rw [storeLoop_apply (within_low low)]
  refine if_congr ⟨?_,?_⟩ rfl rfl
  · rintro ⟨first,last,within,high⟩
    omega
  · rintro ⟨⟨first,last⟩,within,high⟩
    exact ⟨first,last,by omega,by omega⟩

variable {mem start address size : Nat} {instructions : List BreakInstruction} {wanted : Nat → UInt8}

/-- The saved bytes of planted instructions are the wanted ones. -/
def Saved (mem : Nat) (wanted : Nat → UInt8) (bi : BreakInstruction) : Prop :=
  ∀ a, Covers mem a bi → bi.savedCode (a - bi.address) = wanted a

/-- Saved bytes that are the wanted ones replace some bytes by wanted ones, and all that are covered. -/
theorem unpatch_fold {touched : List BreakInstruction} (low : start ≤ address)
    (here : ∀ bi ∈ touched, Touches bi mem address size ∧ Saved mem wanted bi) (buf : Nat → UInt8) (k : Nat) :
    (touched.foldl (unpatch start address size) buf k = wanted (start + k) ∨
      touched.foldl (unpatch start address size) buf k = buf k) ∧
    (Covered touched mem (start + k) → address ≤ start + k → start + k < address + size →
      touched.foldl (unpatch start address size) buf k = wanted (start + k)) := by
  induction touched generalizing buf with
  | nil => exact ⟨.inr rfl,fun ⟨_,member,_⟩ => absurd member List.not_mem_nil⟩
  | cons bi rest ih =>
    obtain ⟨touches,saved⟩ := here bi (List.mem_cons_self ..)
    obtain ⟨either,covered⟩ := ih (fun b member => here b (List.mem_cons_of_mem _ member))
      (unpatch start address size buf bi)
    have one := storeLoop_within low size bi bi.savedCode buf k
    change unpatch start address size buf bi k = _ at one
    have mine : Covers mem (start + k) bi → address ≤ start + k → start + k < address + size →
        unpatch start address size buf bi k = wanted (start + k) := by
      intro covers first last
      rw [one,if_pos ⟨covers.2.2,first,last⟩]
      exact saved _ covers
    constructor
    · rcases either with done | kept
      · exact .inl done
      · rw [List.foldl_cons,kept]
        by_cases inside : (bi.address ≤ start + k ∧ start + k < bi.address + bi.savedSize) ∧
            address ≤ start + k ∧ start + k < address + size
        · exact .inl (mine ⟨touches.1,touches.2.1,inside.1⟩ inside.2.1 inside.2.2)
        · exact .inr (one.trans (if_neg inside))
    · rintro ⟨b,member,covers⟩ first last
      rcases List.mem_cons.mp member with rfl | later
      · rcases either with done | kept
        · exact done
        · exact kept.trans (mine covers first last)
      · exact covered ⟨b,later,covers⟩ first last

/-- The wanted bytes stand before an address, and wherever nothing is planted. -/
def Clean (instructions : List BreakInstruction) (mem start stop : Nat) (wanted : Nat → UInt8)
    (address : Nat) (buf : Nat → UInt8) : Prop :=
  ∀ k, start + k < stop → start + k < address ∨ ¬Covered instructions mem (start + k) →
    buf k = wanted (start + k)

variable {buf : Nat → UInt8}

/-- One pass of the read check cleans its piece. -/
theorem Clean.piece (saved : ∀ bi ∈ instructions, Saved mem wanted bi) (low : start ≤ address)
    {stop : Nat} (clean : Clean instructions mem start stop wanted address buf) :
    Clean instructions mem start stop wanted (address + size)
      ((instructions.filter fun bi => Touches bi mem address size).foldl (unpatch start address size) buf) := by
  intro k inside done
  have here : ∀ bi ∈ instructions.filter fun bi => Touches bi mem address size,
      Touches bi mem address size ∧ Saved mem wanted bi := by
    intro bi member
    obtain ⟨listed,touches⟩ := List.mem_filter.mp member
    exact ⟨of_decide_eq_true touches,saved bi listed⟩
  obtain ⟨either,covered⟩ := unpatch_fold low here buf k
  by_cases old : start + k < address ∨ ¬Covered instructions mem (start + k)
  · rcases either with same | same
    · exact same
    · exact same.trans (clean k inside old)
  · obtain ⟨first,bi,listed,covers⟩ : address ≤ start + k ∧ Covered instructions mem (start + k) := by
      simpa [not_or] using old
    have last : start + k < address + size := by
      rcases done with last | none_
      · exact last
      · exact absurd ⟨bi,listed,covers⟩ none_
    have touches := touches_of_covers covers first last
    exact covered ⟨bi,List.mem_filter.mpr ⟨listed,decide_eq_true touches⟩,covers⟩ first last

theorem checkReadLoop_clean (saved : ∀ bi ∈ instructions, Saved mem wanted bi) (fuel : Nat)
    (low : start ≤ address) (enough : size ≤ fuel) {stop : Nat}
    (clean : Clean instructions mem start stop wanted address buf) :
    Clean instructions mem start stop wanted (address + size)
      (checkReadLoop instructions mem start fuel address size buf) := by
  induction fuel generalizing address size buf with
  | zero =>
    obtain rfl : size = 0 := Nat.le_zero.mp enough
    exact clean
  | succ fuel ih =>
    rw [checkReadLoop]
    split
    next none_ =>
      subst none_
      exact clean
    next some_ =>
      obtain ⟨positive,small⟩ := pieceSize_bound instructions address some_
      have total : address + size = address + pieceSize instructions address size +
        (size - pieceSize instructions address size) := by omega
      rw [total]
      exact ih (by omega) (by omega) (clean.piece saved low)

instance (mem a : Nat) (bi : BreakInstruction) : Decidable (Covers mem a bi) :=
  inferInstanceAs (Decidable (_ ∧ _))

/-- The instruction after an access, whose bytes it saves where it stands in their range. -/
def resaved (mem start low high : Nat) (buf : Nat → UInt8) (bi : BreakInstruction) : BreakInstruction :=
  { bi with
    savedCode := fun i =>
      if Covers mem (bi.address + i) bi ∧ low ≤ bi.address + i ∧ bi.address + i < high then
        buf (bi.address + i - start)
      else bi.savedCode i }

variable {low high : Nat}

theorem resaved_saved {mem' a : Nat} (buf : Nat → UInt8)
    (covers : Covers mem' a bi) : (resaved mem start low high buf bi).savedCode (a - bi.address) =
      if mem' = mem ∧ low ≤ a ∧ a < high then buf (a - start) else bi.savedCode (a - bi.address) := by
  obtain ⟨soft,rfl,first,last⟩ := covers
  simp only [resaved,Nat.add_sub_cancel' first]
  refine if_congr ⟨?_,?_⟩ rfl rfl
  · exact fun ⟨here,inside⟩ => ⟨here.2.1,inside⟩
  · exact fun ⟨same,inside⟩ => ⟨⟨soft,same,first,last⟩,inside⟩

/-- Only the bytes an instruction stands on matter to it. -/
theorem resaved_congr {first second : Nat → UInt8}
    (same : ∀ k, Covers mem (start + k) bi → first k = second k) (below : start ≤ low) :
    resaved mem start low high first bi = resaved mem start low high second bi := by
  have codes : (resaved mem start low high first bi).savedCode =
      (resaved mem start low high second bi).savedCode := by
    funext i
    simp only [resaved]
    split
    next inside =>
      apply same
      rw [show start + (bi.address + i - start) = bi.address + i by omega]
      exact inside.1
    next => rfl
  exact congrArg (fun saved => { bi with savedCode := saved }) codes

theorem resaved_empty :
    resaved mem start low low buf bi = bi := by
  have codes : (resaved mem start low low buf bi).savedCode = bi.savedCode := by
    funext i
    exact if_neg (by omega)
  exact congrArg (fun saved => { bi with savedCode := saved }) codes

theorem map_resaved_empty (low : Nat) (buf : Nat → UInt8) :
    instructions.map (resaved mem start low low buf) = instructions := by
  calc
    _ = instructions.map id := List.map_congr_left fun bi _ => resaved_empty
    _ = instructions := List.map_id _

/-- An instruction out of range saves nothing. -/
theorem resaved_untouched
    (out : ¬Touches bi mem address size) : resaved mem start address (address + size) buf bi = bi := by
  have codes : (resaved mem start address (address + size) buf bi).savedCode = bi.savedCode := by
    funext i
    exact if_neg fun inside => out (touches_of_covers inside.1 inside.2.1 inside.2.2)
  exact congrArg (fun saved => { bi with savedCode := saved }) codes

theorem resaved_resaved {middle : Nat} {first second : Nat → UInt8}
    (order : low ≤ middle ∧ middle ≤ high) (below : start ≤ low)
    (same : ∀ k, Covers mem (start + k) bi → middle ≤ start + k → second k = first k) :
    resaved mem start middle high second (resaved mem start low middle first bi) =
      resaved mem start low high first bi := by
  have codes : (resaved mem start middle high second (resaved mem start low middle first bi)).savedCode =
      (resaved mem start low high first bi).savedCode := by
    funext i
    change (if Covers mem (bi.address + i) bi ∧ middle ≤ bi.address + i ∧ bi.address + i < high then
      second (bi.address + i - start) else (resaved mem start low middle first bi).savedCode i) = _
    simp only [resaved]
    by_cases covers : Covers mem (bi.address + i) bi
    · by_cases late : middle ≤ bi.address + i
      · by_cases inside : bi.address + i < high
        · rw [if_pos ⟨covers,late,inside⟩,if_pos ⟨covers,by omega,inside⟩]
          apply same
          · rw [show start + (bi.address + i - start) = bi.address + i by omega]
            exact covers
          · omega
        · rw [if_neg (by omega),if_neg (by omega),if_neg (by omega)]
      · by_cases early : low ≤ bi.address + i
        · rw [if_neg (by omega),if_pos ⟨covers,early,by omega⟩,if_pos ⟨covers,early,by omega⟩]
        · rw [if_neg (by omega),if_neg (by omega),if_neg (by omega)]
    · simp [covers]
  exact congrArg (fun saved => { bi with savedCode := saved }) codes

/-- The buffer of a write: break bytes where an instruction stands, else as before. -/
structure Broken (w : Target) (instructions : List BreakInstruction) (mem start low high : Nat)
    (before after : Nat → UInt8) : Prop where
  inside : ∀ k bi, bi ∈ instructions → Covers mem (start + k) bi → low ≤ start + k → start + k < high →
    after k = breakByte w (start + k - bi.address)
  outside : ∀ k, (Covered instructions mem (start + k) → start + k < low ∨ high ≤ start + k) →
    after k = before k

/-- The loop that saves and stores at once: what it saves is what was there at first. -/
theorem patch_loop (low : start ≤ address) (n : Nat) :
    (List.range n).foldl
      (fun (saved,buf) i =>
        if Within bi address size i then
          (Function.update saved i (buf (bi.address + i - start)),
            Function.update buf (bi.address + i - start) (breakByte w i))
        else (saved,buf)) (bi.savedCode,buf) =
      ((fun i => if i < n ∧ Within bi address size i then buf (bi.address + i - start) else bi.savedCode i),
        storeLoop (Within bi address size) bi.address start (breakByte w) n buf) := by
  induction n with
  | zero => simp [storeLoop]
  | succ n ih =>
    rw [List.range_succ,List.foldl_append,ih,storeLoop_succ]
    simp only [List.foldl_cons,List.foldl_nil]
    by_cases now : Within bi address size n
    · have before := within_low low n now
      have same : storeLoop (Within bi address size) bi.address start (breakByte w) n buf
          (bi.address + n - start) = buf (bi.address + n - start) := by
        rw [storeLoop_apply (within_low low),if_neg]
        omega
      rw [if_pos now,if_pos now,same]
      congr 1
      funext i
      by_cases last : i = n
      · rw [last,Function.update_self,if_pos ⟨Nat.lt_succ_self n,now⟩]
      · rw [Function.update_of_ne last]
        refine if_congr ⟨?_,?_⟩ rfl rfl
        · rintro ⟨early,within⟩
          exact ⟨by omega,within⟩
        · rintro ⟨early,within⟩
          exact ⟨by omega,within⟩
    · rw [if_neg now,if_neg now]
      congr 1
      funext i
      refine if_congr ⟨?_,?_⟩ rfl rfl
      · rintro ⟨early,within⟩
        exact ⟨by omega,within⟩
      · rintro ⟨early,within⟩
        refine ⟨?_,within⟩
        rcases Nat.lt_or_eq_of_le (Nat.le_of_lt_succ early) with less | rfl
        · exact less
        · exact absurd within now

theorem patch_eq (soft : bi.Software) (ctx : bi.ctx = mem)
    (low : start ≤ address) : patch w start address size bi buf =
      (resaved mem start address (address + size) buf bi,
        storeLoop (Within bi address size) bi.address start (breakByte w) bi.savedSize buf) := by
  have codes : (fun i => if i < bi.savedSize ∧ Within bi address size i then
      buf (bi.address + i - start) else bi.savedCode i) =
      (resaved mem start address (address + size) buf bi).savedCode := by
    funext i
    refine if_congr ⟨?_,?_⟩ rfl rfl
    · rintro ⟨short,within,high⟩
      exact ⟨⟨soft,ctx,by omega,by omega⟩,by omega,by omega⟩
    · rintro ⟨⟨_,_,_,short⟩,within,high⟩
      exact ⟨by omega,by omega,by omega⟩
  rw [patch,patch_loop low,codes]
  rfl

/-- One pass of the write check saves the bytes of its piece and breaks them. -/
theorem patchAll_spec (apart : instructions.Pairwise Apart)
    (sizes : ∀ bi ∈ instructions, bi.Software → bi.savedSize = w.breakInst.length) (low : start ≤ address)
    (buf : Nat → UInt8) :
    ∃ after, patchAll w mem start address size instructions buf =
        .ok (instructions.map (resaved mem start address (address + size) buf),after) ∧
      Broken w instructions mem start address (address + size) buf after := by
  induction instructions generalizing buf with
  | nil => exact ⟨buf,rfl,fun _ _ member => absurd member List.not_mem_nil,fun _ _ => rfl⟩
  | cons bi rest ih =>
    obtain ⟨alone,apart⟩ := List.pairwise_cons.mp apart
    have ih := ih apart fun b member => sizes b (List.mem_cons_of_mem _ member)
    by_cases touches : Touches bi mem address size
    · have one := storeLoop_within low size bi (breakByte w) buf
      generalize middle_ : storeLoop (Within bi address size) bi.address start (breakByte w) bi.savedSize buf =
        middle at one
      have off : ∀ k, ¬Covers mem (start + k) bi → middle k = buf k := by
        intro k free
        rw [one,if_neg]
        exact fun inside => free ⟨touches.1,touches.2.1,inside.1⟩
      obtain ⟨after,run,broken⟩ := ih middle
      refine ⟨after,?_,?_,?_⟩
      · have same : rest.map (resaved mem start address (address + size) middle) =
            rest.map (resaved mem start address (address + size) buf) := by
          apply List.map_congr_left
          intro b member
          apply resaved_congr _ low
          exact fun k covers => off k fun mine => alone b member mem _ mine covers
        have length := sizes bi (List.mem_cons_self ..) touches.1
        simp only [patchAll,if_pos touches,require_true length.symm,Code.ok_bind,
          patch_eq touches.1 touches.2.1 low,middle_,run,same]
        rfl
      · intro k b member covers first last
        rcases List.mem_cons.mp member with rfl | later
        · have free : ¬Covered rest mem (start + k) := by
            rintro ⟨b',member',covers'⟩
            exact alone b' member' mem _ covers covers'
          rw [broken.outside k fun covered => absurd covered free,one,if_pos ⟨covers.2.2,first,last⟩]
        · exact broken.inside k b later covers first last
      · intro k out
        rw [broken.outside k fun ⟨b,member,covers⟩ => out ⟨b,List.mem_cons_of_mem _ member,covers⟩,one,if_neg]
        rintro ⟨inside,first,last⟩
        have := out ⟨bi,List.mem_cons_self ..,touches.1,touches.2.1,inside⟩
        omega
    · obtain ⟨after,run,broken⟩ := ih buf
      refine ⟨after,?_,?_,?_⟩
      · simp only [patchAll,if_neg touches,run,Code.ok_bind,List.map_cons,resaved_untouched touches]
        rfl
      · intro k b member covers first last
        rcases List.mem_cons.mp member with rfl | later
        · exact absurd (touches_of_covers covers first last) touches
        · exact broken.inside k b later covers first last
      · exact fun k out => broken.outside k fun ⟨b,member,covers⟩ => out ⟨b,List.mem_cons_of_mem _ member,covers⟩

theorem covered_resaved {a : Nat} :
    Covered (instructions.map (resaved mem start low high buf)) mem a ↔ Covered instructions mem a := by
  constructor
  · rintro ⟨_,member,covers⟩
    obtain ⟨bi,listed,rfl⟩ := List.mem_map.mp member
    exact ⟨bi,listed,covers⟩
  · rintro ⟨bi,listed,covers⟩
    exact ⟨_,List.mem_map_of_mem listed,covers⟩

theorem Broken.trans {middle : Nat} {first second third : Nat → UInt8}
    (order : low ≤ middle ∧ middle ≤ high) (one : Broken w instructions mem start low middle first second)
    (two : Broken w (instructions.map (resaved mem start low middle first)) mem start middle high second third) :
    Broken w instructions mem start low high first third := by
  constructor
  · intro k bi listed covers after before
    by_cases late : middle ≤ start + k
    · exact two.inside k (resaved mem start low middle first bi) (List.mem_map_of_mem listed) covers late before
    · rw [two.outside k fun _ => by omega]
      exact one.inside k bi listed covers after (by omega)
  · intro k out
    rw [two.outside k,one.outside k]
    · intro covered
      have := out covered
      omega
    · intro covered
      have := out (covered_resaved.mp covered)
      omega

theorem checkWriteLoop_done (fuel : Nat) (buf : Nat → UInt8) :
    checkWriteLoop w mem start fuel address 0 instructions buf = .ok (instructions,buf) := by
  cases fuel <;> simp [checkWriteLoop]

theorem Broken.refl (low : Nat) (buf : Nat → UInt8) : Broken w instructions mem start low low buf buf :=
  ⟨fun k _ _ _ first last => by omega,fun _ _ => rfl⟩

theorem checkWriteLoop_spec (fuel : Nat) (apart : instructions.Pairwise Apart)
    (sizes : ∀ bi ∈ instructions, bi.Software → bi.savedSize = w.breakInst.length) (low : start ≤ address)
    (enough : size ≤ fuel) (buf : Nat → UInt8) :
    ∃ after, checkWriteLoop w mem start fuel address size instructions buf =
        .ok (instructions.map (resaved mem start address (address + size) buf),after) ∧
      Broken w instructions mem start address (address + size) buf after := by
  induction fuel generalizing address size instructions buf with
  | zero =>
    obtain rfl : size = 0 := Nat.le_zero.mp enough
    refine ⟨buf,?_,.refl address buf⟩
    rw [checkWriteLoop_done,Nat.add_zero,map_resaved_empty]
  | succ fuel ih =>
    by_cases none_ : size = 0
    · subst none_
      refine ⟨buf,?_,.refl address buf⟩
      rw [checkWriteLoop_done,Nat.add_zero,map_resaved_empty]
    · obtain ⟨positive,small⟩ := pieceSize_bound instructions address none_
      generalize piece : pieceSize instructions address size = sz at positive small
      obtain ⟨middle,first,one⟩ : ∃ middle, patchAll w mem start address sz instructions buf = _ ∧
        Broken w instructions mem start address (address + sz) buf middle := patchAll_spec apart sizes low buf
      have apart' : (instructions.map (resaved mem start address (address + sz) buf)).Pairwise Apart :=
        List.pairwise_map.mpr apart
      have sizes' : ∀ bi ∈ instructions.map (resaved mem start address (address + sz) buf),
          bi.Software → bi.savedSize = w.breakInst.length := by
        intro _ member
        obtain ⟨bi,listed,rfl⟩ := List.mem_map.mp member
        exact sizes bi listed
      obtain ⟨after,second,two⟩ := ih apart' sizes' (by omega : start ≤ address + sz)
        (by omega : size - sz ≤ fuel) middle
      rw [show address + sz + (size - sz) = address + size by omega] at second two
      refine ⟨after,?_,one.trans ⟨by omega,by omega⟩ two⟩
      rw [checkWriteLoop,if_neg none_]
      simp only [piece,first,Code.ok_bind,second,List.map_map]
      congr 2
      apply List.map_congr_left
      intro bi listed
      apply resaved_resaved ⟨by omega,by omega⟩ low
      intro k covers late
      exact one.outside k fun _ => .inr late

end Tcf.Breakpoints
