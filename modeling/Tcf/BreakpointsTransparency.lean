import Tcf.BreakpointsPatch

/-! Clients see the memory they would see without breakpoints, as long as no instruction is
planted over the bytes of another. -/
namespace Tcf.Breakpoints

open Overlay

/-- Memory of all contexts, as clients know it. -/
abbrev Memory := Nat → Nat → UInt8

variable {w : Target} {contexts : Nat → Context} {raw ref : Memory} {s next : State}
  {bi : BreakInstruction} {instructions front back : List BreakInstruction}

/-- What is planted saves the bytes of the reference memory and stands in the raw one. -/
structure Honest (w : Target) (contexts : Nat → Context) (raw ref : Memory) (bi : BreakInstruction) :
    Prop where
  canonical : bi.virtualAddr = false → w.mem bi.ctx = bi.ctx
  code : bi.Software → bi.virtualAddr = false ∧ bi.savedSize = w.breakInst.length ∧
    bi.address + bi.savedSize < 2^64 ∧ ∀ i < bi.savedSize, bi.plantedCode i = breakByte w i
  saved : ∀ mem a, Covers mem a bi → (contexts mem).exited = false →
    bi.savedCode (a - bi.address) = ref mem a ∧ raw mem a = breakByte w (a - bi.address)

structure Transparent (w : Target) (contexts : Nat → Context) (raw : Memory)
    (instructions : List BreakInstruction) (ref : Memory) : Prop where
  honest : ∀ bi ∈ instructions, Honest w contexts raw ref bi
  apart : instructions.Pairwise Apart
  other : ∀ mem a, (contexts mem).exited = false → ¬Covered instructions mem a → raw mem a = ref mem a

variable {ctx address size : Nat}

theorem contextReadMem_ok {planting : Bool} {access : Access}
    {buf : Nat → UInt8} {result : Except Nat (Nat → UInt8)} (some_ : size ≠ 0)
    (run : contextReadMem w planting s access ctx address size buf = .ok result) :
    (∃ code, result = .error code) ∨ (access = .done ∧ address + size < 2^64 ∧
      result = .ok (let buf := copyAt buf 0 (fun k => s.raw (w.mem ctx) (address + k)) size
        if planting then buf else checkBreakpointsOnMemoryRead w s ctx address size buf)) := by
  rw [contextReadMem,Code.require_bind_ok,if_neg some_] at run
  obtain ⟨_,run⟩ := run
  by_cases fits : address + size < 2^64
  · cases access with
    | done =>
      simp only [accessError,if_pos fits] at run
      exact .inr ⟨rfl,fits,(Except.ok.inj run).symm⟩
    | fails code written =>
      simp only [accessError,if_pos fits] at run
      exact .inl ⟨_,(Except.ok.inj run).symm⟩
  · have error : accessError address size access = some efault := by cases access <;> exact if_neg fits
    simp only [error] at run
    exact .inl ⟨_,(Except.ok.inj run).symm⟩

/-- Part of one memory replaced. -/
theorem update_copyAt (memory : Memory) (m start : Nat) (source : Nat → UInt8) (n mem a : Nat) :
    Function.update memory m (copyAt (memory m) start source n) mem a =
      if mem = m ∧ start ≤ a ∧ a < start + n then source (a - start) else memory mem a := by
  by_cases here : mem = m
  · subst here
    rw [Function.update_self]
    exact if_congr (by simp) rfl rfl
  · rw [Function.update_of_ne here,if_neg fun same => here same.1]

/-- A write that fails has changed nothing. -/
def Unbroken : Access → Prop
  | .done => True
  | .fails _ written => written = 0

instance (access : Access) : Decidable (Unbroken access) :=
  match access with
  | .done => isTrue trivial
  | .fails _ written => inferInstanceAs (Decidable (written = 0))

theorem store_nothing (s : State) (mem address : Nat) (buf : Nat → UInt8) : s.store mem address buf 0 = s := by
  simp [State.store]

/-- A write by the agent itself is done, or changes nothing. -/
theorem contextWriteMem_ok {access : Access} {buf : Nat → UInt8}
    {failed : Option Nat} (unbroken : Unbroken access)
    (run : contextWriteMem w true s access ctx address size buf = .ok (next,failed)) :
    (failed.isSome ∧ next = s) ∨ (failed = none ∧ next = s.store (w.mem ctx) address buf size) := by
  rw [contextWriteMem,Code.require_bind_ok] at run
  obtain ⟨_,run⟩ := run
  split at run
  next none_ =>
    obtain ⟨rfl,rfl⟩ := Prod.mk.inj (Except.ok.inj run)
    exact .inr ⟨rfl,by rw [none_,store_nothing]⟩
  next some_ =>
    split at run
    next =>
      obtain ⟨rfl,rfl⟩ := Prod.mk.inj (Except.ok.inj run)
      exact .inl ⟨rfl,rfl⟩
    next =>
      cases access with
      | done =>
        obtain ⟨rfl,rfl⟩ := Prod.mk.inj (Except.ok.inj run)
        exact .inr ⟨rfl,rfl⟩
      | fails code written =>
        obtain rfl : written = 0 := unbroken
        obtain ⟨rfl,rfl⟩ := Prod.mk.inj (Except.ok.inj run)
        exact .inl ⟨rfl,by rw [Nat.zero_min,store_nothing]⟩

/-- What planting does to memory and to the instruction. -/
structure Planted (w : Target) (s : State) (bi : BreakInstruction) (raw : Memory) (after : BreakInstruction) :
    Prop where
  software : after.virtualAddr = false ∧ after.savedSize = w.breakInst.length
  fits : bi.address + w.breakInst.length < 2^64
  planted : ∀ i < w.breakInst.length, after.plantedCode i = breakByte w i
  saved : ∀ i < w.breakInst.length, after.savedCode i = s.raw (w.mem bi.ctx) (bi.address + i)
  raw : raw = Function.update s.raw (w.mem bi.ctx)
    (copyAt (s.raw (w.mem bi.ctx)) bi.address (breakByte w) w.breakInst.length)

/-- The instruction is written to memory when the processor cannot help. -/
def WritesCode (bi : BreakInstruction) (kernel : Kernel) : Prop :=
  bi.requestError kernel = some .unsupported ∧ bi.virtualAddr = false ∧ bi.hardware = false

instance (bi : BreakInstruction) (kernel : Kernel) : Decidable (WritesCode bi kernel) :=
  inferInstanceAs (Decidable (_ ∧ _))

theorem breakInst_some (w : Target) : w.breakInst.length ≠ 0 := by
  obtain ⟨byte,member,_⟩ := w.nonzero
  intro none_
  rw [List.length_eq_zero_iff.mp none_] at member
  cases member

variable {read write : Access}

theorem plantCode_ok {planted : BreakInstruction} {failed : Option PlantError}
    (soft : bi.virtualAddr = false) (unbroken : Unbroken write)
    (run : plantCode w s bi read write = .ok (next,planted,failed)) :
    next.contexts = s.contexts ∧ next.instructions = s.instructions ∧ planted.ctx = bi.ctx ∧
      planted.address = bi.address ∧ planted.virtualAddr = bi.virtualAddr ∧
      ((failed.isSome ∧ next.raw = s.raw) ∨ (failed = none ∧ Planted w s bi next.raw planted)) := by
  simp only [plantCode,Code.bind_ok_iff] at run
  obtain ⟨result,reads,run⟩ := run
  rcases contextReadMem_ok (breakInst_some w) reads with ⟨code,rfl⟩ | ⟨_,fits,rfl⟩
  · obtain ⟨rfl,rfl,rfl⟩ := by simpa using run
    exact ⟨rfl,rfl,rfl,rfl,rfl,.inl ⟨rfl,rfl⟩⟩
  · simp only [if_true,Code.bind_ok_iff] at run
    obtain ⟨⟨after,error⟩,writes,run⟩ := run
    obtain ⟨rfl,rfl,rfl⟩ := by simpa using run
    rcases contextWriteMem_ok unbroken writes with ⟨some_,rfl⟩ | ⟨rfl,rfl⟩
    · exact ⟨rfl,rfl,rfl,rfl,rfl,.inl ⟨by simpa using some_,rfl⟩⟩
    · refine ⟨rfl,rfl,rfl,rfl,rfl,.inr ⟨rfl,⟨soft,rfl⟩,fits,?_,?_,rfl⟩⟩
      · intro i short
        simp [copyAt,short]
      · intro i short
        simp [copyAt,short]

variable {kernel : Kernel} {after : BreakInstruction}

theorem plantInstruction_ok
    (unbroken : Unbroken write)
    (run : plantInstruction w s bi kernel read write = .ok (next,after)) :
    bi.planted = false ∧ next.contexts = s.contexts ∧ next.instructions = s.instructions ∧
      after.ctx = bi.ctx ∧ after.address = bi.address ∧ after.virtualAddr = bi.virtualAddr ∧
      ((¬after.Software ∧ next.raw = s.raw) ∨
        (WritesCode bi kernel ∧ after.Software ∧ Planted w s bi next.raw after)) := by
  simp only [plantInstruction,Code.require_bind_ok] at run
  obtain ⟨_,before,_,_,_,_,_,_,run⟩ := run
  obtain ⟨⟨later,middle,error⟩,request,run⟩ := Code.bind_ok_iff.mp run
  obtain ⟨rfl,rfl⟩ := Prod.mk.inj (Except.ok.inj run)
  refine ⟨before,?_⟩
  unfold requestPlant at request
  dsimp only at request ⊢
  split at request
  next writes =>
    obtain ⟨contexts,same,ctx,address,virtual,result⟩ := plantCode_ok (by exact writes.2.1) unbroken request
    refine ⟨contexts,same,ctx,address,virtual,?_⟩
    rcases result with ⟨failed,raw⟩ | ⟨rfl,placed⟩
    · refine .inl ⟨?_,raw⟩
      rintro ⟨on,_⟩
      cases error <;> simp_all
    · exact .inr ⟨writes,⟨rfl,placed.software.2 ▸ breakInst_some w⟩,placed.software,placed.fits,
        placed.planted,placed.saved,placed.raw⟩
  next =>
    split at request
    all_goals
      obtain ⟨rfl,rfl,rfl⟩ := by simpa using request
      exact ⟨rfl,rfl,rfl,rfl,rfl,.inl ⟨fun soft => soft.2 rfl,rfl⟩⟩

/-- The planted bytes are still in memory. -/
def Intact (w : Target) (s : State) (bi : BreakInstruction) : Prop :=
  bi.savedSize ≠ 0 ∧ (s.contexts bi.ctx).exited = false ∧
    ∀ k < bi.savedSize, s.raw (w.mem bi.ctx) (bi.address + k) = bi.plantedCode k

instance (w : Target) (s : State) (bi : BreakInstruction) : Decidable (Intact w s bi) :=
  inferInstanceAs (Decidable (_ ∧ _))

/-- Memory after a removal. -/
def restored (w : Target) (s : State) (bi : BreakInstruction) : Memory :=
  if Intact w s bi then
    Function.update s.raw (w.mem bi.ctx)
      (copyAt (s.raw (w.mem bi.ctx)) bi.address bi.savedCode bi.savedSize)
  else s.raw

theorem restoreCode_ok {removed : Bool} (some_ : bi.savedSize ≠ 0)
    (live : (s.contexts bi.ctx).exited = false) (unbroken : Unbroken write)
    (run : restoreCode w s bi read write = .ok (next,removed)) :
    next.contexts = s.contexts ∧ next.instructions = s.instructions ∧
      next.raw = if removed then restored w s bi else s.raw := by
  simp only [restoreCode,Code.bind_ok_iff] at run
  obtain ⟨result,reads,run⟩ := run
  rcases contextReadMem_ok some_ reads with ⟨code,rfl⟩ | ⟨_,_,rfl⟩
  · obtain ⟨rfl,rfl⟩ := by simpa using run
    exact ⟨rfl,rfl,rfl⟩
  · have same : (∀ k < bi.savedSize, copyAt (fun _ => 0) 0 (fun k => s.raw (w.mem bi.ctx) (bi.address + k))
        bi.savedSize k = bi.plantedCode k) ↔ Intact w s bi := by
      constructor
      · intro equal
        refine ⟨some_,live,fun k short => ?_⟩
        simpa [copyAt,short] using equal k short
      · intro intact k short
        simpa [copyAt,short] using intact.2.2 k short
    simp only [if_true,same] at run
    split at run
    next intact =>
      obtain ⟨⟨after,failed⟩,writes,run⟩ := Code.bind_ok_iff.mp run
      obtain ⟨rfl,rfl⟩ := Prod.mk.inj (Except.ok.inj run)
      rcases contextWriteMem_ok unbroken writes with ⟨some_,rfl⟩ | ⟨rfl,rfl⟩
      · obtain ⟨code,rfl⟩ := Option.isSome_iff_exists.mp some_
        exact ⟨rfl,rfl,rfl⟩
      · refine ⟨rfl,rfl,?_⟩
        simp only [restored,if_pos intact]
        rfl
    next changed =>
      obtain ⟨rfl,rfl⟩ := Prod.mk.inj (Except.ok.inj run)
      exact ⟨rfl,rfl,by simp [restored,changed]⟩

/-- A removal restores memory, or changes nothing. -/
theorem removeInstruction_ok {removed : Bool}
    (unbroken : Unbroken write)
    (run : removeInstruction w s bi kernel read write = .ok (next,after,removed)) :
    bi.planted = true ∧ next.contexts = s.contexts ∧ next.instructions = s.instructions ∧
      next.raw = (if removed then restored w s bi else s.raw) ∧
      after = if removed then { bi with planted := false, dirty := false } else bi := by
  simp only [removeInstruction,Code.require_bind_ok] at run
  obtain ⟨planted,_,_,_,run⟩ := run
  obtain ⟨⟨later,done⟩,request,run⟩ := Code.bind_ok_iff.mp run
  have memory : later.contexts = s.contexts ∧ later.instructions = s.instructions ∧
      later.raw = if done then restored w s bi else s.raw := by
    unfold requestRemove at request
    split at request
    next some_ =>
      split at request
      next live => exact restoreCode_ok some_ live unbroken request
      next gone =>
        obtain ⟨rfl,rfl⟩ := Prod.mk.inj (Except.ok.inj request)
        exact ⟨rfl,rfl,by simp [restored,Intact,gone]⟩
    next none_ =>
      obtain ⟨rfl,rfl⟩ := Prod.mk.inj (Except.ok.inj request)
      exact ⟨rfl,rfl,by simp [restored,Intact,Decidable.not_not.mp none_]⟩
  refine ⟨planted,?_⟩
  cases done with
  | true =>
    obtain ⟨rfl,rfl,rfl⟩ := by simpa using run
    exact ⟨memory.1,memory.2.1,memory.2.2,rfl⟩
  | false =>
    obtain ⟨rfl,rfl,rfl⟩ := by simpa using run
    exact ⟨memory.1,memory.2.1,memory.2.2,rfl⟩

theorem covered_replace {kept : List BreakInstruction} {mem a : Nat} :
    Covered (front ++ kept ++ back) mem a ↔ Covered (front ++ back) mem a ∨ Covered kept mem a := by
  simp only [Covered,List.mem_append]
  constructor
  · rintro ⟨b,(member | member) | member,covers⟩
    · exact .inl ⟨b,.inl member,covers⟩
    · exact .inr ⟨b,member,covers⟩
    · exact .inl ⟨b,.inr member,covers⟩
  · rintro (⟨b,member | member,covers⟩ | ⟨b,member,covers⟩)
    · exact ⟨b,.inl (.inl member),covers⟩
    · exact ⟨b,.inr member,covers⟩
    · exact ⟨b,.inl (.inr member),covers⟩

/-- One instruction gives way to at most one, and memory stays as it is under the others. -/
theorem Transparent.replace {kept : List BreakInstruction} {raw' : Memory}
    (h : Transparent w contexts raw (front ++ bi :: back) ref) (short : kept.length ≤ 1)
    (elsewhere : ∀ mem a, Covered (front ++ back) mem a → raw' mem a = raw mem a)
    (honest : ∀ b ∈ kept, Honest w contexts raw' ref b)
    (apart : ∀ b ∈ kept, ∀ mem a, Covers mem a b → ¬Covered (front ++ back) mem a)
    (other : ∀ mem a, (contexts mem).exited = false → ¬Covered (front ++ back) mem a →
      ¬Covered kept mem a → raw' mem a = ref mem a) :
    Transparent w contexts raw' (front ++ kept ++ back) ref := by
  have stays : ∀ b ∈ front ++ back, Honest w contexts raw' ref b := by
    intro b member
    have old := h.honest b (by simp only [List.mem_append,List.mem_cons] at member ⊢; tauto)
    refine ⟨old.canonical,old.code,fun mem a covers live => ?_⟩
    rw [elsewhere mem a ⟨b,member,covers⟩]
    exact old.saved mem a covers live
  have pairs := h.apart
  rw [List.pairwise_append,List.pairwise_cons] at pairs
  obtain ⟨first,⟨_,last⟩,across⟩ := pairs
  refine ⟨?_,?_,?_⟩
  · intro b member
    simp only [List.mem_append] at member
    rcases member with (member | member) | member
    · exact stays b (List.mem_append_left _ member)
    · exact honest b member
    · exact stays b (List.mem_append_right _ member)
  · rcases kept with _ | ⟨new,_ | ⟨_,_⟩⟩
    · rw [List.append_nil]
      exact List.pairwise_append.mpr ⟨first,last,fun b mb c mc => across b mb c (List.mem_cons_of_mem _ mc)⟩
    · have alone := apart new (List.mem_singleton_self new)
      rw [List.append_assoc,List.singleton_append]
      refine List.pairwise_append.mpr ⟨first,List.pairwise_cons.mpr ⟨?_,last⟩,?_⟩
      · intro b member mem a mine theirs
        exact alone mem a mine ⟨b,List.mem_append_right _ member,theirs⟩
      · intro b member c later
        rcases List.mem_cons.mp later with rfl | later
        · intro mem a theirs mine
          exact alone mem a mine ⟨b,List.mem_append_left _ member,theirs⟩
        · exact across b member c (List.mem_cons_of_mem _ later)
    · simp only [List.length_cons] at short
      omega
  · intro mem a live free
    have := covered_replace.not.mp free
    rw [not_or] at this
    exact other mem a live this.1 this.2

theorem apart_others (pairs : (front ++ bi :: back).Pairwise Apart) {mem a : Nat}
    (covers : Covers mem a bi) : ¬Covered (front ++ back) mem a := by
  rw [List.pairwise_append,List.pairwise_cons] at pairs
  obtain ⟨_,⟨later,_⟩,across⟩ := pairs
  rintro ⟨b,member,theirs⟩
  rcases List.mem_append.mp member with before | after
  · exact across b before bi (List.mem_cons_self ..) mem a theirs covers
  · exact later b after mem a covers theirs

/-- What is not planted is honest. -/
theorem Honest.loose (loose : ¬after.Software)
    (canonical : after.virtualAddr = false → w.mem after.ctx = after.ctx) :
    Honest w contexts raw ref after :=
  ⟨canonical,fun soft => absurd soft loose,fun _ _ covers => absurd covers.1 loose⟩

section

variable (h : Transparent w s.contexts s.raw (front ++ bi :: back) ref)

include h

/-- A removed instruction leaves the reference memory behind. -/
theorem Transparent.removed {kept : List BreakInstruction}
    (short : kept.length ≤ 1)
    (loose : ∀ b ∈ kept, ¬b.Software)
    (canonical : ∀ b ∈ kept, b.virtualAddr = false → w.mem b.ctx = b.ctx)
    (planted : bi.planted = true) :
    Transparent w s.contexts (restored w s bi) (front ++ kept ++ back) ref := by
  have mine := h.honest bi (by simp)
  have outside : ∀ mem a, ¬Covers mem a bi → restored w s bi mem a = s.raw mem a := by
    intro mem a free
    unfold restored
    split
    next intact =>
      by_cases here : mem = w.mem bi.ctx
      · subst here
        rw [Function.update_self]
        apply copyAt_outside
        by_contra inside
        exact free ⟨⟨planted,intact.1⟩,((mine.canonical (mine.code ⟨planted,intact.1⟩).1)).symm,
          by omega,by omega⟩
      · rw [Function.update_of_ne here]
    next => rfl
  refine h.replace short ?_ (fun b member => .loose (loose b member) (canonical b member))
    (fun b member mem a covers => absurd covers.1 (loose b member)) ?_
  · rintro mem a covered
    exact outside mem a fun covers => apart_others h.apart covers covered
  · intro mem a live free _
    by_cases covers : Covers mem a bi
    · obtain ⟨soft,ctx,low,high⟩ := covers
      obtain ⟨direct,_,_,code⟩ := mine.code soft
      have canon := mine.canonical direct
      have intact : Intact w s bi := by
        refine ⟨soft.2,ctx ▸ live,fun k inside => ?_⟩
        have stands := (mine.saved mem (bi.address + k) ⟨soft,ctx,by omega,by omega⟩ live).2
        rw [canon,ctx,stands,code k inside,Nat.add_sub_cancel_left]
      rw [restored,if_pos intact,canon,ctx,Function.update_self,copyAt_inside _ _ low high]
      exact (mine.saved mem a ⟨soft,ctx,low,high⟩ live).1
    · rw [outside mem a covers]
      refine h.other mem a live ?_
      rintro ⟨b,member,theirs⟩
      simp only [List.mem_append,List.mem_cons] at member
      rcases member with before | rfl | after
      · exact free ⟨b,List.mem_append_left _ before,theirs⟩
      · exact covers theirs
      · exact free ⟨b,List.mem_append_right _ after,theirs⟩

omit h in
theorem Transparent.kept (h : Transparent w contexts raw (front ++ bi :: back) ref) :
    Transparent w contexts raw (front ++ [bi] ++ back) ref := by
  rwa [List.append_assoc,List.singleton_append]

theorem remove_transparent {removed : Bool}
    (unbroken : Unbroken write)
    (run : removeInstruction w s bi kernel read write = .ok (next,after,removed)) :
    Transparent w next.contexts next.raw (front ++ [after] ++ back) ref ∧
      (removed = true → Transparent w next.contexts next.raw (front ++ [] ++ back) ref) := by
  obtain ⟨planted,contexts,_,memory,same⟩ := removeInstruction_ok unbroken run
  rw [contexts,memory]
  cases removed with
  | false =>
    obtain rfl := same
    exact ⟨h.kept,nofun⟩
  | true =>
    have canonical := (h.honest bi (by simp)).canonical
    refine ⟨h.removed (Nat.le_refl 1) ?_ ?_ planted,fun _ =>
      h.removed (Nat.zero_le 1) (List.forall_mem_nil _) (List.forall_mem_nil _) planted⟩
    · intro b member soft
      obtain rfl := List.mem_singleton.mp member
      rw [same] at soft
      cases soft.1
    · intro b member
      obtain rfl := List.mem_singleton.mp member
      rw [same]
      exact canonical

theorem unplantOne_transparent {kept : List BreakInstruction} {answers : Answers}
    (unbroken : Unbroken answers.write)
    (run : unplantOne w ctx answers bi s = .ok (next,kept)) :
    Transparent w next.contexts next.raw (front ++ kept ++ back) ref := by
  unfold unplantOne at run
  split at run
  next =>
    obtain ⟨rfl,rfl⟩ := Prod.mk.inj (Except.ok.inj run)
    exact h.kept
  next =>
    split at run
    next planted =>
      obtain ⟨⟨later,after,removed⟩,remove,run⟩ := Code.bind_ok_iff.mp run
      obtain ⟨rfl,rfl⟩ := Prod.mk.inj (Except.ok.inj run)
      obtain ⟨stays,gone⟩ := remove_transparent h unbroken remove
      cases removed with
      | true => exact gone rfl
      | false => exact stays
    next loose =>
      obtain ⟨rfl,rfl⟩ := Prod.mk.inj (Except.ok.inj run)
      refine h.replace (Nat.zero_le 1) (fun _ _ _ => rfl) (List.forall_mem_nil _) (List.forall_mem_nil _) ?_
      intro mem a live free _
      apply h.other mem a live
      rintro ⟨b,member,covers⟩
      simp only [List.mem_append,List.mem_cons] at member
      rcases member with before | rfl | after
      · exact free ⟨b,List.mem_append_left _ before,covers⟩
      · exact loose covers.1.1
      · exact free ⟨b,List.mem_append_right _ after,covers⟩

omit h in
theorem unplantLoop_transparent {kept : List BreakInstruction} {answers : List Answers}
    (h : Transparent w s.contexts s.raw (front ++ instructions) ref)
    (unbroken : ∀ a ∈ answers, Unbroken a.write)
    (run : unplantLoop w ctx answers instructions s = .ok (next,kept)) :
    Transparent w next.contexts next.raw (front ++ kept) ref := by
  induction instructions generalizing answers s front kept with
  | nil =>
    rw [unplantLoop] at run
    obtain ⟨rfl,rfl⟩ := Prod.mk.inj (Except.ok.inj run)
    exact h
  | cons bi rest ih =>
    cases answers with
    | nil => cases run
    | cons answers more =>
      simp only [unplantLoop,Code.bind_ok_iff] at run
      obtain ⟨⟨middle,one⟩,first,⟨last,others⟩,second,run⟩ := run
      obtain ⟨rfl,rfl⟩ := Prod.mk.inj (Except.ok.inj run)
      have step := unplantOne_transparent h (unbroken answers (List.mem_cons_self ..)) first
      have rest := ih step (fun a member => unbroken a (List.mem_cons_of_mem _ member)) second
      rwa [List.append_assoc] at rest

/-- Planting in bytes that are not planted in yet keeps the memory of the clients. -/
theorem plant_transparent
    (unbroken : Unbroken write)
    (free : WritesCode bi kernel → ∀ a, bi.address ≤ a → a < bi.address + w.breakInst.length →
      ¬Covered (front ++ back) bi.ctx a)
    (run : plantInstruction w s bi kernel read write = .ok (next,after)) :
    Transparent w next.contexts next.raw (front ++ [after] ++ back) ref := by
  obtain ⟨loose,contexts,_,ctx,address,virtual,result⟩ := plantInstruction_ok unbroken run
  have canonical : after.virtualAddr = false → w.mem after.ctx = after.ctx := by
    rw [virtual,ctx]
    exact (h.honest bi (by simp)).canonical
  have before : ∀ mem a, ¬Covered (front ++ back) mem a → ¬Covered (front ++ bi :: back) mem a := by
    rintro mem a none_ ⟨b,member,covers⟩
    simp only [List.mem_append,List.mem_cons] at member
    rcases member with early | rfl | late
    · exact none_ ⟨b,List.mem_append_left _ early,covers⟩
    · exact absurd covers.1.1 (by simp [loose])
    · exact none_ ⟨b,List.mem_append_right _ late,covers⟩
  rw [contexts]
  rcases result with ⟨off,raw⟩ | ⟨writes,soft,placed⟩
  · rw [raw]
    refine h.replace (Nat.le_refl 1) (fun _ _ _ => rfl) ?_ ?_ ?_
    · intro b member
      obtain rfl := List.mem_singleton.mp member
      exact .loose off canonical
    · intro b member mem a covers
      obtain rfl := List.mem_singleton.mp member
      exact absurd covers.1 off
    · intro mem a live none_ _
      exact h.other mem a live (before mem a none_)
  · have free := free writes
    have canon : w.mem bi.ctx = bi.ctx := ctx ▸ canonical placed.software.1
    have size := placed.software.2
    have outside : ∀ mem a, ¬(mem = bi.ctx ∧ bi.address ≤ a ∧ a < bi.address + w.breakInst.length) →
        next.raw mem a = s.raw mem a := by
      intro mem a out
      rw [placed.raw,canon]
      by_cases here : mem = bi.ctx
      · rw [here,Function.update_self]
        apply copyAt_outside
        by_contra inside
        exact out ⟨here,by omega,by omega⟩
      · rw [Function.update_of_ne here]
    refine h.replace (Nat.le_refl 1) ?_ ?_ ?_ ?_
    · intro mem a covered
      apply outside
      rintro ⟨rfl,low,high⟩
      exact free a low high covered
    · intro b member
      obtain rfl := List.mem_singleton.mp member
      refine ⟨canonical,fun _ => ⟨placed.software.1,size,?_,fun i short => placed.planted i (size ▸ short)⟩,?_⟩
      · rw [size,address]
        exact placed.fits
      rintro mem a ⟨_,rfl,low,high⟩ live
      rw [size,address] at high
      rw [address] at low ⊢
      rw [ctx] at live ⊢
      have clean := h.other bi.ctx a live (before _ _ (free a low high))
      rw [placed.saved _ (by omega),canon,Nat.add_sub_cancel' low,clean,placed.raw,canon,Function.update_self,
        copyAt_inside _ _ low high]
      exact ⟨rfl,rfl⟩
    · rintro b member mem a ⟨_,same,low,high⟩
      obtain rfl := List.mem_singleton.mp member
      rw [size,address] at high
      rw [address] at low
      rw [← same,ctx]
      exact free a low high
    · intro mem a live none_ mine
      rw [outside mem a]
      · exact h.other mem a live (before mem a none_)
      · rintro ⟨same,low,high⟩
        exact mine ⟨after,List.mem_singleton_self after,soft,ctx.trans same.symm,by omega,by omega⟩

end

/-- The reference memory after a client's write. -/
def written (w : Target) (ref : Memory) (ctx address : Nat) (bytes : List UInt8) : Memory :=
  Function.update ref (w.mem ctx)
    (copyAt (ref (w.mem ctx)) address (fun k => bytes.getD k 0) bytes.length)

theorem write_ok (ctx address : Nat) (bytes : List UInt8) (apart : s.instructions.Pairwise Apart)
    (sizes : ∀ bi ∈ s.instructions, bi.Software → bi.savedSize = w.breakInst.length)
    (live : (s.contexts ctx).exited = false) (fits : address + bytes.length < 2^64) :
    ∃ instructions after, Broken w s.instructions (w.mem ctx) address address (address + bytes.length)
        (fun k => bytes.getD k 0) after ∧
      instructions = s.instructions.map
        (resaved (w.mem ctx) address address (address + bytes.length) fun k => bytes.getD k 0) ∧
      contextWriteMem w false s .done ctx address bytes.length (fun k => bytes.getD k 0) =
        .ok ({ s with instructions }.store (w.mem ctx) address after bytes.length,none) := by
  by_cases empty : bytes.length = 0
  · refine ⟨s.instructions,fun k => bytes.getD k 0,?_,?_,?_⟩
    · rw [empty,Nat.add_zero]
      exact .refl address _
    · rw [empty,Nat.add_zero,map_resaved_empty]
    · rw [contextWriteMem,require_true live,if_pos empty,empty,store_nothing]
      rfl
  · obtain ⟨after,run,broken⟩ := checkWriteLoop_spec bytes.length apart sizes (Nat.le_refl address)
      (Nat.le_refl _) (fun k => bytes.getD k 0)
    refine ⟨_,after,broken,rfl,?_⟩
    rw [contextWriteMem,require_true live,if_neg empty,if_neg (Nat.not_le_of_lt fits)]
    simp only [checkBreakpointsOnMemoryWrite,run]
    rfl

section

variable (h : Transparent w s.contexts s.raw s.instructions ref)

include h

/-- A client's write changes the memory of clients by just these bytes. -/
theorem write_transparent {bytes : List UInt8}
    (live : (s.contexts ctx).exited = false)
    (fits : address + bytes.length < 2^64) :
    ∃ next, contextWriteMem w false s .done ctx address bytes.length (fun k => bytes.getD k 0) =
        .ok (next,none) ∧
      Transparent w next.contexts next.raw next.instructions (written w ref ctx address bytes) := by
  obtain ⟨instructions,after,broken,rfl,run⟩ := write_ok ctx address bytes h.apart
    (fun bi member soft => ((h.honest bi member).code soft).2.1) live fits
  refine ⟨_,run,?_,List.pairwise_map.mpr h.apart,?_⟩
  · intro _ member
    obtain ⟨bi,listed,rfl⟩ := List.mem_map.mp member
    obtain ⟨canonical,code,saved⟩ := h.honest bi listed
    refine ⟨canonical,code,fun mem a covers alive => ?_⟩
    have covers : Covers mem a bi := covers
    obtain ⟨same,stands⟩ := saved mem a covers alive
    change (resaved _ _ _ _ _ bi).savedCode (a - bi.address) = _ ∧
      Function.update s.raw (w.mem ctx) _ mem a = breakByte w (a - bi.address)
    rw [written,update_copyAt,update_copyAt,resaved_saved _ covers]
    by_cases inside : mem = w.mem ctx ∧ address ≤ a ∧ a < address + bytes.length
    · obtain ⟨rfl,low,high⟩ := inside
      have back : address + (a - address) = a := Nat.add_sub_cancel' low
      rw [if_pos ⟨rfl,low,high⟩,if_pos ⟨rfl,low,high⟩,if_pos ⟨rfl,low,high⟩,
        broken.inside (a - address) bi listed (by rwa [back]) (by omega) (by omega),back]
      exact ⟨rfl,rfl⟩
    · rw [if_neg inside,if_neg inside,if_neg inside]
      exact ⟨same,stands⟩
  · intro mem a alive free
    have free : ¬Covered s.instructions mem a := by
      rintro ⟨bi,listed,covers⟩
      exact free ⟨_,List.mem_map_of_mem listed,covers⟩
    change Function.update s.raw (w.mem ctx) _ mem a = _
    rw [written,update_copyAt,update_copyAt]
    refine ite_congr rfl ?_ (fun _ => h.other mem a alive free)
    rintro ⟨rfl,low,high⟩
    rw [broken.outside]
    intro covered
    rw [Nat.add_sub_cancel' low] at covered
    exact absurd covered free

/-- Every planted instruction and every write of the agent in a run keeps its bytes for itself. -/
def Undisturbed (w : Target) (s : State) : Event → Prop
  | .plant i answers => Unbroken answers.write ∧ ∀ bi ∈ s.instructions[i]?, WritesCode bi answers.kernel →
      ∀ other ∈ s.instructions, other.Software → other.ctx = bi.ctx →
        other.address + other.savedSize ≤ bi.address ∨ bi.address + w.breakInst.length ≤ other.address
  | .remove _ answers => Unbroken answers.write
  | .unplant _ answers => ∀ a ∈ answers, Unbroken a.write
  | _ => True

instance (w : Target) (s : State) (e : Event) : Decidable (Undisturbed w s e) :=
  match e with
  | .plant i answers =>
    match found : s.instructions[i]? with
    | none => decidable_of_iff (Unbroken answers.write) (by simp [Undisturbed,found])
    | some bi => decidable_of_iff (Unbroken answers.write ∧ (WritesCode bi answers.kernel →
        ∀ other ∈ s.instructions, other.Software → other.ctx = bi.ctx →
          other.address + other.savedSize ≤ bi.address ∨ bi.address + w.breakInst.length ≤ other.address))
        (by simp [Undisturbed,found])
  | .remove _ answers => inferInstanceAs (Decidable (Unbroken answers.write))
  | .unplant _ answers => inferInstanceAs (Decidable (∀ a ∈ answers, Unbroken a.write))
  | .write _ _ _ => isTrue trivial
  | .change _ _ => isTrue trivial

/-- The memory of clients: only their own writes change it. -/
def referenceStep (w : Target) (ref : Memory) : Event → Memory
  | .write ctx address bytes => written w ref ctx address bytes
  | _ => ref

def reference (w : Target) (ref : Memory) (events : List Event) : Memory :=
  events.foldl (referenceStep w) ref

omit h in
theorem split_at {i : Nat} (found : instructions[i]? = some bi) :
    ∃ front back, instructions = front ++ bi :: back ∧
      ∀ b, instructions.set i b = front ++ [b] ++ back := by
  obtain ⟨short,rfl⟩ := List.getElem?_eq_some_iff.mp found
  refine ⟨instructions.take i,instructions.drop (i + 1),?_,fun b => ?_⟩
  · rw [← List.drop_eq_getElem_cons short,List.take_append_drop]
  · rw [List.set_eq_take_append_cons_drop,if_pos short,List.append_assoc,List.singleton_append]

theorem step_transparent {e : Event}
    (can : (process w).enabled s e) (undisturbed : Undisturbed w s e)
    (run : (process w).step s e = .ok next) :
    Transparent w next.contexts next.raw next.instructions (referenceStep w ref e) := by
  cases e with
  | plant i answers =>
    have can : i < s.instructions.length := can
    obtain ⟨front,back,split,set⟩ := split_at (List.getElem?_eq_getElem can)
    simp only [process,List.getElem?_eq_getElem can] at run
    obtain ⟨⟨later,after⟩,plant,run⟩ := Code.bind_ok_iff.mp run
    obtain rfl := Except.ok.inj run
    have same := (plantInstruction_ok undisturbed.1 plant).2.2.1
    rw [split] at h
    have result := plant_transparent h undisturbed.1 ?_ plant
    · simp only [same,set]
      exact result
    · rintro writes a low high ⟨b,member,soft,ctx,first,last⟩
      have listed : b ∈ s.instructions := by
        rw [split]
        simp only [List.mem_append,List.mem_cons] at member ⊢
        tauto
      have free := undisturbed.2 _ (List.getElem?_eq_getElem can) writes b listed soft ctx
      omega
  | remove i answers =>
    have can : i < s.instructions.length := can
    obtain ⟨front,back,split,set⟩ := split_at (List.getElem?_eq_getElem can)
    simp only [process,List.getElem?_eq_getElem can] at run
    obtain ⟨⟨later,after,removed⟩,remove,run⟩ := Code.bind_ok_iff.mp run
    obtain rfl := Except.ok.inj run
    have same := (removeInstruction_ok undisturbed remove).2.2.1
    rw [split] at h
    simp only [same,set]
    exact (remove_transparent h undisturbed remove).1
  | unplant ctx answers =>
    obtain ⟨⟨later,kept⟩,loop,run⟩ := Code.bind_ok_iff.mp run
    obtain rfl := Except.ok.inj run
    rw [← List.nil_append s.instructions] at h
    have result := unplantLoop_transparent h undisturbed loop
    exact result
  | write ctx address bytes =>
    obtain ⟨live,_,fits⟩ := can
    obtain ⟨after,ok,result⟩ := write_transparent h live fits
    simp only [process,ok,Code.ok_bind] at run
    obtain rfl := Except.ok.inj run
    exact result
  | change ctx now =>
    obtain rfl := Except.ok.inj run
    have live : ∀ mem, (Function.update s.contexts ctx now mem).exited = false →
        (s.contexts mem).exited = false := by
      intro mem alive
      by_cases here : mem = ctx
      · subst here
        rw [Function.update_self] at alive
        by_contra gone
        have := can (by simpa using gone)
        rw [alive] at this
        cases this
      · rwa [Function.update_of_ne here] at alive
    refine ⟨fun bi member => ?_,h.apart,fun mem a alive => h.other mem a (live mem alive)⟩
    obtain ⟨canonical,code,saved⟩ := h.honest bi member
    exact ⟨canonical,code,fun mem a covers alive => saved mem a covers (live mem alive)⟩

/-- A client reads the reference memory. -/
theorem clientRead_transparent
    (live : (s.contexts ctx).exited = false) (alive : (s.contexts (w.mem ctx)).exited = false)
    (fits : address + size < 2^64) :
    clientRead w s ctx address size = .ok (.ok ((List.range size).map fun k => ref (w.mem ctx) (address + k))) := by
  rw [clientRead,contextReadMem,require_true live]
  by_cases none_ : size = 0
  · simp [none_]
  · simp only [Code.ok_bind,if_neg none_,accessError,if_pos fits,Code.pure_eq,Bool.false_eq_true,if_false]
    congr 2
    apply List.map_congr_left
    intro k inside
    have saved : ∀ bi ∈ s.instructions, Saved (w.mem ctx) (ref (w.mem ctx)) bi :=
      fun bi member a covers => ((h.honest bi member).saved _ a covers alive).1
    have raw : Clean s.instructions (w.mem ctx) address (address + size) (ref (w.mem ctx)) address
        (copyAt (fun _ => 0) 0 (fun k => s.raw (w.mem ctx) (address + k)) size) := by
      intro k inside free
      rw [copyAt_inside _ _ (Nat.zero_le k) (by omega)]
      exact h.other _ _ alive (free.resolve_left (by omega))
    have clean := checkReadLoop_clean saved size (Nat.le_refl address) (Nat.le_refl size) raw
    have inside := List.mem_range.mp inside
    exact clean k (by omega) (.inl (by omega))

omit h in
/-- With nothing planted, the memory of clients is the raw one. -/
theorem transparent_loose (canonical : ∀ bi ∈ instructions, bi.virtualAddr = false → w.mem bi.ctx = bi.ctx)
    (loose : ∀ bi ∈ instructions, bi.planted = false) : Transparent w contexts raw instructions raw := by
  have off : ∀ bi ∈ instructions, ¬bi.Software := by
    rintro bi member ⟨planted,_⟩
    rw [loose bi member] at planted
    cases planted
  refine ⟨fun bi member => .loose (off bi member) (canonical bi member),?_,fun _ _ _ _ => rfl⟩
  exact List.pairwise_of_forall_mem_list fun first member second _ mem a covers =>
    absurd covers.1 (off first member)

theorem exec_reference {events : List Event} {final : State}
    (run : (process w).exec s events = .ok final) (meets : (process w).Meets (Undisturbed w) s events) :
    Transparent w final.contexts final.raw final.instructions (reference w ref events) := by
  induction events generalizing s ref with
  | nil =>
    cases run
    exact h
  | cons e rest ih =>
    obtain ⟨can,next,step,run⟩ := (process w).exec_cons.mp run
    exact ih (step_transparent h can meets.1 step) run (meets.2 next step)

end

/-- In a run that plants no instruction over another one, clients read what they would read
without breakpoints, and memory is as it would be wherever no instruction stands. -/
theorem exec_transparent (w : Target) (s : State) (events : List Event) {final : State}
    (canonical : ∀ bi ∈ s.instructions, bi.virtualAddr = false → w.mem bi.ctx = bi.ctx)
    (loose : ∀ bi ∈ s.instructions, bi.planted = false)
    (run : (process w).exec s events = .ok final) (meets : (process w).Meets (Undisturbed w) s events) :
    (∀ ctx address size, (final.contexts ctx).exited = false → (final.contexts (w.mem ctx)).exited = false →
      address + size < 2^64 → clientRead w final ctx address size =
        .ok (.ok ((List.range size).map fun k => reference w s.raw events (w.mem ctx) (address + k)))) ∧
    ∀ mem a, (final.contexts mem).exited = false → ¬Covered final.instructions mem a →
      final.raw mem a = reference w s.raw events mem a := by
  have h := exec_reference (transparent_loose canonical loose) run meets
  exact ⟨fun ctx address size live alive fits => clientRead_transparent h live alive fits,h.other⟩

/-- Break instructions of four bytes, in a process that is its own memory context. -/
def armTarget : Target where
  breakInst := [0xf0,0x01,0xf0,0xe7]
  fits := by decide
  nonzero := by decide
  mem := id

def instructionAt (address : Nat) : BreakInstruction :=
  { newInstruction 0 false address ctxBpAccessInstruction 1 with valid := true }

/-- Two instructions to be planted in zeroed memory. -/
def twoInstructions (first second : Nat) : State where
  contexts := fun _ => ⟨false,false,true⟩
  raw := fun _ _ => 0
  instructions := [instructionAt first,instructionAt second]
  plantedSwBpCnt := 0

/-- The processor plants nothing, and memory is accessible. -/
def inMemory : Answers := ⟨.fails .unsupported,.done,.done⟩

theorem exec_transparent_twice : ∃ final,
    (process armTarget).exec (twoInstructions 100 104)
      [.plant 0 inMemory,.plant 1 inMemory,.write 0 98 [1,2,3,4,5,6,7,8],.remove 0 inMemory] = .ok final ∧
    clientRead armTarget final 0 98 10 = .ok (.ok [1,2,3,4,5,6,7,8,0,0]) := by
  obtain ⟨final,run,live⟩ : ∃ final, (process armTarget).exec (twoInstructions 100 104)
      [.plant 0 inMemory,.plant 1 inMemory,.write 0 98 [1,2,3,4,5,6,7,8],.remove 0 inMemory] = .ok final ∧
      (final.contexts 0).exited = false := by
    decide +kernel
  have reads := (exec_transparent armTarget _ _ (fun _ _ _ => rfl) (by decide) run (by decide +kernel)).1
    0 98 10 live live (by decide)
  exact ⟨final,run,reads.trans (by decide +kernel)⟩

/-- Planted over each other, a client sees break bytes, and they stay after both are removed. -/
theorem overlapping_instructions_show :
    (∃ final, (process armTarget).exec (twoInstructions 100 102) [.plant 0 inMemory,.plant 1 inMemory] =
      .ok final ∧ (clientRead armTarget final 0 102 2 = .ok (.ok [0xf0,0xe7]) ∧
        reference armTarget (fun _ _ => 0) [.plant 0 inMemory,.plant 1 inMemory] 0 102 = 0)) ∧
    ∃ final, (process armTarget).exec (twoInstructions 100 102)
      [.plant 0 inMemory,.plant 1 inMemory,.remove 0 inMemory,.remove 1 inMemory] = .ok final ∧
      ((∀ bi ∈ final.instructions, bi.planted = false) ∧ final.raw 0 100 = 0xf0) := by
  constructor <;> decide +kernel

end Tcf.Breakpoints
