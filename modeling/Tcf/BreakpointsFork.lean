import Tcf.BreakpointsTransparency

/-! Break instructions of a process after a fork: the child's copy of the memory holds the
break bytes, and the clones of the instructions do not know them. -/
namespace Tcf.Breakpoints

open Overlay

variable {w : Target} {ref : Memory} {s next : State} {bi : BreakInstruction} {parent child : Nat}

def clones (mem child : Nat) (instructions : List BreakInstruction) : List BreakInstruction :=
  (instructions.filter fun bi => Copied mem bi).map (cloneInstruction child)

theorem cloneLoop_ok {mem : Nat} {instructions : List BreakInstruction}
    (run : cloneLoop mem child instructions s = .ok next) :
    next.contexts = s.contexts ∧ next.raw = s.raw ∧
      next.instructions = s.instructions ++ clones mem child instructions := by
  induction instructions generalizing s with
  | nil =>
    obtain rfl := Except.ok.inj run
    exact ⟨rfl,rfl,(List.append_nil _).symm⟩
  | cons bi rest ih =>
    rw [cloneLoop] at run
    by_cases copied : Copied mem bi
    · rw [if_pos copied] at run
      obtain ⟨_,run⟩ := Code.require_bind_ok.mp run
      obtain ⟨contexts,raw,listed⟩ := ih run
      refine ⟨contexts,raw,?_⟩
      simp [listed,clones,copied]
    · rw [if_neg copied] at run
      obtain ⟨contexts,raw,listed⟩ := ih run
      refine ⟨contexts,raw,?_⟩
      simp [listed,clones,copied]

/-- A fork copies the memory of the parent. -/
def forked (memory : Memory) (mem child : Nat) : Memory := Function.update memory child (memory mem)

def forkMemory (s : State) (mem child : Nat) : State := { s with raw := forked s.raw mem child }

/-- Clients write the child's memory, its instructions are removed, and it may run or exit. -/
def OnChild (w : Target) (child : Nat) (s : State) : Event → Prop
  | .remove i answers => Unbroken answers.write ∧ ∀ bi ∈ s.instructions[i]?, bi.ctx = child
  | .unplant ctx answers => ctx = child ∧ ∀ a ∈ answers, Unbroken a.write
  | .write ctx _ _ => w.mem ctx = child
  | .change _ _ => True
  | .plant _ _ => False

theorem OnChild.undisturbed {e : Event} (h : OnChild w child s e) : Undisturbed w s e := by
  cases e with
  | plant i answers => exact h.elim
  | remove i answers => exact h.1
  | unplant ctx answers => exact h.2
  | write ctx address bytes => trivial
  | change ctx now => trivial

/-- Whatever clients do to the child, they read what they wrote, and an address that no
instruction covers any more holds its original byte. -/
def Restorable (w : Target) (s : State) (child : Nat) (ref : Memory) : Prop :=
  ∀ events final, (process w).exec s events = .ok final → (process w).Meets (OnChild w child) s events →
    (final.contexts child).exited = false →
    (∀ ctx address size, w.mem ctx = child → (final.contexts ctx).exited = false → address + size < 2^64 →
      clientRead w final ctx address size =
        .ok (.ok ((List.range size).map fun k => reference w ref events child (address + k)))) ∧
    ∀ a, ¬Covered final.instructions child a → final.raw child a = reference w ref events child a

/-- The child as `plant_instruction` would leave it. -/
def AsPlanted (w : Target) (s : State) (child : Nat) (ref : Memory) : Prop :=
  ∀ bi ∈ s.instructions, bi.ctx = child → Honest w s.contexts s.raw ref bi

/-- The moment of a fork: parent and child are alive, the child is stopped, has the memory of the
parent and no break instructions, and clients see the reference memory in all others. -/
structure Forking (w : Target) (s : State) (ref : Memory) (parent child : Nat) : Prop where
  transparent : Transparent w s.contexts s.raw s.instructions ref
  fresh : ∀ bi ∈ s.instructions, bi.ctx ≠ child
  copied : s.raw child = s.raw (w.mem parent)
  alive : (s.contexts (w.mem parent)).exited = false
  live : (s.contexts child).exited = false
  stopped : (s.contexts child).stopped = true

section

variable (fork : Forking w s ref parent child)

include fork

/-- With nothing planted in the parent, the child's memory is as clients know it. -/
theorem Forking.none_planted
    (none_ : ∀ bi ∈ s.instructions, ¬Copied (w.mem parent) bi) :
    Transparent w s.contexts s.raw s.instructions (forked ref (w.mem parent) child) := by
  refine ⟨fun bi member => ?_,fork.transparent.apart,?_⟩
  · obtain ⟨canonical,code,saved⟩ := fork.transparent.honest bi member
    refine ⟨canonical,code,fun mem a covers live => ?_⟩
    rw [forked,Function.update_of_ne]
    · exact saved mem a covers live
    · rintro rfl
      exact fork.fresh bi member covers.2.1
  · intro mem a live free
    by_cases here : mem = child
    · subst here
      rw [forked,Function.update_self,fork.copied]
      apply fork.transparent.other _ a fork.alive
      rintro ⟨bi,member,covers⟩
      exact none_ bi member ⟨covers.1,covers.2.1⟩
    · rw [forked,Function.update_of_ne here]
      exact fork.transparent.other mem a live free

theorem Forking.restorable
    (none_ : ∀ bi ∈ s.instructions, ¬Copied (w.mem parent) bi) (contexts : next.contexts = s.contexts)
    (raw : next.raw = s.raw) (listed : next.instructions = s.instructions) :
    Restorable w next child (forked ref (w.mem parent) child) := by
  intro events final run meets live
  have start := fork.none_planted none_
  rw [← contexts,← raw,← listed] at start
  have h := exec_reference start run
    ((process w).meets_mono (fun s e on => OnChild.undisturbed on) meets)
  refine ⟨fun ctx address size mem alive fits => ?_,fun a => h.other child a live⟩
  have reads := clientRead_transparent h alive (mem ▸ live) fits
  rwa [mem] at reads

omit fork in
theorem cloneInstruction_covers {mem a : Nat} (soft : bi.Software) :
    Covers mem a (cloneInstruction child bi) ↔ child = mem ∧ bi.address ≤ a ∧ a < bi.address + bi.savedSize := by
  constructor
  · exact fun covers => covers.2
  · exact fun inside => ⟨⟨rfl,soft.2⟩,inside⟩

/-- The clones stand apart from each other and from what was there. -/
theorem Forking.clones_apart :
    (s.instructions ++ clones (w.mem parent) child s.instructions).Pairwise Apart := by
  refine List.pairwise_append.mpr ⟨fork.transparent.apart,?_,?_⟩
  · refine List.pairwise_map.mpr ?_
    refine List.Pairwise.imp_of_mem ?_ (fork.transparent.apart.sublist List.filter_sublist)
    intro first second one two apart mem a mine theirs
    have one : Copied (w.mem parent) first := of_decide_eq_true (List.mem_filter.mp one).2
    have two : Copied (w.mem parent) second := of_decide_eq_true (List.mem_filter.mp two).2
    obtain ⟨_,here⟩ := (cloneInstruction_covers one.1).mp mine
    obtain ⟨_,there⟩ := (cloneInstruction_covers two.1).mp theirs
    exact apart _ a ⟨one.1,one.2,here⟩ ⟨two.1,two.2,there⟩
  · intro first member second later mem a mine theirs
    obtain ⟨bi,listed,rfl⟩ := List.mem_map.mp later
    exact fork.fresh first member (mine.2.1.trans theirs.2.1.symm)

theorem Forking.clones_sizes : ∀ b ∈ s.instructions ++ clones (w.mem parent) child s.instructions,
    b.Software → b.savedSize = w.breakInst.length := by
  intro b member soft
  rcases List.mem_append.mp member with old | new
  · exact ((fork.transparent.honest b old).code soft).2.1
  · obtain ⟨bi,listed,rfl⟩ := List.mem_map.mp new
    obtain ⟨listed,copied⟩ := List.mem_filter.mp listed
    exact ((fork.transparent.honest bi listed).code (of_decide_eq_true copied).1).2.1

omit fork in
/-- Some byte of the break instruction is not zero. -/
theorem breakByte_nonzero (w : Target) : ∃ k < w.breakInst.length, breakByte w k ≠ 0 := by
  obtain ⟨byte,member,some_⟩ := w.nonzero
  obtain ⟨k,short,rfl⟩ := List.mem_iff_getElem.mp member
  exact ⟨k,short,by simpa [breakByte,short] using some_⟩

omit fork in
/-- Memory that does not hold the planted bytes is left as it is. -/
theorem removeInstruction_changed (planted : bi.planted = true) (clear : bi.plantingError = none)
    (placed : bi.addressError = none) (stopped : (s.contexts bi.ctx).stopped = true)
    (live : (s.contexts bi.ctx).exited = false) (some_ : bi.savedSize ≠ 0)
    (fits : bi.address + bi.savedSize < 2^64)
    (changed : ∃ k < bi.savedSize, s.raw (w.mem bi.ctx) (bi.address + k) ≠ bi.plantedCode k) :
    ∃ next, removeInstruction w s bi .done .done .done =
        .ok (next,{ bi with planted := false, dirty := false },true) ∧
      next.contexts = s.contexts ∧ next.raw = s.raw ∧ next.instructions = s.instructions := by
  have differs : ¬∀ k < bi.savedSize, copyAt (fun _ => 0) 0
      (fun k => s.raw (w.mem bi.ctx) (bi.address + k)) bi.savedSize k = bi.plantedCode k := by
    obtain ⟨k,short,other⟩ := changed
    intro same
    apply other
    simpa [copyAt,short] using same k short
  have request : requestRemove w s bi .done .done .done = .ok (s,true) := by
    rw [requestRemove,if_pos some_,if_pos live,restoreCode,contextReadMem,require_true live]
    simp only [Code.ok_bind,if_neg some_,accessError,if_pos fits,Code.pure_eq,if_true,if_neg differs]
  refine ⟨{ s with
    plantedSwBpCnt := if bi.virtualAddr = false then s.plantedSwBpCnt - 1 else s.plantedSwBpCnt },
    ?_,rfl,rfl,rfl⟩
  rw [removeInstruction,require_true planted,require_true clear,require_true placed,require_true stopped]
  simp only [Code.ok_bind,request,if_true]
  rfl

/-- Once anything is planted in the parent, a client's write to the child is lost when the
clone is removed: the break bytes stay. -/
theorem Forking.not_restorable
    (run : cloneBreakpointsOnProcessFork w s parent child = .ok next) (member : bi ∈ s.instructions)
    (copied : Copied (w.mem parent) bi) :
    ¬Restorable w next child (forked ref (w.mem parent) child) := by
  intro restorable
  simp only [cloneBreakpointsOnProcessFork,Code.require_bind_ok] at run
  obtain ⟨canonical,_,loop⟩ := run
  obtain ⟨contexts,raw,listed⟩ := cloneLoop_ok loop
  obtain ⟨_,size,fits,_⟩ := (fork.transparent.honest bi member).code copied.1
  have stands : ∀ k < bi.savedSize, s.raw child (bi.address + k) = breakByte w k := by
    intro k short
    have covers : Covers (w.mem parent) (bi.address + k) bi := ⟨copied.1,copied.2,by omega,by omega⟩
    have saved := ((fork.transparent.honest bi member).saved _ _ covers fork.alive).2
    rwa [Nat.add_sub_cancel_left,← fork.copied] at saved
  obtain ⟨byte,other⟩ : ∃ byte : UInt8, byte ≠ breakByte w 0 := by
    by_cases zero : breakByte w 0 = 0
    · exact ⟨1,by rw [zero]; decide⟩
    · exact ⟨0,Ne.symm zero⟩
  have apart : next.instructions.Pairwise Apart := listed ▸ fork.clones_apart
  have live : (next.contexts child).exited = false := contexts ▸ fork.live
  have positive := copied.1.2
  -- a client writes over the first break byte
  obtain ⟨instructions,after,broken,resaved_,write⟩ := write_ok child bi.address [byte] apart
    (listed ▸ fork.clones_sizes) live (by simp only [List.length_singleton]; omega)
  rw [← canonical] at broken resaved_ write
  have cloned : cloneInstruction child bi ∈ next.instructions := by
    rw [listed]
    exact List.mem_append_right _ (List.mem_map_of_mem (List.mem_filter.mpr ⟨member,decide_eq_true copied⟩))
  have covers : ∀ k < bi.savedSize, Covers child (bi.address + k) (cloneInstruction child bi) :=
    fun k short => (cloneInstruction_covers copied.1).mpr ⟨rfl,by omega,by omega⟩
  have held : ∀ k < bi.savedSize, Function.update next.raw child
      (copyAt (next.raw child) bi.address after [byte].length) child (bi.address + k) = breakByte w k := by
    intro k short
    rw [update_copyAt]
    split
    next inside =>
      have zero : k = 0 := by simpa using inside.2.2
      subst zero
      have broken := broken.inside 0 _ cloned (covers 0 short) (Nat.le_refl _) (by simp)
      simpa [cloneInstruction,newInstruction] using broken
    next =>
      rw [raw]
      exact stands k short
  -- its clone is removed
  let clone := resaved child bi.address bi.address (bi.address + [byte].length) (fun k => [byte].getD k 0)
    (cloneInstruction child bi)
  obtain ⟨j,found⟩ : ∃ j, instructions[j]? = some clone := by
    rw [resaved_]
    exact List.getElem?_of_mem (List.mem_map_of_mem cloned)
  have apart' : instructions.Pairwise Apart := by
    rw [resaved_]
    exact List.pairwise_map.mpr apart
  let middle := ({ next with instructions := instructions } : State).store child bi.address after [byte].length
  obtain ⟨k,short,some_⟩ := breakByte_nonzero w
  obtain ⟨later,remove,contexts',raw',listed'⟩ := @removeInstruction_changed w middle clone rfl rfl rfl
    (contexts ▸ fork.stopped) live positive fits ⟨k,by rw [← size] at short; exact short,by
      change Function.update next.raw child _ (w.mem child) (bi.address + k) ≠ 0
      rw [← canonical,held k (by omega)]
      exact some_⟩
  have small : bi.address + [byte].length < 2^64 := by
    simp only [List.length_singleton]
    omega
  have step₁ : (process w).step next (.write child bi.address [byte]) = .ok middle := by
    change (contextWriteMem w false next .done child bi.address _ _ >>= _) = _
    rw [write]
    rfl
  have step₂ : (process w).step middle (.remove j ⟨.done,.done,.done⟩) = .ok { later with
      instructions := later.instructions.set j { clone with planted := false, dirty := false } } := by
    have found : middle.instructions[j]? = some clone := found
    simp only [process,found,remove,Code.ok_bind]
    rfl
  have can₁ : (process w).enabled next (.write child bi.address [byte]) := ⟨live,canonical ▸ live,small⟩
  have can₂ : (process w).enabled middle (.remove j ⟨.done,.done,.done⟩) :=
    (List.getElem?_eq_some_iff.mp found).1
  have run := (process w).exec_cons.mpr ⟨can₁,middle,step₁,
    (process w).exec_cons.mpr ⟨can₂,_,step₂,(process w).exec_nil _⟩⟩
  have meets : (process w).Meets (OnChild w child) next
      [.write child bi.address [byte],.remove j ⟨.done,.done,.done⟩] := by
    rw [(process w).meets_cons_ok step₁,(process w).meets_cons_ok step₂]
    refine ⟨canonical.symm,⟨trivial,fun b at_ => ?_⟩,trivial⟩
    obtain rfl := Option.some.inj (found.symm.trans at_)
    rfl
  obtain ⟨front,back,split,set⟩ := split_at found
  have free : ¬Covered (later.instructions.set j { clone with planted := false, dirty := false }) child
      bi.address := by
    rw [listed',show middle.instructions = instructions from rfl,set,covered_replace]
    rintro (covered | ⟨b,member,covers⟩)
    · have pairs : (front ++ clone :: back).Pairwise Apart := split ▸ apart'
      have mine : Covers child bi.address clone := covers 0 (Nat.pos_of_ne_zero positive)
      exact apart_others pairs mine covered
    · obtain rfl := List.mem_singleton.mp member
      cases covers.1.1
  have final := (restorable _ _ run meets (by rw [contexts']; exact live)).2 bi.address free
  have kept := held 0 (Nat.pos_of_ne_zero positive)
  rw [Nat.add_zero] at kept
  have lost : later.raw child bi.address = breakByte w 0 := by
    rw [raw']
    exact kept
  have wrote : reference w (forked ref (w.mem parent) child)
      [.write child bi.address [byte],.remove j ⟨.done,.done,.done⟩] child bi.address = byte := by
    change written w _ child bi.address [byte] child bi.address = byte
    rw [written,← canonical,update_copyAt,if_pos ⟨rfl,Nat.le_refl _,by simp⟩]
    simp
  exact other (wrote.symm.trans (final.symm.trans lost))

end

/-- A fork of a process that clients see without breakpoints. -/
theorem forking_of_transparent (h : Transparent w s.contexts s.raw s.instructions ref)
    (fresh : ∀ bi ∈ s.instructions, bi.ctx ≠ child) (other : child ≠ w.mem parent)
    (alive : (s.contexts (w.mem parent)).exited = false) (live : (s.contexts child).exited = false)
    (stopped : (s.contexts child).stopped = true) :
    Forking w (forkMemory s (w.mem parent) child) (Function.update ref child (s.raw (w.mem parent)))
      parent child := by
  refine ⟨⟨fun bi member => ?_,h.apart,?_⟩,fresh,?_,alive,live,stopped⟩
  · obtain ⟨canonical,code,saved⟩ := h.honest bi member
    refine ⟨canonical,code,fun mem a covers exists_ => ?_⟩
    have elsewhere : mem ≠ child := fun here => fresh bi member (covers.2.1.trans here)
    simp only [forkMemory,forked,Function.update_of_ne elsewhere]
    exact saved mem a covers exists_
  · intro mem a exists_ free
    by_cases here : mem = child
    · subst here
      simp [forkMemory,forked]
    · simp only [forkMemory,forked,Function.update_of_ne here]
      exact h.other mem a exists_ free
  · simp [forkMemory,forked,Ne.symm other]

/-- After a fork the clones are as planting would leave them, and the child's memory can be
restored, exactly when nothing was planted in the memory of the parent. -/
theorem fork_restorable_iff (h : Transparent w s.contexts s.raw s.instructions ref)
    (fresh : ∀ bi ∈ s.instructions, bi.ctx ≠ child) (alive : (s.contexts (w.mem parent)).exited = false)
    (live : (s.contexts child).exited = false) (stopped : (s.contexts child).stopped = true)
    (run : cloneBreakpointsOnProcessFork w (forkMemory s (w.mem parent) child) parent child = .ok next) :
    (AsPlanted w next child (forked ref (w.mem parent) child) ∧
      Restorable w next child (forked ref (w.mem parent) child)) ↔
    ∀ bi ∈ s.instructions, ¬Copied (w.mem parent) bi := by
  have loop := run
  simp only [cloneBreakpointsOnProcessFork,Code.require_bind_ok] at loop
  obtain ⟨_,other,loop⟩ := loop
  obtain ⟨contexts,raw,listed⟩ := cloneLoop_ok loop
  have fork := forking_of_transparent h fresh other alive live stopped
  have same : forked (Function.update ref child (s.raw (w.mem parent))) (w.mem parent) child =
      forked ref (w.mem parent) child := by
    simp [forked,Ne.symm other]
  constructor
  · rintro ⟨_,restorable⟩ bi member copied
    rw [← same] at restorable
    exact fork.not_restorable run member copied restorable
  · intro none_
    have nothing : clones (w.mem parent) child (forkMemory s (w.mem parent) child).instructions = [] := by
      rw [clones,List.filter_eq_nil_iff.mpr (fun bi member => by simpa using none_ bi member)]
      rfl
    rw [nothing,List.append_nil] at listed
    constructor
    · intro bi member here
      rw [listed] at member
      exact absurd here (fresh bi member)
    · rw [← same]
      exact fork.restorable none_ contexts raw listed

theorem fork_restorable_iff_planted :
    ∃ s next, cloneBreakpointsOnProcessFork armTarget (forkMemory s 0 1) 0 1 = .ok next ∧
      ((AsPlanted armTarget next 1 (forked (fun _ _ => 0) 0 1) ∧
        Restorable armTarget next 1 (forked (fun _ _ => 0) 0 1)) ↔
      ∀ bi ∈ s.instructions, ¬Copied 0 bi) := by
  obtain ⟨s,planted,⟨alive,live,stopped,fresh⟩,next,cloned,_⟩ : ∃ s,
      (process armTarget).exec (twoInstructions 100 200) [.plant 0 inMemory] = .ok s ∧
      ((s.contexts 0).exited = false ∧ (s.contexts 1).exited = false ∧ (s.contexts 1).stopped = true ∧
        ∀ bi ∈ s.instructions, bi.ctx ≠ 1) ∧
      ∃ next, cloneBreakpointsOnProcessFork armTarget (forkMemory s 0 1) 0 1 = .ok next ∧ True := by
    decide +kernel
  have start : Transparent armTarget (twoInstructions 100 200).contexts (twoInstructions 100 200).raw
      (twoInstructions 100 200).instructions (twoInstructions 100 200).raw :=
    transparent_loose (fun _ _ _ => rfl) (by decide)
  have h := exec_reference start planted (by decide +kernel)
  exact ⟨s,next,cloned,fork_restorable_iff h fresh alive live stopped cloned⟩

/-- The child's clone is removed, and its break bytes stay in memory. -/
theorem forked_break_bytes_stay : ∃ final,
    ((process armTarget).exec (twoInstructions 100 200) [.plant 0 inMemory] >>= fun s =>
      cloneBreakpointsOnProcessFork armTarget (forkMemory s 0 1) 0 1 >>= fun s =>
        (process armTarget).exec s [.remove 2 inMemory]) = .ok final ∧
    ((∀ bi ∈ final.instructions, bi.ctx = 1 → bi.planted = false) ∧
      (List.range 4).map (fun k => final.raw 1 (100 + k)) = armTarget.breakInst ∧
      (List.range 4).map (fun k => (twoInstructions 100 200).raw 0 (100 + k)) = [0,0,0,0]) := by
  decide +kernel

end Tcf.Breakpoints
