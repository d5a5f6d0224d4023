import Tcf.RunControlStep
import Tcf.RunControlResume
import Mathlib.Data.Nat.Count
import Mathlib.Order.WellFounded

/-! Steps of one instruction and of a range end when they should, except that an instruction
that branches to itself is no step. -/
namespace Tcf.RunControl

variable {b : Build} {t : Target} {ctx : Address} {w : World} {m : Machine}

/-- The bit of a mode is set in what the target is said to be able to do. -/
def Offers (b : Build) (t : Target) (ctx : Address) (mode : Int) : Prop := getResumeModes b t ctx &&& bit mode ≠ 0

instance (b : Build) (t : Target) (ctx : Address) (mode : Int) : Decidable (Offers b t ctx mode) :=
  inferInstanceAs (Decidable (_ ≠ _))

/-- No other module has an error to report. -/
structure World.Quiet (w : World) : Prop where
  top : ∃ n, w.topFrame = .ok n
  frames : ∀ n, ∃ info, w.frameInfo n = .ok info

/-- A thread that executes instructions, and how far it gets each time it is resumed. -/
structure Execution where
  pc : Nat → UInt64
  world : Nat → World
  resumed : Int → Nat → Nat → Nat → Nat
  quiet : ∀ k, (world k).Quiet
  single : ∀ rangeStart rangeEnd k, resumed RM_STEP_INTO rangeStart rangeEnd k = k + 1
  moves : ∀ rangeStart rangeEnd k, k < resumed RM_STEP_INTO_RANGE rangeStart rangeEnd k
  inside : ∀ rangeStart rangeEnd k j, k < j → j < resumed RM_STEP_INTO_RANGE rangeStart rangeEnd k →
    rangeStart ≤ (pc j).toNat ∧ (pc j).toNat < rangeEnd

/-- A thread for which `continue_debug_context` has begun a step. -/
def begun (e : Execution) (frameLevel mode cnt : Int) (rangeStart rangeEnd : Nat) : Machine where
  exited := false
  pendingIntercept := false
  stopped := true
  intercepted := false
  pc := (e.pc 0).toNat
  pcError := 0
  frameLevel := frameLevel
  mode := mode
  cnt := 0
  lineCnt := 0
  repeatCnt := cnt
  rangeStart := rangeStart
  rangeEnd := rangeEnd
  frameFp := 0
  bpAddr := 0
  bpInfo := none
  funcId := none
  funcIdOut := none
  inlined := 0
  setFrameLevel := false
  codeArea := none
  done := none
  continueMode := RM_RESUME

/-- What is left of a step when the thread has stopped and the step machine has looked at it. -/
def sync (b : Build) (t : Target) (ctx : Address) (w : World) (m : Machine) : Option Machine :=
  match updateStepMachineStateInlined b t ctx w m with
  | .returned m => some m
  | _ => none

def stopAndSync (b : Build) (t : Target) (ctx : Address) (w : World) (m : Machine) (pc : UInt64) : Option Machine :=
  match eventContextStopped m pc with
  | .next m => sync b t ctx w m
  | _ => none

/-- The number of instructions executed at each stop, and the step then, until it is over. -/
def Execution.run (e : Execution) (b : Build) (t : Target) (ctx : Address) (m : Machine) : Nat → Option (Nat × Machine)
  | 0 => (sync b t ctx (e.world 0) m).map ((0,·))
  | i + 1 => (run e b t ctx m i).bind fun (k,m) =>
    if m.pendingIntercept = true then none
    else
      let k := e.resumed m.continueMode m.rangeStart m.rangeEnd k
      (stopAndSync b t ctx (e.world k) m (e.pc k)).map ((k,·))

/-- The step is reported done after a number of instructions. -/
def Execution.Reported (e : Execution) (b : Build) (t : Target) (ctx : Address) (m : Machine) (k : Nat) : Prop :=
  ∃ i final, e.run b t ctx m i = some (k,final) ∧ final.pendingIntercept = true ∧ final.done = some .step

variable {mode : Int}

section Rounds

/-- A thread stopped in the middle of a step of one kind. -/
structure Ready (mode : Int) (m : Machine) : Prop where
  exited : m.exited = false
  pending : m.pendingIntercept = false
  stopped : m.stopped = true
  intercepted : m.intercepted = false
  clear : m.pcError = 0
  mode : m.mode = mode
  line : m.lineCnt = 0
  repeats : 0 < m.repeatCnt
  bp : m.bpInfo = none
  level : m.setFrameLevel = false
  done : m.done = none

theorem checkContext_ready (state : t.hasState ctx = true) (ready : Ready mode m) :
    checkContext t ctx w m = .next m.fresh := by
  simp [checkContext,state,ready.exited,ready.pending,ready.clear,ready.stopped,ready.intercepted,ready.repeats,ready.done]

theorem fresh_fields (m : Machine) :
    m.fresh.mode = m.mode ∧ m.fresh.cnt = m.cnt ∧ m.fresh.lineCnt = m.lineCnt ∧ m.fresh.bpInfo = m.bpInfo ∧
      m.fresh.pc = m.pc ∧ m.fresh.rangeStart = m.rangeStart ∧ m.fresh.rangeEnd = m.rangeEnd := by
  unfold Machine.fresh
  split <;> exact ⟨rfl,rfl,rfl,rfl,rfl,rfl,rfl⟩

/-- Frames do not matter to steps by instructions. -/
theorem stepByFrames_plain (quiet : w.Quiet) (mode : m.mode = RM_STEP_INTO ∨ m.mode = RM_STEP_INTO_RANGE)
    (bp : m.bpInfo = none) : stepByFrames b t ctx w m = .next m := by
  obtain ⟨n,top⟩ := quiet.top
  obtain ⟨info,frame⟩ := quiet.frames STACK_TOP_FRAME
  have switch : frameSwitch w m n = .next (m,0) := by
    rcases mode with mode | mode <;> rw [frameSwitch,mode] <;> rfl
  have stays : ∀ info tgt, stepInlined t ctx m info tgt = .next m := by
    intro info tgt
    rcases mode with mode | mode <;> rw [stepInlined,mode] <;> rfl
  have none_ : ({ m with bpInfo := none } : Machine) = m := by rw [← bp]
  obtain ⟨tgt,inner⟩ := quiet.frames (info.inlined - m.inlined)
  simp [stepByFrames,top,switch,runTo,none_,inlinedFrame,frame,inner,stays]

/-- The mode that steps of one kind are made of. -/
def pace (t : Target) (ctx : Address) (mode : Int) : Int := if t.canResume ctx mode = true then mode else RM_STEP_INTO

/-- A step of one instruction takes its range from the PC. -/
def aim (m : Machine) : Machine :=
  if m.mode = RM_STEP_INTO ∧ m.cnt = 0 then m.range m.pc (following m.pc) else m

theorem selectContinueMode_plain (plain : mode = RM_STEP_INTO ∨ mode = RM_STEP_INTO_RANGE)
    (is : m.mode = mode) (line : m.lineCnt = 0) (accepted : t.canResume ctx (pace t ctx mode) = true) :
    selectContinueMode t ctx m = .returned (m.continueIn (pace t ctx mode)) := by
  by_cases can : t.canResume ctx mode = true
  · simp [selectContinueMode,tryStepMode,line,is,tryMode,can,pace]
  · have other : mode = RM_STEP_INTO_RANGE := by
      rcases plain with rfl | other
      · rw [pace,if_neg can] at accepted
        exact absurd accepted can
      · exact other
    subst other
    rw [pace,if_neg can] at accepted ⊢
    have lines : lineFallback.lookup RM_STEP_INTO_RANGE = none := by decide
    have overs : overFallback.lookup RM_STEP_INTO_RANGE = none := by decide
    have ranges : rangeFallback.lookup RM_STEP_INTO_RANGE = some RM_STEP_INTO := by decide
    simp [selectContinueMode,tryStepMode,line,is,tryMode,can,tryFallback,Machine.continueIn,lines,overs,ranges,accepted]

theorem modeSwitch_plain (plain : m.mode = RM_STEP_INTO ∨ m.mode = RM_STEP_INTO_RANGE) :
    modeSwitch b w m = stepRange (aim m) := by
  rcases plain with mode | mode
  · simp [modeSwitch,mode,aim,stepInstruction,instructionModes,RM_STEP_INTO,RM_RESUME,RM_REVERSE_RESUME,
      RM_UNTIL_ACTIVE,RM_REVERSE_UNTIL_ACTIVE]
  · simp [modeSwitch,mode,aim,instructionModes,rangeModes,RM_STEP_INTO,RM_STEP_OVER,RM_REVERSE_STEP_INTO,
      RM_REVERSE_STEP_OVER,RM_STEP_INTO_RANGE,RM_RESUME,RM_REVERSE_RESUME,RM_UNTIL_ACTIVE,RM_REVERSE_UNTIL_ACTIVE]

theorem aim_fields (m : Machine) :
    (aim m).mode = m.mode ∧ (aim m).cnt = m.cnt ∧ (aim m).lineCnt = m.lineCnt ∧ (aim m).pc = m.pc := by
  unfold aim
  split <;> exact ⟨rfl,rfl,rfl,rfl⟩

theorem aim_later (later : m.cnt ≠ 0) : aim m = m := by simp [aim,later]

theorem fresh_later (later : m.cnt ≠ 0) : m.fresh = m := by simp [Machine.fresh,later]

section Plain

variable {mode : Int} (quiet : w.Quiet) (state : t.hasState ctx = true)
  (plain : mode = RM_STEP_INTO ∨ mode = RM_STEP_INTO_RANGE) (ready : Ready mode m)

include quiet state plain ready

theorem update_enters :
    updateStepMachineState b t ctx w m =
      (stepRange (aim m.fresh) >>= selectContinueMode t ctx) := by
  obtain ⟨is,_,_,bp,_⟩ := fresh_fields m
  have plain : m.fresh.mode = RM_STEP_INTO ∨ m.fresh.mode = RM_STEP_INTO_RANGE := by rwa [is,ready.mode]
  simp only [updateStepMachineState,checkContext_ready state ready,EarlyReturn.next_bind,
    stepByFrames_plain quiet plain (bp.trans ready.bp),modeSwitch_plain plain]

theorem update_ends (later : 0 < m.cnt) (out : m.Outside) :
    updateStepMachineState b t ctx w m = .returned (m.finish .step) := by
  rw [update_enters quiet state plain ready,fresh_later later.ne',aim_later later.ne',stepRange,if_pos ⟨later,out⟩]
  rfl

theorem update_goes_on (accepted : t.canResume ctx (pace t ctx mode) = true) (stays : 0 < m.cnt → ¬m.Outside) :
    updateStepMachineState b t ctx w m = .returned ((aim m.fresh).continueIn (pace t ctx mode)) := by
  obtain ⟨is,cnt,line,_⟩ := fresh_fields m
  obtain ⟨same,count,lines,_⟩ := aim_fields m.fresh
  have inside : stepRange (aim m.fresh) = .next (aim m.fresh) := by
    apply if_neg
    rintro ⟨later,out⟩
    rw [count,cnt] at later
    rw [fresh_later later.ne',aim_later later.ne'] at out
    exact stays later out
  rw [update_enters quiet state plain ready,inside]
  exact selectContinueMode_plain plain ((same.trans is).trans ready.mode) ((lines.trans line).trans ready.line) accepted

end Plain

/-- A step of one kind that goes on: the range it is to leave, the stops seen, and the steps left. -/
structure Going (t : Target) (ctx : Address) (mode : Int) (rangeStart rangeEnd : Nat) (cnt repeats : Int) (m : Machine) :
    Prop where
  ready : Ready mode m
  continueMode : m.continueMode = pace t ctx mode
  rangeStart : m.rangeStart = rangeStart
  rangeEnd : m.rangeEnd = rangeEnd
  cnt : m.cnt = cnt
  repeatCnt : m.repeatCnt = repeats

/-- The range of a step that begins. -/
def rangeOf (mode : Int) (pc rangeStart rangeEnd : Nat) : Nat × Nat :=
  if mode = RM_STEP_INTO then (pc,following pc) else (rangeStart,rangeEnd)

theorem Ready.aimed (ready : Ready mode m) : Ready mode ((aim m.fresh).continueIn (pace t ctx mode)) := by
  obtain ⟨exited,pending,stopped,intercepted,clear,is,line,repeats,bp,level,done⟩ := ready
  unfold aim Machine.fresh
  split <;> split <;> exact ⟨exited,pending,stopped,intercepted,clear,is,line,repeats,bp,by first | exact level | rfl,done⟩

theorem going_begun (ready : Ready mode m) (first : m.cnt = 0) :
    Going t ctx mode (rangeOf mode m.pc m.rangeStart m.rangeEnd).1 (rangeOf mode m.pc m.rangeStart m.rangeEnd).2 0
      m.repeatCnt ((aim m.fresh).continueIn (pace t ctx mode)) := by
  have fresh : m.fresh.cnt = 0 ∧ m.fresh.mode = mode := by
    obtain ⟨is,cnt,_⟩ := fresh_fields m
    exact ⟨cnt.trans first,is.trans ready.mode⟩
  have repeats : m.fresh.repeatCnt = m.repeatCnt := by rw [Machine.fresh,if_pos first]
  obtain ⟨_,_,_,_,pc,start,stop⟩ := fresh_fields m
  by_cases single : mode = RM_STEP_INTO
  · have aimed : aim m.fresh = m.fresh.range m.fresh.pc (following m.fresh.pc) := if_pos ⟨fresh.2.trans single,fresh.1⟩
    refine ⟨ready.aimed,rfl,?_,?_,?_,?_⟩ <;> rw [aimed]
    · rw [rangeOf,if_pos single]
      exact pc
    · rw [rangeOf,if_pos single]
      exact congrArg following pc
    · exact fresh.1
    · exact repeats
  · have aimed : aim m.fresh = m.fresh := if_neg fun both => single (fresh.2.symm.trans both.1)
    refine ⟨ready.aimed,rfl,?_,?_,?_,?_⟩ <;> rw [aimed]
    · rw [rangeOf,if_neg single]
      exact start
    · rw [rangeOf,if_neg single]
      exact stop
    · exact fresh.1
    · exact repeats

/-- The next of the repeated steps, before the step machine looks at it. -/
def again (m : Machine) : Machine :=
  { m.finish .step with repeatCnt := m.repeatCnt - 1, cnt := 0, lineCnt := 0, done := none }

/-- The last of the repeated steps is over. -/
def ended (m : Machine) : Machine := { m.finish .step with repeatCnt := m.repeatCnt - 1, pendingIntercept := true }

theorem Ready.again (ready : Ready mode m) (more : 1 < m.repeatCnt) : Ready mode (again m) :=
  ⟨ready.exited,ready.pending,ready.stopped,ready.intercepted,ready.clear,ready.mode,rfl,by
    change 0 < m.repeatCnt - 1
    omega,ready.bp,ready.level,rfl⟩

theorem showFrame_plain (level : m.setFrameLevel = false) : showFrame w m = .next m := by simp [showFrame,level]

section Plain

variable {mode : Int} (quiet : w.Quiet) (state : t.hasState ctx = true)
  (plain : mode = RM_STEP_INTO ∨ mode = RM_STEP_INTO_RANGE) (ready : Ready mode m)
  (accepted : t.canResume ctx (pace t ctx mode) = true)

include quiet state plain ready

include accepted in
theorem updateRounds_goes_on (stays : 0 < m.cnt → ¬m.Outside) (rounds : Nat) :
    updateRounds b t ctx w (rounds + 1) m = .next ((aim m.fresh).continueIn (pace t ctx mode)) := by
  rw [updateRounds,update_goes_on quiet state plain ready accepted stays]
  have next : Ready mode ((aim m.fresh).continueIn (pace t ctx mode)) := ready.aimed
  exact if_pos next.done

include accepted in
theorem sync_goes_on (stays : 0 < m.cnt → ¬m.Outside) :
    sync b t ctx w m = some ((aim m.fresh).continueIn (pace t ctx mode)) := by
  have next : Ready mode ((aim m.fresh).continueIn (pace t ctx mode)) := ready.aimed
  rw [sync,updateStepMachineStateInlined,updateRounds_goes_on quiet state plain ready accepted stays,EarlyReturn.next_bind,
    showFrame_plain next.level]
  rfl

theorem sync_ends (later : 0 < m.cnt) (out : m.Outside) (last : m.repeatCnt = 1) :
    sync b t ctx w m = some (ended m) := by
  have rounds : updateRounds b t ctx w (m.repeatCnt.toNat + 1) m = .next (ended m) := by
    rw [updateRounds,update_ends quiet state plain ready later out]
    have none_ : ¬0 < (m.finish .step).repeatCnt - 1 := by
      change ¬0 < m.repeatCnt - 1
      omega
    simp only [none_,if_false]
    rfl
  rw [sync,updateStepMachineStateInlined,rounds,EarlyReturn.next_bind,showFrame_plain (m := ended m) ready.level]
  rfl

include accepted in
theorem sync_repeats (later : 0 < m.cnt) (out : m.Outside) (more : 1 < m.repeatCnt) :
    sync b t ctx w m = some ((aim (again m).fresh).continueIn (pace t ctx mode)) := by
  obtain ⟨rounds,fuel⟩ : ∃ rounds, m.repeatCnt.toNat = rounds + 1 := ⟨m.repeatCnt.toNat - 1,by omega⟩
  have restarts : updateRounds b t ctx w (m.repeatCnt.toNat + 1) m = updateRounds b t ctx w (rounds + 1) (again m) := by
    rw [fuel,updateRounds,update_ends quiet state plain ready later out]
    have some_ : 0 < (m.finish .step).repeatCnt - 1 := by
      change 0 < m.repeatCnt - 1
      omega
    simp only [some_,if_true]
    rfl
  have next : Ready mode ((aim (again m).fresh).continueIn (pace t ctx mode)) := (ready.again more).aimed
  rw [sync,updateStepMachineStateInlined,restarts,
    updateRounds_goes_on quiet state plain (ready.again more) accepted (fun first => absurd first (lt_irrefl 0)),
    EarlyReturn.next_bind,showFrame_plain next.level]
  rfl

end Plain

/-- What the next stop of the thread makes of a step. -/
theorem stopAndSync_going {rangeStart rangeEnd : Nat} {cnt repeats : Int} (quiet : w.Quiet)
    (state : t.hasState ctx = true) (plain : mode = RM_STEP_INTO ∨ mode = RM_STEP_INTO_RANGE)
    (accepted : t.canResume ctx (pace t ctx mode) = true) (going : Going t ctx mode rangeStart rangeEnd cnt repeats m)
    (counts : 0 ≤ cnt) (short : cnt < 2^31 - 1) (pc : UInt64) :
    ((rangeStart ≤ pc.toNat ∧ pc.toNat < rangeEnd) →
      ∃ next, stopAndSync b t ctx w m pc = some next ∧ Going t ctx mode rangeStart rangeEnd (cnt + 1) repeats next) ∧
    (¬(rangeStart ≤ pc.toNat ∧ pc.toNat < rangeEnd) → repeats = 1 →
      ∃ next, stopAndSync b t ctx w m pc = some next ∧ next.pendingIntercept = true ∧ next.done = some .step) ∧
    (¬(rangeStart ≤ pc.toNat ∧ pc.toNat < rangeEnd) → 1 < repeats →
      ∃ next, stopAndSync b t ctx w m pc = some next ∧
        Going t ctx mode (rangeOf mode pc.toNat rangeStart rangeEnd).1 (rangeOf mode pc.toNat rangeStart rangeEnd).2 0
          (repeats - 1) next) := by
  obtain ⟨ready,continueMode,rfl,rfl,rfl,rfl⟩ := going
  let s : Machine := { m with stopped := true, pc := pc.toNat, pcError := 0, cnt := m.cnt + 1 }
  have stops : eventContextStopped m pc = .next s := by
    have steps : m.mode ≠ RM_RESUME := by
      rw [ready.mode]
      rcases plain with rfl | rfl <;> decide
    simp only [eventContextStopped,if_pos steps,if_pos short]
    rfl
  have again_ : Ready mode s :=
    ⟨ready.exited,ready.pending,rfl,ready.intercepted,rfl,ready.mode,ready.line,ready.repeats,ready.bp,ready.level,ready.done⟩
  have later : 0 < s.cnt := by
    change 0 < m.cnt + 1
    omega
  have fresh : s.fresh = s := fresh_later later.ne'
  have aimed : aim s = s := aim_later later.ne'
  simp only [stopAndSync,stops]
  refine ⟨fun inside => ?_,fun out last => ?_,fun out more => ?_⟩
  · refine ⟨_,sync_goes_on quiet state plain again_ accepted fun _ out => ?_,?_⟩
    · rcases out with low | high
      · exact absurd inside.1 (Nat.not_le_of_lt low)
      · exact absurd inside.2 (Nat.not_lt_of_le high)
    · refine ⟨again_.aimed,rfl,?_,?_,?_,?_⟩ <;> rw [fresh,aimed] <;> rfl
  all_goals
    have out : s.Outside := by
      rcases Nat.lt_or_ge pc.toNat m.rangeStart with low | low
      · exact .inl low
      · exact .inr (Nat.le_of_not_lt fun high => out ⟨low,high⟩)
  · exact ⟨_,sync_ends quiet state plain again_ later out last,rfl,rfl⟩
  · exact ⟨_,sync_repeats quiet state plain again_ accepted later out more,
      going_begun (m := again s) (again_.again more) rfl⟩

theorem stopAndSync_overflows (steps : m.mode ≠ RM_RESUME) (long : 2^31 - 1 ≤ m.cnt) (pc : UInt64) :
    stopAndSync b t ctx w m pc = none := by
  simp only [stopAndSync,eventContextStopped,if_pos steps,if_neg (Int.not_lt.mpr long)]

end Rounds

/-- The instruction does not branch to itself. At the last address it may, as the range of one byte
ends at address 0. -/
def Execution.Moves (e : Execution) (k : Nat) : Prop := e.pc (k + 1) = e.pc k → (e.pc k).toNat = 2^64 - 1

instance (e : Execution) : DecidablePred e.Moves := fun _ => inferInstanceAs (Decidable (_ → _))

theorem inside_byte_iff (x y : UInt64) :
    (x.toNat ≤ y.toNat ∧ y.toNat < following x.toNat) ↔ y = x ∧ x.toNat ≠ 2^64 - 1 := by
  have small := x.toNat_lt
  by_cases last : x.toNat = 2^64 - 1
  · have wraps : following x.toNat = 0 := by rw [last]; decide
    rw [wraps]
    simp [last]
  · have next : following x.toNat = x.toNat + 1 := Nat.mod_eq_of_lt (by omega)
    rw [next]
    constructor
    · rintro ⟨low,high⟩
      exact ⟨UInt64.toNat_inj.mp (by omega),last⟩
    · rintro ⟨rfl,_⟩
      omega

section Runs

variable {e : Execution} {frameLevel : Int} {a z : Nat}

theorem begun_ready {cnt : Int} (some_ : 0 < cnt) : Ready mode (begun e frameLevel mode cnt a z) :=
  ⟨rfl,rfl,rfl,rfl,rfl,rfl,rfl,some_,rfl,rfl,rfl⟩

/-- A step has begun, and no instruction is executed. -/
theorem run_begun (frameLevel : Int) {cnt : Int} (state : t.hasState ctx = true)
    (plain : mode = RM_STEP_INTO ∨ mode = RM_STEP_INTO_RANGE)
    (accepted : t.canResume ctx (pace t ctx mode) = true) (some_ : 0 < cnt) :
    ∃ m, e.run b t ctx (begun e frameLevel mode cnt a z) 0 = some (0,m) ∧
      Going t ctx mode (rangeOf mode (e.pc 0).toNat a z).1 (rangeOf mode (e.pc 0).toNat a z).2 0 cnt m := by
  have ready : Ready mode (begun e frameLevel mode cnt a z) := begun_ready some_
  have starts := sync_goes_on (b := b) (e.quiet 0) state plain ready accepted fun later => absurd later (lt_irrefl 0)
  refine ⟨_,?_,going_begun ready rfl⟩
  rw [Execution.run,starts]
  rfl

/-- One more stop of a run. -/
theorem run_succ {start : Machine} {i k : Nat} (here : e.run b t ctx start i = some (k,m))
    (pending : m.pendingIntercept = false) :
    e.run b t ctx start (i + 1) =
      (stopAndSync b t ctx (e.world (e.resumed m.continueMode m.rangeStart m.rangeEnd k)) m
        (e.pc (e.resumed m.continueMode m.rangeStart m.rangeEnd k))).map
          ((e.resumed m.continueMode m.rangeStart m.rangeEnd k,·)) := by
  rw [Execution.run,here]
  simp [pending]

/-- A run with one more stop was not over before. -/
theorem run_before {start next : Machine} {i k : Nat} (here : e.run b t ctx start (i + 1) = some (k,next)) :
    ∃ j m, e.run b t ctx start i = some (j,m) ∧ m.pendingIntercept = false := by
  rw [Execution.run] at here
  obtain ⟨⟨j,m⟩,before,here⟩ := Option.bind_eq_some_iff.mp here
  refine ⟨j,m,before,?_⟩
  by_contra ended
  simp [Bool.eq_true_of_not_eq_false ended] at here

section Instructions

variable (state : t.hasState ctx = true) (can : t.canResume ctx RM_STEP_INTO = true) {n : Nat}

include can in
theorem accepted_into : t.canResume ctx (pace t ctx RM_STEP_INTO) = true := by rwa [pace,if_pos can]

/-- A step of `n` instructions after some stops: only instructions that move on count. -/
inductive Counted (t : Target) (ctx : Address) (e : Execution) (n i : Nat) (m : Machine) : Prop where
  | going (cnt : Int) (counts : 0 ≤ cnt)
    (going : Going t ctx RM_STEP_INTO (e.pc i).toNat (following (e.pc i).toNat) cnt ((n : Int) - Nat.count e.Moves i) m)
    (left : Nat.count e.Moves i < n) (first : (∀ j < i, e.Moves j) → cnt = 0)
  | ended (pending : m.pendingIntercept = true) (done : m.done = some .step) (all : Nat.count e.Moves i = n)

include state can in
theorem counted_step {i : Nat} {cnt : Int} (counts : 0 ≤ cnt) (short : cnt < 2^31 - 1)
    (going : Going t ctx RM_STEP_INTO (e.pc i).toNat (following (e.pc i).toNat) cnt ((n : Int) - Nat.count e.Moves i) m)
    (left : Nat.count e.Moves i < n) :
    ∃ next, stopAndSync b t ctx (e.world (i + 1)) m (e.pc (i + 1)) = some next ∧ Counted t ctx e n (i + 1) next := by
  obtain ⟨inside,last,more⟩ := stopAndSync_going (b := b) (e.quiet (i + 1)) state (.inl rfl) (accepted_into can) going counts
    short (e.pc (i + 1))
  rw [inside_byte_iff] at inside last more
  by_cases stays : e.Moves i
  · have out : ¬(e.pc (i + 1) = e.pc i ∧ (e.pc i).toNat ≠ 2^64 - 1) := fun ⟨same,low⟩ => low (stays same)
    have one : Nat.count e.Moves (i + 1) = Nat.count e.Moves i + 1 := by rw [Nat.count_succ,if_pos stays]
    by_cases final : Nat.count e.Moves i + 1 = n
    · obtain ⟨next,run,pending,done⟩ := last out (by omega)
      exact ⟨next,run,.ended pending done (one.trans final)⟩
    · obtain ⟨next,run,going⟩ := more out (by omega)
      refine ⟨next,run,.going 0 le_rfl ?_ (by omega) fun _ => rfl⟩
      rw [one,Nat.cast_add,Nat.cast_one,← Int.sub_sub]
      exact going
  · obtain ⟨same,low⟩ := Classical.not_imp.mp stays
    obtain ⟨next,run,going⟩ := inside ⟨same,low⟩
    have none_ : Nat.count e.Moves (i + 1) = Nat.count e.Moves i := by rw [Nat.count_succ,if_neg stays,Nat.add_zero]
    refine ⟨next,run,.going (cnt + 1) (by omega) ?_ (by omega) fun all => absurd (all i (Nat.lt_succ_self i)) stays⟩
    rw [none_,same]
    exact going

include state can in
theorem counted_run (some_ : 0 < n) (i : Nat) {k : Nat}
    (run : e.run b t ctx (begun e frameLevel RM_STEP_INTO n a z) i = some (k,m)) : k = i ∧ Counted t ctx e n i m := by
  induction i generalizing k m with
  | zero =>
    obtain ⟨first,starts,going⟩ := run_begun (b := b) (e := e) frameLevel (a := a) (z := z) state (.inl rfl)
      (accepted_into can) (Int.natCast_pos.mpr some_)
    obtain ⟨rfl,rfl⟩ := Prod.mk.inj (Option.some.inj (starts.symm.trans run))
    refine ⟨rfl,.going 0 le_rfl ?_ (by simpa using some_) fun _ => rfl⟩
    rw [Nat.count_zero,Int.natCast_zero,Int.sub_zero]
    exact going
  | succ i ih =>
    obtain ⟨j,before,here,pending⟩ := run_before run
    obtain ⟨rfl,counted⟩ := ih here
    rw [run_succ here pending] at run
    cases counted with
    | ended ended => exact absurd ended (by simp [pending])
    | going cnt counts going left _ =>
      rw [going.continueMode,pace,if_pos can,e.single] at run
      obtain ⟨next,stops,same⟩ := Option.map_eq_some_iff.mp run
      obtain ⟨rfl,rfl⟩ := Prod.mk.inj same
      refine ⟨rfl,?_⟩
      by_cases short : cnt < 2^31 - 1
      · obtain ⟨reached,here,counted⟩ := counted_step (b := b) state can counts short going left
        rw [stops] at here
        exact Option.some.inj here ▸ counted
      · have steps : before.mode ≠ RM_RESUME := by
          rw [going.ready.mode]
          decide
        rw [stopAndSync_overflows steps (by rw [going.cnt]; omega)] at stops
        cases stops

include state can in
theorem counted_exists (frameLevel : Int) (some_ : 0 < n) (all : ∀ j < n, e.Moves j) (i : Nat) (short : i ≤ n) :
    ∃ m, e.run b t ctx (begun e frameLevel RM_STEP_INTO n a z) i = some (i,m) := by
  induction i with
  | zero =>
    obtain ⟨m,starts,_⟩ := run_begun (b := b) (e := e) frameLevel (a := a) (z := z) state (.inl rfl)
      (accepted_into can) (Int.natCast_pos.mpr some_)
    exact ⟨m,starts⟩
  | succ i ih =>
    obtain ⟨m,here⟩ := ih (by omega)
    obtain ⟨_,counted⟩ := counted_run state can some_ i here
    have counts : Nat.count e.Moves i = i := Nat.count_iff_forall.mpr fun j before => all j (by omega)
    cases counted with
    | ended _ _ count => omega
    | going cnt bound going left first =>
      obtain rfl := first fun j before => all j (by omega)
      obtain ⟨next,stops,_⟩ := counted_step (b := b) state can bound (by decide) going left
      rw [run_succ here going.ready.pending,going.continueMode,pace,if_pos can,e.single,stops]
      exact ⟨next,rfl⟩

include state can in
/-- A step of `n` instructions ends after `n` instructions where none of them branches to itself. -/
theorem reported_into_iff (some_ : 0 < n) :
    (∀ k, e.Reported b t ctx (begun e frameLevel RM_STEP_INTO n a z) k ↔ k = n) ↔ ∀ j < n, e.Moves j := by
  constructor
  · intro exactly
    obtain ⟨i,m,run,pending,_⟩ := (exactly n).mpr rfl
    obtain ⟨rfl,counted⟩ := counted_run state can some_ i run
    cases counted with
    | going _ _ going => exact absurd pending (by simp [going.ready.pending])
    | ended _ _ all => exact Nat.count_iff_forall.mp all
  · intro all k
    have counts : Nat.count e.Moves n = n := Nat.count_iff_forall.mpr all
    constructor
    · rintro ⟨i,m,run,pending,_⟩
      obtain ⟨rfl,counted⟩ := counted_run state can some_ i run
      cases counted with
      | going _ _ going => exact absurd pending (by simp [going.ready.pending])
      | ended _ _ count =>
        rcases Nat.eq_or_lt_of_le (count ▸ Nat.count_le e.Moves : n ≤ k) with same | long
        · exact same.symm
        · -- the stop before would have been the last one already
          obtain ⟨i,rfl⟩ : ∃ i, k = i + 1 := ⟨k - 1,by omega⟩
          obtain ⟨_,before,here,pending⟩ := run_before run
          obtain ⟨rfl,counted⟩ := counted_run state can some_ i here
          cases counted with
          | ended ended => exact absurd ended (by simp [pending])
          | going _ _ _ left =>
            have grows := Nat.count_monotone e.Moves (Nat.le_of_lt_succ long)
            omega
    · rintro rfl
      obtain ⟨m,run⟩ := counted_exists (b := b) (a := a) (z := z) state can frameLevel some_ all k le_rfl
      obtain ⟨_,counted⟩ := counted_run state can some_ k run
      cases counted with
      | going _ _ _ left => omega
      | ended pending done => exact ⟨k,m,run,pending,done⟩

end Instructions

section Ranges

/-- The PC is in the range that a step is to leave. -/
def Inside (a z : Nat) (pc : UInt64) : Prop := a ≤ pc.toNat ∧ pc.toNat < z

instance (a z : Nat) (pc : UInt64) : Decidable (Inside a z pc) := inferInstanceAs (Decidable (_ ∧ _))

/-- The first instruction after which the PC is out of the range. -/
def Execution.FirstExit (e : Execution) (a z k : Nat) : Prop :=
  0 < k ∧ ¬Inside a z (e.pc k) ∧ ∀ j, 0 < j → j < k → Inside a z (e.pc j)

/-- The number of instructions executed at each stop of a thread resumed in one mode. -/
def Execution.stops (e : Execution) (mode : Int) (a z : Nat) : Nat → Nat
  | 0 => 0
  | i + 1 => e.resumed mode a z (stops e mode a z i)

theorem firstExit_unique {k l : Nat} (first : e.FirstExit a z k) (second : e.FirstExit a z l) : k = l := by
  rcases Nat.lt_trichotomy k l with before | same | after
  · exact absurd (second.2.2 k first.1 before) first.2.1
  · exact same
  · exact absurd (first.2.2 l second.1 after) second.2.1

/-- The mode that steps of a range are made of. -/
def rangePace (t : Target) (ctx : Address) : Int := pace t ctx RM_STEP_INTO_RANGE

theorem resumed_range (t : Target) (ctx : Address) (e : Execution) (a z k : Nat) :
    k < e.resumed (rangePace t ctx) a z k ∧
      ∀ j, k < j → j < e.resumed (rangePace t ctx) a z k → Inside a z (e.pc j) := by
  unfold rangePace pace
  split
  · exact ⟨e.moves a z k,e.inside a z k⟩
  · rw [e.single]
    exact ⟨Nat.lt_succ_self k,fun j low high => absurd low (by omega)⟩

theorem stops_mono (t : Target) (ctx : Address) (e : Execution) (a z : Nat) :
    StrictMono (e.stops (rangePace t ctx) a z) :=
  strictMono_nat_of_lt_succ fun i => (resumed_range t ctx e a z (e.stops (rangePace t ctx) a z i)).1

/-- The thread stops where it first leaves the range. -/
theorem firstExit_stop (t : Target) (ctx : Address) {k : Nat} (first : e.FirstExit a z k) :
    ∃ i, e.stops (rangePace t ctx) a z i = k := by
  have far : ∃ i, k ≤ e.stops (rangePace t ctx) a z i := ⟨k,(stops_mono t ctx e a z).le_apply⟩
  refine ⟨Nat.find far,le_antisymm ?_ (Nat.find_spec far)⟩
  by_contra beyond
  cases least : Nat.find far with
  | zero =>
    rw [least] at beyond
    exact beyond (Nat.zero_le k)
  | succ i =>
    have before : e.stops (rangePace t ctx) a z i < k := Nat.lt_of_not_le (Nat.find_min far (least ▸ Nat.lt_succ_self i))
    rw [least] at beyond
    exact first.2.1 ((resumed_range t ctx e a z _).2 k before (Nat.lt_of_not_le beyond))

variable (state : t.hasState ctx = true) (accepted : t.canResume ctx (rangePace t ctx) = true)

/-- A step out of a range after some stops. -/
inductive Ranged (t : Target) (ctx : Address) (e : Execution) (a z i : Nat) (m : Machine) : Prop where
  | going (going : Going t ctx RM_STEP_INTO_RANGE a z i 1 m)
    (inside : ∀ j, 0 < j → j ≤ e.stops (rangePace t ctx) a z i → Inside a z (e.pc j))
  | ended (pending : m.pendingIntercept = true) (done : m.done = some .step)
    (first : e.FirstExit a z (e.stops (rangePace t ctx) a z i))

include state accepted in
theorem ranged_step {i : Nat} (short : i + 1 < 2^31) (going : Going t ctx RM_STEP_INTO_RANGE a z i 1 m)
    (before : ∀ j, 0 < j → j ≤ e.stops (rangePace t ctx) a z i → Inside a z (e.pc j)) :
    ∃ next, stopAndSync b t ctx (e.world (e.stops (rangePace t ctx) a z (i + 1))) m
        (e.pc (e.stops (rangePace t ctx) a z (i + 1))) = some next ∧ Ranged t ctx e a z (i + 1) next := by
  have between := resumed_range t ctx e a z (e.stops (rangePace t ctx) a z i)
  have earlier : ∀ j, 0 < j → j < e.stops (rangePace t ctx) a z (i + 1) → Inside a z (e.pc j) := by
    intro j positive short
    by_cases old : j ≤ e.stops (rangePace t ctx) a z i
    · exact before j positive old
    · exact between.2 j (Nat.lt_of_not_le old) short
  obtain ⟨inside,last,_⟩ := stopAndSync_going (b := b) (e.quiet (e.stops (rangePace t ctx) a z (i + 1))) state (.inr rfl)
    accepted going (Int.natCast_nonneg i) (by omega) (e.pc (e.stops (rangePace t ctx) a z (i + 1)))
  by_cases stays : Inside a z (e.pc (e.stops (rangePace t ctx) a z (i + 1)))
  · obtain ⟨next,run,going⟩ := inside stays
    refine ⟨next,run,.going going fun j positive short => ?_⟩
    rcases Nat.eq_or_lt_of_le short with rfl | short
    · exact stays
    · exact earlier j positive short
  · obtain ⟨next,run,pending,done⟩ := last stays rfl
    exact ⟨next,run,.ended pending done ⟨Nat.lt_of_le_of_lt (Nat.zero_le _) between.1,stays,earlier⟩⟩

include state accepted in
theorem ranged_run (i : Nat) {k : Nat} (run : e.run b t ctx (begun e frameLevel RM_STEP_INTO_RANGE 1 a z) i = some (k,m)) :
    k = e.stops (rangePace t ctx) a z i ∧ Ranged t ctx e a z i m ∧ i < 2^31 := by
  induction i generalizing k m with
  | zero =>
    obtain ⟨first,starts,going⟩ := run_begun (b := b) (e := e) frameLevel (a := a) (z := z) state (.inr rfl)
      accepted Int.one_pos
    obtain ⟨rfl,rfl⟩ := Prod.mk.inj (Option.some.inj (starts.symm.trans run))
    exact ⟨rfl,.going going fun j positive none_ => absurd none_ (Nat.not_le_of_lt positive),by decide⟩
  | succ i ih =>
    obtain ⟨j,before,here,pending⟩ := run_before run
    obtain ⟨rfl,ranged,_⟩ := ih here
    rw [run_succ here pending] at run
    cases ranged with
    | ended ended => exact absurd ended (by simp [pending])
    | going going inside =>
      rw [going.continueMode,going.rangeStart,going.rangeEnd] at run
      obtain ⟨next,stops,same⟩ := Option.map_eq_some_iff.mp run
      obtain ⟨rfl,rfl⟩ := Prod.mk.inj same
      refine ⟨rfl,?_⟩
      by_cases short : i + 1 < 2^31
      · obtain ⟨reached,here,ranged⟩ := ranged_step (b := b) state accepted short going inside
        exact ⟨Option.some.inj (here.symm.trans stops) ▸ ranged,short⟩
      · have steps : before.mode ≠ RM_RESUME := by
          rw [going.ready.mode]
          decide
        rw [stopAndSync_overflows steps (by rw [going.cnt]; omega)] at stops
        cases stops

include state accepted in
theorem ranged_exists (frameLevel : Int) (i : Nat) (short : i < 2^31)
    (stays : ∀ j < i, ¬e.FirstExit a z (e.stops (rangePace t ctx) a z j)) :
    ∃ m, e.run b t ctx (begun e frameLevel RM_STEP_INTO_RANGE 1 a z) i = some (e.stops (rangePace t ctx) a z i,m) := by
  induction i with
  | zero =>
    obtain ⟨m,starts,_⟩ := run_begun (b := b) (e := e) frameLevel (a := a) (z := z) state (.inr rfl)
      accepted Int.one_pos
    exact ⟨m,starts⟩
  | succ i ih =>
    obtain ⟨m,here⟩ := ih (by omega) fun j before => stays j (by omega)
    obtain ⟨_,ranged,_⟩ := ranged_run state accepted i here
    cases ranged with
    | ended _ _ first => exact absurd first (stays i (Nat.lt_succ_self i))
    | going going inside =>
      obtain ⟨next,stops,_⟩ := ranged_step (b := b) state accepted short going inside
      rw [run_succ here going.ready.pending,going.continueMode,going.rangeStart,going.rangeEnd]
      exact ⟨next,congrArg (Option.map _) stops⟩

include state accepted in
/-- A step out of a range ends where the thread first leaves the range, unless the count of its
stops overflows before. -/
theorem reported_range_iff :
    (∀ k, e.Reported b t ctx (begun e frameLevel RM_STEP_INTO_RANGE 1 a z) k ↔ e.FirstExit a z k) ↔
      ∀ i, e.FirstExit a z (e.stops (rangePace t ctx) a z i) → i < 2^31 := by
  constructor
  · intro exactly i first
    obtain ⟨j,m,run,_⟩ := (exactly _).mpr first
    obtain ⟨same,_,short⟩ := ranged_run state accepted j run
    rwa [(stops_mono t ctx e a z).injective same]
  · intro short k
    constructor
    · rintro ⟨i,m,run,pending,_⟩
      obtain ⟨rfl,ranged,_⟩ := ranged_run state accepted i run
      cases ranged with
      | going going => exact absurd pending (by simp [going.ready.pending])
      | ended _ _ first => exact first
    · intro first
      obtain ⟨i,rfl⟩ := firstExit_stop t ctx first
      obtain ⟨m,run⟩ := ranged_exists (b := b) state accepted frameLevel i (short i first)
        fun j before early => absurd ((stops_mono t ctx e a z).injective (firstExit_unique early first)) before.ne
      obtain ⟨_,ranged,_⟩ := ranged_run state accepted i run
      cases ranged with
      | going _ inside => exact absurd (inside _ first.1 le_rfl) first.2.1
      | ended pending done => exact ⟨i,m,run,pending,done⟩

end Ranges

end Runs

end Tcf.RunControl
