import Tcf.RunControlStepCounts

/-! The step machine goes on only in modes of which the target says that it has them. -/
namespace Tcf.RunControl

variable {b : Build} {t : Target} {ctx : Address} {w : World} {m : Machine} {mode : Int}

section Offers

theorem and_bit (modes : Nat) (mode : Int) : modes &&& bit mode ≠ 0 ↔ modes.testBit mode.toNat = true := by
  rw [bit,Nat.and_two_pow]
  cases modes.testBit mode.toNat <;> simp

theorem targetModes_testBit (k : Nat) :
    (targetModes t ctx).testBit k = true ↔ k < 21 ∧ (k : Int) ≠ RM_DETACH ∧ (k : Int) ≠ RM_TERMINATE ∧ t.canResume ctx k = true := by
  unfold targetModes
  induction 21 with
  | zero => simp
  | succ n ih =>
    simp only [List.range_succ,List.bind_eq_flatMap,List.pure_def,List.flatMap_append,List.flatMap_cons,List.flatMap_nil,
      List.append_nil,List.foldl_append,List.foldl_cons,List.foldl_nil] at ih ⊢
    by_cases skipped : (n : Int) = RM_DETACH ∨ (n : Int) = RM_TERMINATE ∨ t.canResume ctx n = false
    · rw [if_pos skipped,ih]
      constructor
      · rintro ⟨short,rest⟩
        exact ⟨by omega,rest⟩
      · rintro ⟨short,detach,terminate,can⟩
        refine ⟨?_,detach,terminate,can⟩
        rcases Nat.lt_succ_iff_lt_or_eq.mp short with short | rfl
        · exact short
        · simp [detach,terminate,can] at skipped
    · simp only [not_or,Bool.not_eq_false] at skipped
      rw [if_neg (by simp [skipped]),Nat.testBit_or,Bool.or_eq_true,ih,bit,Int.toNat_natCast,Nat.testBit_two_pow,decide_eq_true_eq]
      constructor
      · rintro (⟨short,rest⟩ | rfl)
        · exact ⟨by omega,rest⟩
        · exact ⟨Nat.lt_succ_self n,skipped⟩
      · rintro ⟨short,rest⟩
        rcases Nat.lt_succ_iff_lt_or_eq.mp short with short | rfl
        · exact .inl ⟨short,rest⟩
        · exact .inr rfl

theorem stepModes_testBit (modes : Nat) (into intoRange instr overRange out intoLine overLine : Int) (k : Nat) :
    (stepModes b modes into intoRange instr overRange out intoLine overLine).testBit k = true ↔
      modes.testBit k = true ∨ (modes.testBit into.toNat = true ∧
        (intoRange.toNat = k ∨ (b.stepOver = true ∧ (instr.toNat = k ∨ overRange.toNat = k ∨ out.toNat = k)) ∨
          (b.stepLine = true ∧ intoLine.toNat = k) ∨ (b.stepOver = true ∧ b.stepLine = true ∧ overLine.toNat = k))) := by
  unfold stepModes
  by_cases single : modes.testBit into.toNat = true
  · rw [if_pos ((and_bit modes into).mpr single)]
    cases b.stepOver <;> cases b.stepLine <;>
      simp [single,bit,Nat.testBit_or,Nat.testBit_two_pow,or_assoc]
  · rw [if_neg (mt (and_bit modes into).mp single)]
    simp [single]

theorem getResumeModes_state (natural : 0 ≤ mode) (other : mode ≠ RM_RESUME ∧ mode ≠ RM_REVERSE_RESUME)
    (offers : Offers b t ctx mode) : t.hasState ctx = true := by
  by_contra none_
  rw [Offers,getResumeModes,if_neg none_,and_bit,Nat.testBit_and,Nat.testBit_or,bit,bit,Nat.testBit_two_pow,
    Nat.testBit_two_pow] at offers
  obtain ⟨_,only⟩ := Bool.and_eq_true_iff.mp offers
  unfold RM_RESUME RM_REVERSE_RESUME at other
  rcases Bool.or_eq_true_iff.mp only with same | same
  · have : Int.toNat 0 = mode.toNat := of_decide_eq_true same
    omega
  · have : Int.toNat 6 = mode.toNat := of_decide_eq_true same
    omega

/-- A single step, and resuming backwards, are offered if the target can do them. -/
theorem offers_own (own : mode = RM_STEP_INTO ∨ mode = RM_REVERSE_RESUME) (offers : Offers b t ctx mode) :
    t.canResume ctx mode = true := by
  rw [Offers,and_bit,getResumeModes] at offers
  split at offers
  · rcases own with rfl | rfl <;>
      simp [stepModes_testBit,targetModes_testBit,RM_STEP_INTO,RM_REVERSE_RESUME,RM_STEP_INTO_RANGE,RM_STEP_OVER,
        RM_STEP_OVER_RANGE,RM_STEP_OUT,RM_STEP_INTO_LINE,RM_STEP_OVER_LINE,RM_REVERSE_STEP_INTO,RM_REVERSE_STEP_INTO_RANGE,
        RM_REVERSE_STEP_OVER,RM_REVERSE_STEP_OVER_RANGE,RM_REVERSE_STEP_OUT,RM_REVERSE_STEP_INTO_LINE,
        RM_REVERSE_STEP_OVER_LINE,RM_DETACH,RM_TERMINATE] at offers ⊢ <;> exact offers
  · rw [Nat.testBit_and,Bool.and_eq_true,targetModes_testBit] at offers
    rcases own with rfl | rfl <;> exact offers.1.2.2.2

theorem offers_range (offers : Offers b t ctx RM_STEP_INTO_RANGE) : t.canResume ctx (rangePace t ctx) = true := by
  have state := getResumeModes_state (by decide) (by decide) offers
  rw [Offers,and_bit,getResumeModes,if_pos state] at offers
  by_cases can : t.canResume ctx RM_STEP_INTO_RANGE = true
  · rwa [rangePace,pace,if_pos can]
  · rw [rangePace,pace,if_neg can]
    simp only [RM_STEP_INTO_RANGE] at can
    simpa [stepModes_testBit,targetModes_testBit,RM_STEP_INTO,RM_STEP_INTO_RANGE,RM_STEP_OVER,
      RM_STEP_OVER_RANGE,RM_STEP_OUT,RM_STEP_INTO_LINE,RM_STEP_OVER_LINE,RM_REVERSE_STEP_INTO,RM_REVERSE_STEP_INTO_RANGE,
      RM_REVERSE_STEP_OVER,RM_REVERSE_STEP_OVER_RANGE,RM_REVERSE_STEP_OUT,RM_REVERSE_STEP_INTO_LINE,
      RM_REVERSE_STEP_OVER_LINE,RM_DETACH,RM_TERMINATE,can] using offers

end Offers

/-- The step is reported done, or goes on in a mode that the target has. -/
def Selects (t : Target) (ctx : Address) (m : Machine) : Prop := m.done ≠ none ∨ t.canResume ctx m.continueMode = true

/-- Lines are counted in reverse line steps only. -/
def LineCounted (m : Machine) : Prop := 0 < m.lineCnt → ReverseLine m.mode

/-- What the target has to have where it offers a mode: the step machine resumes and steps to
pass over calls, whether it asks the target for that or not. -/
structure Accepting (b : Build) (t : Target) (ctx : Address) : Prop where
  resume : ∀ mode, 0 ≤ mode → Offers b t ctx mode → t.canResume ctx RM_RESUME = true
  stepOut : b.stepOver = true → Offers b t ctx RM_STEP_OUT →
    t.canResume ctx RM_STEP_OVER = true ∨ t.canResume ctx RM_STEP_INTO = true
  reverseOver : b.stepOver = true →
    ∀ mode ∈ [RM_REVERSE_STEP_OVER,RM_REVERSE_STEP_OVER_RANGE,RM_REVERSE_STEP_OVER_LINE], Offers b t ctx mode →
      t.canResume ctx RM_REVERSE_RESUME = true ∧ t.canResume ctx RM_REVERSE_STEP_INTO = true
  reverseOut : b.stepOver = true → Offers b t ctx RM_REVERSE_STEP_OUT →
    t.canResume ctx RM_REVERSE_RESUME = true ∧
      (t.canResume ctx RM_REVERSE_STEP_OVER = true ∨ t.canResume ctx RM_REVERSE_STEP_INTO = true)

/-- A step in one mode. -/
def InMode (mode : Int) (m : Machine) : Prop := m.mode = mode ∧ LineCounted m

section Update

/-- What every return without an error leaves. -/
def Post (t : Target) (ctx : Address) (m : Machine) : Prop := Selects t ctx m ∧ LineCounted m

theorem InMode.accepted (here : InMode mode m) {next : Int} (can : t.canResume ctx next = true) :
    Post t ctx (m.continueIn next) := ⟨.inr can,here.2⟩

theorem InMode.finished (here : InMode mode m) (reason : Reason) : Post t ctx (m.finish reason) := ⟨.inl nofun,here.2⟩

theorem tryMode_ends (here : InMode mode m) (next : Int) :
    (tryMode t ctx m next).Ends (Post t ctx) fun after => InMode mode after :=
  .ite (fun can => here.accepted can) fun _ => here

/-- Forwards the thread is resumed, backwards it is resumed backwards. -/
theorem bpMode_accepted (here : InMode mode m) (forwards : t.canResume ctx RM_RESUME = true)
    (backwards : reversed mode = true → ¬1 < m.lineCnt → t.canResume ctx RM_REVERSE_RESUME = true) :
    t.canResume ctx (bpMode m) = true := by
  unfold bpMode
  split
  next => exact forwards
  next back =>
    rw [Forward,not_or,here.1,Bool.not_eq_false] at back
    exact backwards back.1 back.2

theorem checkContext_ends (here : InMode mode m) (forwards : t.canResume ctx RM_RESUME = true) :
    (checkContext t ctx w m).Ends (Post t ctx) fun next => InMode mode next := by
  refine .ite (fun _ => ⟨.inr forwards,fun some_ => absurd some_ (by simp [Machine.cancelled])⟩) fun _ => ?_
  refine .ite (fun _ => ?_) fun _ => .ite (fun _ => ?_) fun _ => trivial
  · exact .ite (fun _ => (tryMode_ends here _).bind fun _ _ => trivial) fun _ => trivial
  · change InMode mode m.fresh
    rwa [InMode,LineCounted,(fresh_fields m).1,(fresh_fields m).2.2.1]

section Frames

/-- What the switch over the mode leaves where it does not return: the machine, and the address to
run to. -/
def Runs (t : Target) (ctx : Address) (mode : Int) (next : Machine × Nat) : Prop :=
  InMode mode next.1 ∧ t.canResume ctx (bpMode next.1) = true

theorem runToCaller_ends (here : InMode mode m) (accepted : t.canResume ctx (bpMode m) = true) (n : Int) :
    (runToCaller w m n).Ends (Post t ctx) (Runs t ctx mode) := by
  unfold runToCaller
  have finds : ∀ frames n, (findCaller w m frames n).Ends (Post t ctx) fun _ => True := by
    intro frames
    induction frames with
    | zero => exact fun _ => trivial
    | succ frames ih =>
      intro n
      unfold findCaller
      cases w.prevFrame n with
      | error error => exact .ite (fun _ => trivial) fun _ => trivial
      | ok n =>
        refine .ask fun info => .ite (fun _ => ?_) fun _ => ih n
        cases w.pcOf n <;> trivial
  exact (finds _ n).bind fun _ _ => ⟨here,accepted⟩

theorem enter_mode (here : InMode mode m) (info : StackFrame) : InMode mode (m.enter info) := here

theorem beginInFrame_ends (here : InMode mode m) (accepted : t.canResume ctx (bpMode m) = true) (n : Int) :
    (beginInFrame w m n).Ends (Post t ctx) (Runs t ctx mode) :=
  .ask fun info => ⟨enter_mode here info,accepted⟩

theorem stepOverFrame_ends (here : InMode mode m) (accepted : t.canResume ctx (bpMode m) = true)
    (backwards : reversed mode = true → t.canResume ctx RM_REVERSE_STEP_INTO = true) (n : Int) :
    (stepOverFrame w m n).Ends (Post t ctx) (Runs t ctx mode) := by
  have back : ∀ {x : Bool}, (reversed m.mode && x) = true → t.canResume ctx RM_REVERSE_STEP_INTO = true := by
    intro x both
    rw [here.1,Bool.and_eq_true] at both
    exact backwards both.1
  refine .ite (fun _ => beginInFrame_ends here accepted n) fun _ => .ite (fun _ => ?_) fun _ => ⟨here,accepted⟩
  refine .ask fun info => .ite (fun _ => ?_) fun _ => ?_
  · refine .ite (fun _ => here.accepted accepted) fun _ => ?_
    exact .ite (fun both => here.accepted (back both)) fun _ => runToCaller_ends here accepted n
  · exact .ite (fun both => here.accepted (back both)) fun _ => ⟨here,accepted⟩

theorem stepOutFrame_ends (here : InMode mode m) (accepted : t.canResume ctx (bpMode m) = true) (n : Int) :
    (stepOutFrame w m n).Ends (Post t ctx) (Runs t ctx mode) := by
  unfold stepOutFrame
  have begins : (beginStepOut w m n).Ends (Post t ctx)
      fun next => InMode mode next.1 ∧ t.canResume ctx (bpMode next.1) = true := by
    refine .ite (fun _ => ?_) fun _ => ⟨here,accepted⟩
    refine .ask fun p => .ask fun info => .ask fun info => .ite (fun _ => ?_) fun _ => ⟨here,accepted⟩
    exact .ask fun ip => ⟨here,accepted⟩
  refine begins.bind fun next after => ?_
  obtain ⟨next,ip⟩ := next
  obtain ⟨here,accepted⟩ := after
  cases ip with
  | some ip => exact ⟨here,accepted⟩
  | none =>
    refine .ask fun info => .ite (fun _ => ?_) fun _ => ⟨here,accepted⟩
    exact .ite (fun _ => here.accepted accepted) fun _ => runToCaller_ends here accepted n

theorem runTo_ends {next : Machine × Nat} (after : Runs t ctx mode next) :
    (runTo w next.1 next.2).Ends (Post t ctx) (InMode mode) := by
  refine .ite (fun _ => ?_) fun _ => after.1
  have accepted := after.1.accepted after.2
  rw [EarlyReturn.ends_returned]
  split
  all_goals
    split
    · exact accepted
    · exact accepted

end Frames

section Switch

variable (accepts : Accepting b t ctx) (natural : 0 ≤ mode) (offers : Offers b t ctx mode)

include accepts natural offers

theorem frameSwitch_ends (frames : b.stepOver = true) (here : InMode mode m) (n : Int) :
    (frameSwitch w m n).Ends (Post t ctx) fun next => InMode mode next.1 ∧ (next.2 ≠ 0 → Runs t ctx mode next) := by
  have forwards := accepts.resume mode natural offers
  have weaken : ∀ {x : Step (Machine × Nat)}, x.Ends (Post t ctx) (Runs t ctx mode) →
      x.Ends (Post t ctx) fun next => InMode mode next.1 ∧ (next.2 ≠ 0 → Runs t ctx mode next) := by
    intro x ends
    cases x with
    | next a => exact ⟨ends.1,fun _ => ends⟩
    | returned s => exact ends
    | failed error s => trivial
    | stuck => trivial
  refine .ite (fun lines => ?_) fun _ => .ite (fun overs => ?_) fun _ => .ite (fun outs => ?_) fun _ => ⟨here,nofun⟩
  · exact .ite (fun _ => .ask fun info => ⟨enter_mode here info,nofun⟩) fun _ => ⟨here,nofun⟩
  · have both : reversed mode = true →
        t.canResume ctx RM_REVERSE_RESUME = true ∧ t.canResume ctx RM_REVERSE_STEP_INTO = true := by
      intro back
      apply accepts.reverseOver frames mode ?_ offers
      rw [here.1] at overs
      simp only [overModes,List.mem_cons,List.not_mem_nil,or_false] at overs
      rcases overs with rfl | rfl | rfl | rfl | rfl | rfl | rfl <;> revert back <;> decide
    exact weaken (stepOverFrame_ends here (bpMode_accepted here forwards fun back _ => (both back).1) (fun back => (both back).2) n)
  · have backwards : reversed mode = true → t.canResume ctx RM_REVERSE_RESUME = true := by
      intro back
      rw [here.1] at outs
      rcases outs with rfl | rfl
      · exact absurd back (by decide)
      · exact (accepts.reverseOut frames offers).1
    exact weaken (stepOutFrame_ends here (bpMode_accepted here forwards fun back _ => backwards back) n)

omit natural in
theorem stepInlined_ends (frames : b.stepOver = true) (here : InMode mode m) (info tgt : StackFrame) :
    (stepInlined t ctx m info tgt).Ends (Post t ctx) (InMode mode) := by
  have left : ∀ reason, Post t ctx (m.leave.finish reason) := fun reason => ⟨.inl nofun,here.2⟩
  refine .ite (fun _ => ?_) fun _ => .ite (fun _ => ?_) fun _ => .ite (fun outs => ?_) fun _ => here
  · refine .ite (fun _ => ⟨.inl nofun,?_⟩) fun _ => .ite (fun _ => left _) fun _ => here
    split
    · exact here.2
    · exact here.2
  · exact .ite (fun _ => left _) fun _ => .ite (fun _ => here.finished _) fun _ => here
  · refine .ite (fun _ => here.finished _) fun _ => .ite (fun _ => left _) fun _ =>
      .ite (fun _ => here.finished _) fun _ => .ite (fun _ => .ite (fun forward => ?_) fun back => ?_) fun _ => here
    · have out : mode = RM_STEP_OUT := by
        rw [here.1] at outs
        rcases outs with out | out
        · exact out
        · rcases forward with forward | forward
          · rw [here.1,out] at forward
            exact absurd forward (by decide)
          · have line := here.2 (by omega)
            rw [here.1,out] at line
            exact absurd line (by decide)
      rcases accepts.stepOut frames (out ▸ offers) with can | can
      · simp only [tryMode,can,if_true,EarlyReturn.returned_bind]
        exact here.accepted can
      · exact (tryMode_ends here _).bind fun _ next => next.accepted can
    · have out : mode = RM_REVERSE_STEP_OUT := by
        rw [here.1] at outs
        rcases outs with out | out
        · rw [Forward,here.1,out] at back
          exact absurd (Or.inl (by decide)) back
        · exact out
      rcases (accepts.reverseOut frames (out ▸ offers)).2 with can | can
      · simp only [tryMode,can,if_true,EarlyReturn.returned_bind]
        exact here.accepted can
      · exact (tryMode_ends here _).bind fun _ next => next.accepted can

theorem stepByFrames_ends (here : InMode mode m) : (stepByFrames b t ctx w m).Ends (Post t ctx) (InMode mode) := by
  refine .ite (fun frames => ?_) fun _ => here
  refine .ask fun n => (frameSwitch_ends accepts natural offers frames here n).bind fun next after => ?_
  have runs : (runTo w next.1 next.2).Ends (Post t ctx) (InMode mode) := by
    by_cases some_ : next.2 ≠ 0
    · exact runTo_ends (after.2 some_)
    · rw [runTo,if_neg some_]
      exact after.1
  refine runs.bind fun m here => .ask fun info => .ite (fun _ => .ite (fun _ => .ask fun tgt => ?_) fun _ => ?_) fun _ => here
  · exact stepInlined_ends accepts offers frames here info tgt
  · exact stepInlined_ends accepts offers frames here info info

end Switch

section Lines

theorem range_mode (here : InMode mode m) (rangeStart rangeEnd : Nat) : InMode mode (m.range rangeStart rangeEnd) := here

theorem stepRange_ends (here : InMode mode m) : (stepRange m).Ends (Post t ctx) (InMode mode) :=
  .ite (fun _ => here.finished _) fun _ => here

theorem leaveLine_ends (here : InMode mode m) (area : CodeArea) (sameLine : Bool) :
    (leaveLine w m area sameLine).Ends (Post t ctx) (InMode mode) := by
  refine .ite (fun _ => here) fun _ => ?_
  have asks : (isFunctionPrologue w m.pc area).Ends (Post t ctx) fun _ => True := .ite (fun _ => trivial) fun _ => trivial
  refine asks.bind fun prologue _ => .ite (fun _ => here) fun _ => .ite (fun _ => here.finished _) fun goes => ?_
  rw [not_or,not_not] at goes
  exact ⟨here.1,fun _ => goes.1⟩

theorem isSameLine_ends (x y : CodeArea) : (isSameLine x y).Ends (Post t ctx) fun _ => True := by
  have texts : ∀ x y, (sameText x y).Ends (Post t ctx) fun _ => True := by
    intro x y
    cases x <;> cases y <;> trivial
  exact .ite (fun _ => trivial) fun _ => (texts _ _).bind fun _ _ => .ite (fun _ => texts _ _) fun _ => trivial

theorem nextLine_ends (here : InMode mode m) (old area : CodeArea) :
    (nextLine w m old area).Ends (Post t ctx) (InMode mode) := by
  have there : InMode mode { m with codeArea := some area } := here
  refine (isSameLine_ends area old).bind fun sameLine _ => .ite (fun _ => there.finished _) fun _ => ?_
  exact (leaveLine_ends there area sameLine).bind fun m here => range_mode here _ _

theorem stepLine_ends (here : InMode mode m) : (stepLine w m).Ends (Post t ctx) (InMode mode) := by
  refine .ite (fun _ => ?_) fun _ => .ite (fun _ => ?_) fun _ => here
  · have loads : (loadLine w m).Ends (Post t ctx) (InMode mode) := .ite (fun _ => .ask fun _ => here) fun _ => here
    refine loads.bind fun m here => ?_
    cases m.codeArea with
    | some area => exact range_mode here _ _
    | none => exact range_mode here _ _
  · cases m.codeArea with
    | none => exact here.finished _
    | some old =>
      cases isHiddenFunction w m.pc with
      | some hidden => exact range_mode here _ _
      | none =>
        refine .ask fun areas => ?_
        cases areas.head? with
        | some area => exact nextLine_ends here old area
        | none => exact .ask fun plt => .ite (fun _ => range_mode here _ _) fun _ => ⟨.inl nofun,here.2⟩

theorem skipPrologue_ends (here : InMode mode m) : (skipPrologue w m).Ends (Post t ctx) (InMode mode) := by
  refine .ask fun areas => ?_
  cases areas.getLast? with
  | none => exact here.finished _
  | some area =>
    have asks : (isFunctionPrologue w m.pc area).Ends (Post t ctx) fun _ => True := .ite (fun _ => trivial) fun _ => trivial
    exact asks.bind fun _ _ => .ite (fun _ => here) fun _ => here.finished _

theorem modeSwitch_ends (forwards : t.canResume ctx RM_RESUME = true) (offers : Offers b t ctx mode)
    (here : InMode mode m) : (modeSwitch b w m).Ends (Post t ctx) (InMode mode) := by
  refine .ite (fun resumes => ?_) fun _ => .ite (fun _ => here.finished _) fun _ => .ite (fun _ => ?_) fun _ =>
    .ite (fun _ => stepRange_ends here) fun _ => .ite (fun _ => stepLine_ends here) fun _ =>
    .ite (fun _ => skipPrologue_ends here) fun _ => .ite (fun _ => here.finished _) fun _ => trivial
  · refine ⟨.inr ?_,fun some_ => absurd some_ (by simp [Machine.continueIn,Machine.cancelled])⟩
    change t.canResume ctx m.mode = true
    rw [here.1] at resumes ⊢
    rcases resumes with rfl | rfl
    · exact forwards
    · exact offers_own (.inr rfl) offers
  · unfold stepInstruction
    split
    · exact stepRange_ends (range_mode here _ _)
    · exact stepRange_ends here

end Lines

theorem tryFallback_ends (here : InMode mode m) (table : List (Int × Int)) :
    (tryFallback t ctx table m).Ends (Post t ctx) (InMode mode) := by
  unfold tryFallback
  cases table.lookup m.continueMode with
  | none => exact here
  | some next => exact tryMode_ends here next

/-- Every mode is asked for before it is chosen. -/
theorem selectContinueMode_ends (here : InMode mode m) : (selectContinueMode t ctx m).Ends (Post t ctx) (InMode mode) := by
  have first : (tryStepMode t ctx m).Ends (Post t ctx) (InMode mode) := by
    refine .ite (fun _ => ?_) fun _ => .ite (fun _ => tryMode_ends here _) fun _ => here
    change InMode mode (if _ then _ else _)
    split
    · exact here
    · split
      · exact here
      · exact here
  exact first.bind fun _ here => (tryFallback_ends here _).bind fun _ here => (tryFallback_ends here _).bind fun _ here =>
    (tryFallback_ends here _).bind fun _ _ => trivial

theorem updateStepMachineState_ends (accepts : Accepting b t ctx) (natural : 0 ≤ mode) (offers : Offers b t ctx mode)
    (here : InMode mode m) : (updateStepMachineState b t ctx w m).Ends (Post t ctx) fun _ => True := by
  have forwards := accepts.resume mode natural offers
  refine (checkContext_ends here forwards).bind fun m here => ?_
  refine (stepByFrames_ends accepts natural offers here).bind fun m here => ?_
  refine (modeSwitch_ends forwards offers here).bind fun m here => ?_
  have ends : (selectContinueMode t ctx m).Ends (Post t ctx) (InMode mode) := selectContinueMode_ends here
  generalize selectContinueMode t ctx m = last at ends ⊢
  cases last with
  | next m => trivial
  | returned m => exact ends
  | failed error m => trivial
  | stuck => trivial

end Update

/-- Every offered mode is stepped in modes that the target has. -/
def Supported (b : Build) (t : Target) (ctx : Address) : Prop :=
  ∀ mode, 0 ≤ mode → Offers b t ctx mode → ∀ w m next, InMode mode m →
    updateStepMachineState b t ctx w m = .returned next → Selects t ctx next

section Needed

/-- A thread in the middle of a step, out of its range, in a frame of its own. -/
def outOfRange (mode : Int) (bpInfo : Option Address) : Machine where
  exited := false
  pendingIntercept := false
  stopped := true
  intercepted := false
  pc := 4
  pcError := 0
  frameLevel := 0
  mode := mode
  cnt := 1
  lineCnt := 0
  repeatCnt := 1
  rangeStart := 0
  rangeEnd := 1
  frameFp := 1
  bpAddr := 0
  bpInfo := bpInfo
  funcId := none
  funcIdOut := none
  inlined := 0
  setFrameLevel := true
  codeArea := none
  done := none
  continueMode := RM_RESUME

/-- All frames are alike, and each address is a function of its own. -/
def frameWorld (fp : Nat) (inlined : Int) : World where
  errorCode := id
  topFrame := .ok 0
  prevFrame := fun n => .ok (n + 1)
  frameInfo := fun _ => .ok ⟨fp,inlined,none,none⟩
  pcOf := fun _ => .ok 0
  symbolByAddr := fun _ addr => some ⟨none,none,none,some addr⟩
  addressToLine := fun _ _ => .ok []
  pltSection := fun _ => .ok false
  eventpoint := id

theorem inMode_outOfRange (mode : Int) (bpInfo : Option Address) : InMode mode (outOfRange mode bpInfo) := ⟨rfl,nofun⟩

theorem checkContext_outOfRange (state : t.hasState ctx = true) (mode : Int) (bpInfo : Option Address) :
    checkContext t ctx w (outOfRange mode bpInfo) = .next (outOfRange mode bpInfo) := by
  simp [checkContext,state,outOfRange,Machine.fresh]

variable {bpInfo : Option Address} {fp : Nat} {inlined : Int} {next : Machine}

/-- What the switch over frames decides is decided. -/
theorem update_frameSwitch (state : t.hasState ctx = true) (frames : b.stepOver = true)
    (switch : frameSwitch (frameWorld fp inlined) (outOfRange mode bpInfo) 0 = .returned next) :
    updateStepMachineState b t ctx (frameWorld fp inlined) (outOfRange mode bpInfo) = .returned next := by
  have top : (frameWorld fp inlined).topFrame = .ok 0 := rfl
  simp only [updateStepMachineState,checkContext_outOfRange state,EarlyReturn.next_bind,stepByFrames,if_pos frames,top,EarlyReturn.ask_ok,
    switch,EarlyReturn.returned_bind]

/-- A step out of an inlined function. -/
theorem update_stepInlined (state : t.hasState ctx = true) (frames : b.stepOver = true)
    (out : mode = RM_STEP_OUT ∨ mode = RM_REVERSE_STEP_OUT) :
    updateStepMachineState b t ctx (frameWorld 1 1) (outOfRange mode none) =
      (stepInlined t ctx (outOfRange mode none) ⟨1,1,none,none⟩ ⟨1,1,none,none⟩ >>= fun m =>
        modeSwitch b (frameWorld 1 1) m >>= selectContinueMode t ctx) := by
  have switch : frameSwitch (frameWorld 1 1) (outOfRange mode none) 0 = .next (outOfRange mode none,0) := by
    rcases out with rfl | rfl <;> rfl
  have top : (frameWorld 1 1).topFrame = .ok 0 := rfl
  have stays : runTo (frameWorld 1 1) (outOfRange mode none) 0 = .next (outOfRange mode none) := rfl
  have inner : inlinedFrame t ctx (frameWorld 1 1) (outOfRange mode none) =
      stepInlined t ctx (outOfRange mode none) ⟨1,1,none,none⟩ ⟨1,1,none,none⟩ := rfl
  simp only [updateStepMachineState,checkContext_outOfRange state,EarlyReturn.next_bind,stepByFrames,if_pos frames,top,EarlyReturn.ask_ok,
    switch,stays,inner]

variable (supported : Supported b t ctx)

include supported

theorem selects_outOfRange (natural : 0 ≤ mode) (offers : Offers b t ctx mode)
    (runs : updateStepMachineState b t ctx w (outOfRange mode bpInfo) = .returned next) (goes : next.done = none) :
    t.canResume ctx next.continueMode = true :=
  (supported mode natural offers w _ next (inMode_outOfRange mode bpInfo) runs).resolve_left (absurd goes)

theorem resume_needed (natural : 0 ≤ mode) (offers : Offers b t ctx mode) : t.canResume ctx RM_RESUME = true := by
  have gone : checkContext t ctx (frameWorld 0 0) { outOfRange mode none with exited := true } =
      .returned ({ outOfRange mode none with exited := true } : Machine).cancelled := by
    simp [checkContext]
  have runs : updateStepMachineState b t ctx (frameWorld 0 0) { outOfRange mode none with exited := true } =
      .returned ({ outOfRange mode none with exited := true } : Machine).cancelled := by
    rw [updateStepMachineState,gone]
    rfl
  have selects := supported mode natural offers _ _ _ ⟨rfl,fun some_ => absurd some_ (lt_irrefl 0)⟩ runs
  exact selects.resolve_left fun done => done rfl

/-- Passing over a call backwards, and its end. -/
theorem reverseOver_needed (frames : b.stepOver = true)
    (member : mode ∈ [RM_REVERSE_STEP_OVER,RM_REVERSE_STEP_OVER_RANGE,RM_REVERSE_STEP_OVER_LINE])
    (offers : Offers b t ctx mode) :
    t.canResume ctx RM_REVERSE_RESUME = true ∧ t.canResume ctx RM_REVERSE_STEP_INTO = true := by
  have natural : 0 ≤ mode ∧ mode ≠ RM_RESUME ∧ mode ≠ RM_REVERSE_RESUME := by
    simp only [List.mem_cons,List.not_mem_nil,or_false] at member
    rcases member with rfl | rfl | rfl <;> decide
  have state := getResumeModes_state natural.1 natural.2 offers
  have called : frameSwitch (frameWorld 0 0) (outOfRange mode (some 0)) 0 =
      .returned ((outOfRange mode (some 0)).continueIn RM_REVERSE_RESUME) := by
    simp only [List.mem_cons,List.not_mem_nil,or_false] at member
    rcases member with rfl | rfl | rfl <;> rfl
  have strays : frameSwitch (frameWorld 1 0) (outOfRange mode none) 0 =
      .returned ((outOfRange mode none).continueIn RM_REVERSE_STEP_INTO) := by
    simp only [List.mem_cons,List.not_mem_nil,or_false] at member
    rcases member with rfl | rfl | rfl <;> rfl
  exact ⟨selects_outOfRange supported natural.1 offers (update_frameSwitch state frames called) rfl,
    selects_outOfRange supported natural.1 offers (update_frameSwitch state frames strays) rfl⟩

theorem stepOut_needed (frames : b.stepOver = true) (offers : Offers b t ctx RM_STEP_OUT) :
    t.canResume ctx RM_STEP_OVER = true ∨ t.canResume ctx RM_STEP_INTO = true := by
  have state := getResumeModes_state (by decide) (by decide) offers
  by_cases can : t.canResume ctx RM_STEP_OVER = true
  · exact .inl can
  · have inner : stepInlined t ctx (outOfRange RM_STEP_OUT none) ⟨1,1,none,none⟩ ⟨1,1,none,none⟩ =
        (tryMode t ctx (outOfRange RM_STEP_OUT none) RM_STEP_OVER >>= fun m => .returned (m.continueIn RM_STEP_INTO)) := rfl
    rw [tryMode,if_neg can] at inner
    have runs := update_stepInlined (b := b) state frames (.inl rfl)
    rw [inner] at runs
    exact .inr (selects_outOfRange supported (by decide) offers runs rfl)

theorem reverseOut_needed (frames : b.stepOver = true) (offers : Offers b t ctx RM_REVERSE_STEP_OUT) :
    t.canResume ctx RM_REVERSE_RESUME = true ∧
      (t.canResume ctx RM_REVERSE_STEP_OVER = true ∨ t.canResume ctx RM_REVERSE_STEP_INTO = true) := by
  have state := getResumeModes_state (by decide) (by decide) offers
  have called : frameSwitch (frameWorld 0 0) (outOfRange RM_REVERSE_STEP_OUT (some 0)) 0 =
      .returned ((outOfRange RM_REVERSE_STEP_OUT (some 0)).continueIn RM_REVERSE_RESUME) := rfl
  refine ⟨selects_outOfRange supported (by decide) offers (update_frameSwitch state frames called) rfl,?_⟩
  by_cases can : t.canResume ctx RM_REVERSE_STEP_OVER = true
  · exact .inl can
  · have inner : stepInlined t ctx (outOfRange RM_REVERSE_STEP_OUT none) ⟨1,1,none,none⟩ ⟨1,1,none,none⟩ =
        (tryMode t ctx (outOfRange RM_REVERSE_STEP_OUT none) RM_REVERSE_STEP_OVER >>= fun m =>
          .returned (m.continueIn RM_REVERSE_STEP_INTO)) := rfl
    rw [tryMode,if_neg can] at inner
    have runs := update_stepInlined (b := b) state frames (.inr rfl)
    rw [inner] at runs
    exact .inr (selects_outOfRange supported (by decide) offers runs rfl)

end Needed

theorem supported_iff : Supported b t ctx ↔ Accepting b t ctx := by
  constructor
  · intro supported
    exact ⟨fun mode natural offers => resume_needed supported natural offers,fun frames offers => stepOut_needed supported frames offers,
      fun frames mode member offers => reverseOver_needed supported frames member offers,
      fun frames offers => reverseOut_needed supported frames offers⟩
  · intro accepts mode natural offers w m next here runs
    exact ((updateStepMachineState_ends accepts natural offers here).returned runs).1

/-- A step of some instructions is reported done after just as many. -/
def Execution.Counts (e : Execution) (b : Build) (t : Target) (ctx : Address) (frameLevel : Int) (a z n : Nat) : Prop :=
  ∀ k, e.Reported b t ctx (begun e frameLevel RM_STEP_INTO n a z) k ↔ k = n

/-- A step out of a range is reported done after the instruction that leaves it. -/
def Execution.Leaves (e : Execution) (b : Build) (t : Target) (ctx : Address) (frameLevel : Int) (a z : Nat) : Prop :=
  ∀ k, e.Reported b t ctx (begun e frameLevel RM_STEP_INTO_RANGE 1 a z) k ↔ e.FirstExit a z k

/-- Steps count exactly where no instruction branches to itself and stops do not overflow an
`int`, and they go on in modes of the target where it accepts what passing over calls needs. -/
theorem stepping_exact_iff (b : Build) (t : Target) (ctx : Address) :
    (Offers b t ctx RM_STEP_INTO → ∀ (e : Execution) frameLevel a z n, 0 < n →
      (e.Counts b t ctx frameLevel a z n ↔ ∀ k < n, e.Moves k)) ∧
    (Offers b t ctx RM_STEP_INTO_RANGE → ∀ (e : Execution) frameLevel a z,
      (e.Leaves b t ctx frameLevel a z ↔
        ∀ i, e.FirstExit a z (e.stops (rangePace t ctx) a z i) → i < 2^31)) ∧
    (Supported b t ctx ↔ Accepting b t ctx) := by
  refine ⟨fun offers e frameLevel a z n some_ => ?_,fun offers e frameLevel a z => ?_,supported_iff⟩
  · exact reported_into_iff (getResumeModes_state (by decide) (by decide) offers) (offers_own (.inl rfl) offers) some_
  · exact reported_range_iff (getResumeModes_state (by decide) (by decide) offers) (offers_range offers)

/-- A thread that runs through memory, or waits in place for one instruction. -/
def straight (waits : Bool) : Execution where
  pc k := UInt64.ofNat (16 + if waits then k - 1 else k)
  world _ := frameWorld 0 0
  resumed _ _ _ k := k + 1
  quiet _ := ⟨⟨0,rfl⟩,fun _ => ⟨_,rfl⟩⟩
  single _ _ _ := rfl
  moves _ _ k := Nat.lt_succ_self k
  inside _ _ k j low high := absurd high (by omega)

theorem stepping_exact_straight :
    (straight false).Counts commonBuild oneThread 2 0 0 0 3 ∧ (straight false).Leaves commonBuild oneThread 2 0 0 20 ∧
      Supported commonBuild oneThread 2 := by
  obtain ⟨counts,leaves,supports⟩ := stepping_exact_iff commonBuild oneThread 2
  refine ⟨(counts (by decide) _ _ _ _ 3 (by decide)).mpr (by decide),(leaves (by decide) _ _ _ _).mpr ?_,supports.mpr ?_⟩
  · intro i first
    have stop : ∀ i, (straight false).stops (rangePace oneThread 2) 0 20 i = i := by
      intro i
      induction i with
      | zero => rfl
      | succ i ih => exact congrArg (· + 1) ih
    rw [stop] at first
    by_contra long
    exact absurd (first.2.2 4 (by decide) (by omega)) (by decide)
  · refine ⟨fun _ _ _ => rfl,fun _ _ => .inr rfl,fun _ mode member offers => ?_,fun _ offers => absurd offers (by decide)⟩
    simp only [List.mem_cons,List.not_mem_nil,or_false] at member
    rcases member with rfl | rfl | rfl <;> exact absurd offers (by decide)

/-- An instruction that branches to itself is stepped again, and the step of one instruction is
reported done after two. -/
theorem self_branch_stepped_twice :
    Offers commonBuild oneThread 2 RM_STEP_INTO ∧ ¬(straight true).Counts commonBuild oneThread 2 0 0 0 1 ∧
      (straight true).Reported commonBuild oneThread 2 (begun (straight true) 0 RM_STEP_INTO 1 0 0) 2 := by
  have twice : (straight true).Reported commonBuild oneThread 2 (begun (straight true) 0 RM_STEP_INTO 1 0 0) 2 :=
    ⟨2,_,rfl,rfl,rfl⟩
  exact ⟨by decide,fun exactly => absurd ((exactly 2).mp twice) (by decide),twice⟩

end Tcf.RunControl
