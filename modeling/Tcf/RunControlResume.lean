import Tcf.RunControl

/-! What a resume command leaves when it fails, and which modes it takes when it does not. -/
namespace Tcf.RunControl

/-- A context that is reported as suspended is one of the target's, has a state, and is not about to stop again. -/
structure WellFormed (t : Target) (s : State) : Prop where
  member : ∀ x, (s.ctx x).intercepted = true → x ∈ t.root
  state : ∀ x, (s.ctx x).intercepted = true → t.hasState x = true
  settled : ∀ x, (s.ctx x).intercepted = true → (s.ctx x).pendingIntercept = false ∧ (s.ctx x).safeSingleStep = false

/-- What a failed request must not touch. -/
def Unchanged (s next : State) : Prop :=
  ∀ x, (next.ctx x).step = (s.ctx x).step ∧ (next.ctx x).stepError = (s.ctx x).stepError ∧
    (next.ctx x).intercepted = (s.ctx x).intercepted ∧ (next.ctx x).reverseRun = (s.ctx x).reverseRun

def Offered (modes : Nat) (mode : Int) : Prop := 0 ≤ mode ∧ modes.testBit mode.toNat = true

/-- A reply with an error changes nothing, and one without is for a mode that is offered. -/
def Harmless (b : Build) (t : Target) (s : State) (c : Address) (r : Request) : Prop :=
  ∃ err next, commandResume b t s c r = .ok (err,next) ∧ (err ≠ 0 → Unchanged s next) ∧
    (err = 0 → ∃ ctx, t.id2ctx r.id = some ctx ∧ Offered (getResumeModes b t ctx) (toInt r.mode))

/-- There is no step operation to cancel, no error to forget and no direction to turn. -/
def NothingToLose (t : Target) (s : State) (ctx : Address) (mode : Int) : Prop :=
  (s.ctx ctx).step = (s.ctx ctx).step.cancelled ∧
    (t.hasState ctx = true → (s.ctx ctx).step.done = none ∧ (s.ctx ctx).stepError = none) ∧
    (s.ctx (t.interceptGroup ctx)).reverseRun = decide (mode ∈ reverseModes)

/-- A request that passes the first checks finds nothing to lose where it fails, and has a mode that is not negative
where it does not. -/
def Safe (b : Build) (t : Target) (s : State) (r : Request) : Prop :=
  ∀ ctx, resumeTarget b t r = .ok ctx →
    if resumeError t s ctx (toInt r.count) ≠ 0 then NothingToLose t s ctx (toInt r.mode) else 0 ≤ toInt r.mode

section Resume

variable {b : Build} {t : Target} {s : State}

@[simp] theorem update_ctx (s : State) (x : Address) (f : Context → Context) :
    (s.update x f).ctx = Function.update s.ctx x (f (s.ctx x)) := rfl

@[simp] theorem call_ctx (s : State) (effects : List Effect) : (s.call effects).ctx = s.ctx := rfl

theorem cancelStepMode_ctx (s : State) (ctx : Address) :
    (cancelStepMode s ctx).ctx = Function.update s.ctx ctx { s.ctx ctx with step := (s.ctx ctx).step.cancelled } := by
  simp [cancelStepMode]

/-- The same but for the step operation and its error. -/
def Alike (x y : Context) : Prop :=
  { x with step := y.step, stepError := y.stepError } = y

theorem Alike.fields {x y : Context} (alike : Alike x y) : x.exited = y.exited ∧ x.pendingIntercept = y.pendingIntercept ∧
    x.intercepted = y.intercepted ∧ x.reverseRun = y.reverseRun ∧ x.safeSingleStep = y.safeSingleStep := by
  obtain ⟨⟩ := x
  obtain ⟨⟩ := y
  simp only [Alike,Context.mk.injEq] at alike
  simp [alike]

theorem startStepMode_run (s : State) (ctx c : Address) (mode cnt : Int) (rangeStart rangeEnd : Nat) :
    ∃ next, startStepMode s ctx c mode cnt rangeStart rangeEnd = .ok next ∧ (∀ x, x ≠ ctx → next.ctx x = s.ctx x) ∧
      Alike (next.ctx ctx) (s.ctx ctx) ∧ (next.ctx ctx).stepError = none ∧ (next.ctx ctx).step.done = none := by
  have channel : (((cancelStepMode s ctx).update ctx ({ · with stepError := none })).ctx ctx).step.channel = none := by
    simp [cancelStepMode_ctx,StepOperation.cancelled]
  unfold startStepMode
  simp only [require_true channel,Code.ok_bind,Code.pure_eq]
  refine ⟨_,rfl,fun x other => ?_,?_,?_,?_⟩
  · simp [cancelStepMode_ctx,other]
  all_goals simp [cancelStepMode_ctx,Alike]

theorem beginStep_run (t : Target) (s : State) (ctx c : Address) (mode cnt : Int) (rangeStart rangeEnd : Nat) :
    ∃ next, beginStep t s ctx c mode cnt rangeStart rangeEnd = .ok next ∧ (∀ x, x ≠ ctx → next.ctx x = s.ctx x) ∧
      Alike (next.ctx ctx) (s.ctx ctx) ∧
      (t.hasState ctx = true → (next.ctx ctx).stepError = none ∧ (next.ctx ctx).step.done = none) ∧
      (t.hasState ctx = false → next.ctx ctx = s.ctx ctx) := by
  unfold beginStep
  cases state : t.hasState ctx with
  | false => exact ⟨s,rfl,fun _ _ => rfl,by simp [Alike],by simp,fun _ => rfl⟩
  | true =>
    obtain ⟨next,run,frame,alike,error,done⟩ := startStepMode_run s ctx c mode cnt rangeStart rangeEnd
    exact ⟨next,run,frame,alike,fun _ => ⟨error,done⟩,by simp⟩

theorem resumeError_alike {next : State} {ctx : Address} (alike : Alike (next.ctx ctx) (s.ctx ctx)) (count : Int) :
    resumeError t next ctx count = resumeError t s ctx count := by
  obtain ⟨exited,_,intercepted,_,_⟩ := alike.fields
  simp [resumeError,exited,intercepted]

/-- The group's direction is set first. -/
def turned (t : Target) (s : State) (ctx : Address) (mode : Int) : State :=
  s.update (t.interceptGroup ctx) ({ · with reverseRun := decide (mode ∈ reverseModes) })

theorem turned_fields (t : Target) (s : State) (ctx : Address) (mode : Int) (x : Address) :
    ((turned t s ctx mode).ctx x).step = (s.ctx x).step ∧ ((turned t s ctx mode).ctx x).stepError = (s.ctx x).stepError ∧
      ((turned t s ctx mode).ctx x).exited = (s.ctx x).exited ∧
      ((turned t s ctx mode).ctx x).intercepted = (s.ctx x).intercepted ∧
      ((turned t s ctx mode).ctx x).pendingIntercept = (s.ctx x).pendingIntercept ∧
      ((turned t s ctx mode).ctx x).safeSingleStep = (s.ctx x).safeSingleStep ∧
      (x ≠ t.interceptGroup ctx → ((turned t s ctx mode).ctx x).reverseRun = (s.ctx x).reverseRun) := by
  by_cases here : x = t.interceptGroup ctx
  · subst here
    simp [turned]
  · simp [turned,here]

theorem resumeError_turned (ctx : Address) (mode count : Int) :
    resumeError t (turned t s ctx mode) ctx count = resumeError t s ctx count := by
  obtain ⟨_,_,exited,intercepted,_⟩ := turned_fields t s ctx mode ctx
  simp [resumeError,exited,intercepted]

theorem cancelled_eq_iff {x y : StepOperation} : x.cancelled = y ↔ y = y.cancelled ∧ x.done = y.done := by
  constructor
  · rintro rfl
    exact ⟨rfl,rfl⟩
  · rintro ⟨same,done⟩
    rw [same]
    simp [StepOperation.cancelled,done]

/-- The fields after the cancellation, against those before the request. -/
theorem cancelled_unchanged_iff {middle : State} {ctx : Address} {mode : Int}
    (frame : ∀ x, x ≠ ctx → middle.ctx x = (turned t s ctx mode).ctx x)
    (alike : Alike (middle.ctx ctx) ((turned t s ctx mode).ctx ctx))
    (started : t.hasState ctx = true → (middle.ctx ctx).stepError = none ∧ (middle.ctx ctx).step.done = none)
    (kept : t.hasState ctx = false → middle.ctx ctx = (turned t s ctx mode).ctx ctx) :
    Unchanged s (cancelStepMode middle ctx) ↔ NothingToLose t s ctx mode := by
  obtain ⟨step,error,_,intercepted,_⟩ := turned_fields t s ctx mode ctx
  obtain ⟨_,_,intercepted',reverse,_⟩ := alike.fields
  have direction : ((turned t s ctx mode).ctx (t.interceptGroup ctx)).reverseRun = decide (mode ∈ reverseModes) := by
    simp [turned]
  constructor
  · intro unchanged
    obtain ⟨step',error',_,_⟩ := unchanged ctx
    obtain ⟨_,_,_,reverse'⟩ := unchanged (t.interceptGroup ctx)
    simp only [cancelStepMode_ctx,Function.update_self] at step' error'
    obtain ⟨idle,done⟩ := cancelled_eq_iff.mp step'
    refine ⟨idle,fun state => ⟨?_,?_⟩,?_⟩
    · rw [← done]
      exact (started state).2
    · rw [← error']
      exact (started state).1
    · rw [← reverse',← direction,cancelStepMode_ctx]
      by_cases here : t.interceptGroup ctx = ctx
      · rw [here]
        simp [reverse]
      · simp [here,frame]
  · rintro ⟨idle,lost,reverse'⟩ x
    rw [cancelStepMode_ctx]
    by_cases here : x = ctx
    · subst here
      simp only [Function.update_self]
      refine ⟨cancelled_eq_iff.mpr ⟨idle,?_⟩,?_,intercepted'.trans intercepted,?_⟩
      · cases state : t.hasState x with
        | false => rw [kept state,step]
        | true => rw [(started state).2,(lost state).1]
      · cases state : t.hasState x with
        | false => rw [kept state,error]
        | true => rw [(started state).1,(lost state).2]
      · rw [reverse]
        by_cases group : x = t.interceptGroup x
        · rw [← group] at direction reverse'
          rw [direction,reverse']
        · exact (turned_fields t s x mode x).2.2.2.2.2.2 group
    · obtain ⟨step,error,_,intercepted,_,_,turn⟩ := turned_fields t s ctx mode x
      simp only [Function.update_of_ne here,frame x here]
      refine ⟨step,error,intercepted,?_⟩
      by_cases group : x = t.interceptGroup ctx
      · rw [group,reverse']
        exact direction
      · exact turn group

theorem continue_fails {ctx c : Address} {mode count : Int} {rangeStart rangeEnd : Nat}
    (error : resumeError t s ctx count ≠ 0) :
    ∃ next, continueDebugContext t s ctx c mode count rangeStart rangeEnd = .ok (resumeError t s ctx count,next) ∧
      (Unchanged s next ↔ NothingToLose t s ctx mode) := by
  obtain ⟨middle,run,frame,alike,started,kept⟩ :=
    beginStep_run t (turned t s ctx mode) ctx c mode count rangeStart rangeEnd
  have same : resumeError t middle ctx count = resumeError t s ctx count := by
    rw [resumeError_alike alike,resumeError_turned]
  have error' : resumeError t middle ctx count ≠ 0 := by rwa [same]
  refine ⟨cancelStepMode middle ctx,?_,?_⟩
  · have step : continueDebugContext t s ctx c mode count rangeStart rangeEnd =
        .ok (resumeError t middle ctx count,cancelStepMode middle ctx) := by
      unfold continueDebugContext
      dsimp only
      rw [← turned,run,Code.ok_bind,if_pos error']
      rfl
    rw [step,same]
  · exact cancelled_unchanged_iff frame alike started kept

theorem releaseMember_run {grp ctx : Address} {st : State × List Address} (wf : WellFormed t st.1) :
    ∃ next, releaseMember t grp st ctx = .ok next ∧ WellFormed t next.1 ∧
      (∀ x, (next.1.ctx x).intercepted = true → (st.1.ctx x).intercepted = true) ∧
      (t.interceptGroup ctx = grp → (next.1.ctx ctx).intercepted = false) := by
  unfold releaseMember
  by_cases mine : (st.1.ctx ctx).intercepted = true ∧ t.interceptGroup ctx = grp
  · obtain ⟨pending,single⟩ := wf.settled ctx mine.1
    simp only [if_pos mine,require_true pending,require_true single,notifyContextReleased,require_true mine.1,
      Code.ok_bind,Code.pure_eq]
    have others (x : Address) : ((Function.update st.1.ctx ctx { st.1.ctx ctx with intercepted := false, skipPrologue := false, bpIds := [] }) x).intercepted = true →
        x ≠ ctx ∧ (st.1.ctx x).intercepted = true := by
      by_cases here : x = ctx
      · simp [here]
      · simp [here]
    refine ⟨_,rfl,⟨?_,?_,?_⟩,?_,?_⟩
    · exact fun x intercepted => wf.member x (others x intercepted).2
    · exact fun x intercepted => wf.state x (others x intercepted).2
    · intro x intercepted
      obtain ⟨other,before⟩ := others x intercepted
      simpa [other] using wf.settled x before
    · exact fun x intercepted => (others x intercepted).2
    · simp
  · rw [if_neg mine]
    refine ⟨st,rfl,wf,fun _ => id,fun group => ?_⟩
    cases on : (st.1.ctx ctx).intercepted with
    | false => rfl
    | true => exact absurd ⟨on,group⟩ mine

theorem releaseMembers_run {grp : Address} {root : List Address} {st : State × List Address} (wf : WellFormed t st.1) :
    ∃ next, root.foldlM (releaseMember t grp) st = .ok next ∧ WellFormed t next.1 ∧
      (∀ x, (next.1.ctx x).intercepted = true → (st.1.ctx x).intercepted = true) ∧
      ∀ x ∈ root, t.interceptGroup x = grp → (next.1.ctx x).intercepted = false := by
  induction root generalizing st with
  | nil => exact ⟨st,rfl,wf,fun _ => id,nofun⟩
  | cons ctx root ih =>
    obtain ⟨middle,first,wf₁,less₁,gone₁⟩ := @releaseMember_run t grp ctx st wf
    obtain ⟨next,later,wf₂,less₂,gone₂⟩ := ih wf₁
    refine ⟨next,?_,wf₂,fun x on => less₁ x (less₂ x on),fun x member group => ?_⟩
    · rw [List.foldlM_cons,first]
      exact later
    · rcases List.mem_cons.mp member with rfl | member
      · cases on : (next.1.ctx x).intercepted with
        | false => rfl
        | true =>
          have before := less₂ x on
          rw [gone₁ group] at before
          cases before
      · exact gone₂ x member group

theorem sendEventContextResumed_run {grp : Address} (wf : WellFormed t s) :
    ∃ next, sendEventContextResumed t s grp = .ok next ∧ WellFormed t next ∧
      (∀ x, (next.ctx x).intercepted = true → (s.ctx x).intercepted = true) ∧
      ∀ x ∈ t.root, t.interceptGroup x = grp → (next.ctx x).intercepted = false := by
  obtain ⟨⟨next,resumed⟩,run,wf',less,gone⟩ := @releaseMembers_run t grp t.root (s,[]) wf
  unfold sendEventContextResumed
  rw [run,Code.ok_bind]
  dsimp only
  split
  · exact ⟨next,rfl,wf',less,gone⟩
  · exact ⟨next.call _,rfl,⟨wf'.member,wf'.state,wf'.settled⟩,less,gone⟩

theorem postRunSafeEvents_ctx (s : State) : (postRunSafeEvents s).ctx = s.ctx := by
  unfold postRunSafeEvents
  split <;> rfl

theorem wellFormed_ctx {next : State} (same : next.ctx = s.ctx) (wf : WellFormed t s) : WellFormed t next where
  member x := by simpa [same] using wf.member x
  state x := by simpa [same] using wf.state x
  settled x := by simpa [same] using wf.settled x

/-- A context that was suspended in its own right is not after its tree was resumed. -/
theorem resumeContextTree_run {depth : Nat} {ctx : Address} (wf : WellFormed t s) (enough : t.rank ctx < depth) :
    ∃ next, resumeContextTree t depth s ctx = .ok next ∧ WellFormed t next ∧
      (t.hasState ctx = true → (next.ctx ctx).intercepted = false) := by
  induction depth generalizing s ctx with
  | zero => omega
  | succ depth ih =>
    unfold resumeContextTree
    by_cases stateless : t.hasState ctx = false
    · have lower : ∀ x ∈ t.children ctx, t.rank x < depth := by
        intro x member
        have less := t.descend ctx x member
        omega
      rw [if_pos stateless]
      generalize t.children ctx = children at lower
      have all : ∃ next, children.foldlM (fun s x => if (s.ctx x).exited = false then resumeContextTree t depth s x else
          pure s) s = .ok next ∧ WellFormed t next := by
        induction children generalizing s with
        | nil => exact ⟨s,rfl,wf⟩
        | cons x children ihc =>
          obtain ⟨low,lows⟩ := List.forall_mem_cons.mp lower
          rw [List.foldlM_cons]
          by_cases alive : (s.ctx x).exited = false
          · obtain ⟨middle,run,wf',_⟩ := ih wf low
            rw [if_pos alive,run,Code.ok_bind]
            exact ihc wf' lows
          · rw [if_neg alive]
            exact ihc wf lows
      obtain ⟨next,run,wf'⟩ := all
      exact ⟨next,run,wf',by simp [stateless]⟩
    · rw [if_neg stateless]
      by_cases on : (s.ctx ctx).intercepted = true
      · obtain ⟨next,run,wf',less,gone⟩ := @sendEventContextResumed_run t s (t.interceptGroup ctx) wf
        have off := gone ctx (wf.member ctx on) rfl
        simp only [if_pos on,run,Code.ok_bind,require_true off,Code.pure_eq]
        refine ⟨_,rfl,wellFormed_ctx (postRunSafeEvents_ctx next) wf',fun _ => ?_⟩
        rwa [postRunSafeEvents_ctx]
      · rw [if_neg on]
        exact ⟨s,rfl,wf,fun _ => by simpa using on⟩

theorem wellFormed_begun {middle : State} {ctx : Address} {mode : Int}
    (frame : ∀ x, x ≠ ctx → middle.ctx x = (turned t s ctx mode).ctx x)
    (alike : Alike (middle.ctx ctx) ((turned t s ctx mode).ctx ctx)) (wf : WellFormed t s) : WellFormed t middle := by
  have same (x : Address) : (middle.ctx x).intercepted = (s.ctx x).intercepted ∧
      (middle.ctx x).pendingIntercept = (s.ctx x).pendingIntercept ∧
      (middle.ctx x).safeSingleStep = (s.ctx x).safeSingleStep := by
    obtain ⟨_,_,_,intercepted,pending,single,_⟩ := turned_fields t s ctx mode x
    by_cases here : x = ctx
    · subst here
      obtain ⟨_,pending',intercepted',_,single'⟩ := alike.fields
      exact ⟨intercepted'.trans intercepted,pending'.trans pending,single'.trans single⟩
    · rw [frame x here]
      exact ⟨intercepted,pending,single⟩
  constructor
  · intro x on
    rw [(same x).1] at on
    exact wf.member x on
  · intro x on
    rw [(same x).1] at on
    exact wf.state x on
  · intro x on
    rw [(same x).1] at on
    obtain ⟨_,pending,single⟩ := same x
    rw [pending,single]
    exact wf.settled x on

theorem continue_succeeds {ctx c : Address} {mode count : Int} {rangeStart rangeEnd : Nat} (wf : WellFormed t s)
    (fine : resumeError t s ctx count = 0) :
    ∃ next, continueDebugContext t s ctx c mode count rangeStart rangeEnd = .ok (0,next) := by
  obtain ⟨middle,run,frame,alike,_,_⟩ :=
    beginStep_run t (turned t s ctx mode) ctx c mode count rangeStart rangeEnd
  have same : resumeError t middle ctx count = 0 := by rw [resumeError_alike alike,resumeError_turned,fine]
  obtain ⟨next,tree,wf',gone⟩ := @resumeContextTree_run t middle (t.rank ctx + 1) ctx (wellFormed_begun frame alike wf)
    (Nat.lt_succ_self _)
  have off : (next.ctx ctx).intercepted = false := by
    cases state : t.hasState ctx with
    | true => exact gone state
    | false =>
      by_contra on
      rw [Bool.not_eq_false] at on
      rw [wf'.state ctx on] at state
      cases state
  refine ⟨next,?_⟩
  unfold continueDebugContext
  dsimp only
  rw [← turned,run,Code.ok_bind,same,if_neg (by simp),tree,Code.ok_bind,require_true off]
  rfl

/-- What the check of the mode finds, when the mode is not negative. -/
theorem offered_iff {modes : Nat} {mode : Int} (natural : 0 ≤ mode) (known : mode < RM_UNDEF) :
    Offered modes mode ↔ modes &&& b.shl mode ≠ 0 := by
  obtain ⟨n,rfl⟩ := Int.eq_ofNat_of_zero_le natural
  have bound : n < 31 := by
    unfold RM_UNDEF at known
    omega
  rw [b.defined n bound,Nat.and_two_pow]
  cases hit : modes.testBit n <;> simp [Offered,hit]

theorem resumeTarget_ok {r : Request} {ctx : Address} (target : resumeTarget b t r = .ok ctx) :
    t.id2ctx r.id = some ctx ∧ toInt r.mode < RM_UNDEF ∧ getResumeModes b t ctx &&& b.shl (toInt r.mode) ≠ 0 := by
  unfold resumeTarget at target
  dsimp only at target
  split_ifs at target with wrong
  split at target
  · cases target
  next found =>
    split_ifs at target with refused
    cases target
    obtain ⟨low,hit⟩ := not_or.mp refused
    exact ⟨found,by omega,hit⟩

theorem resumeTarget_error {r : Request} {err : Int} (target : resumeTarget b t r = .error err) : err ≠ 0 := by
  unfold resumeTarget at target
  dsimp only at target
  split_ifs at target with wrong
  · cases target
    exact wrong
  split at target
  · cases target
    decide
  · split_ifs at target
    cases target
    decide

/-- The property holds of a request exactly when it is safe. -/
theorem resume_harmless_iff (wf : WellFormed t s) (c : Address) (r : Request) : Harmless b t s c r ↔ Safe b t s r := by
  unfold Harmless Safe commandResume
  rcases target : resumeTarget b t r with err | ctx
  · have error := resumeTarget_error target
    simp only [reduceCtorEq,false_implies,implies_true,iff_true]
    exact ⟨err,s,rfl,fun _ _ => ⟨rfl,rfl,rfl,rfl⟩,fun fine => absurd fine error⟩
  obtain ⟨found,known,hit⟩ := resumeTarget_ok target
  simp only [Except.ok.injEq,forall_eq']
  by_cases error : resumeError t s ctx (toInt r.count) = 0
  · obtain ⟨next,run⟩ := @continue_succeeds t s ctx c (toInt r.mode) (toInt r.count)
      (r.params.foldl resumeParamsCallback {}).rangeStart (r.params.foldl resumeParamsCallback {}).rangeEnd wf error
    rw [if_neg (not_not_intro error)]
    constructor
    · rintro ⟨err,next',run',_,offered⟩
      rw [run] at run'
      cases run'
      obtain ⟨_,_,natural,_⟩ := offered rfl
      exact natural
    · intro natural
      exact ⟨0,next,run,fun wrong => absurd rfl wrong,fun _ => ⟨ctx,found,(offered_iff natural known).mpr hit⟩⟩
  · obtain ⟨next,run,same⟩ := @continue_fails t s ctx c (toInt r.mode) (toInt r.count)
      (r.params.foldl resumeParamsCallback {}).rangeStart (r.params.foldl resumeParamsCallback {}).rangeEnd error
    rw [if_pos error,← same]
    constructor
    · rintro ⟨err,next',run',unchanged,_⟩
      rw [run] at run'
      cases run'
      exact unchanged error
    · intro unchanged
      exact ⟨_,next,run,fun _ => unchanged,fun fine => absurd fine error⟩

end Resume

/-- Shifts as the usual compilers do them. -/
def commonBuild : Build where
  stepOver := true
  stepLine := true
  shl n := 2^(n % 32).toNat % 2^32
  defined n small := by
    have low : ((n : Int) % 32).toNat = n ∨ n = 31 := by omega
    have bound : 2^n < 2^32 := Nat.pow_lt_pow_right (by decide) (by omega)
    rcases low with low | rfl
    · rw [low,Nat.mod_eq_of_lt bound]
    · omega

/-- A process 1 with a thread 2. -/
def oneThread : Target where
  id2ctx _ := some 2
  root := [1,2]
  children p := if p = 1 then [2] else []
  rank p := p % 2
  descend p x member := by
    by_cases parent : p = 1 <;> simp_all
  interceptGroup x := x
  hasState x := x = 2
  canResume _ mode := mode = RM_RESUME ∨ mode = RM_STEP_INTO

/-- The thread runs to the end of a step over that a client asked for. -/
def midStep : State where
  ctx _ := ⟨false,false,false,false,false,false,[],⟨RM_STEP_OVER,some 1,0,0,1,0,0,0,0x1000,some 5,none,none,0,0,none,none,RM_RESUME⟩,none⟩
  runCtrlLockCnt := 0
  runSafeEventsPosted := 0
  effects := []

theorem midStep_wellFormed : WellFormed oneThread midStep := ⟨nofun,nofun,nofun⟩

/-- Another client's resume is refused, and the step operation is gone. -/
theorem refused_resume_ends_step :
    WellFormed oneThread midStep ∧ ¬Harmless commonBuild oneThread midStep 7 ⟨[0x50],RM_RESUME,1,[]⟩ := by
  refine ⟨midStep_wellFormed,?_⟩
  rintro ⟨err,next,run,unchanged,_⟩
  have lost : ∃ reply, commandResume commonBuild oneThread midStep 7 ⟨[0x50],RM_RESUME,1,[]⟩ = .ok reply ∧
      reply.1 ≠ 0 ∧ (reply.2.ctx 2).step ≠ (midStep.ctx 2).step := by decide +kernel
  obtain ⟨reply,run',error,changed⟩ := lost
  rw [run] at run'
  cases run'
  exact changed (unchanged error 2).1

/-- A request with a parameter that nobody knows. -/
theorem harmless_refused : Harmless commonBuild oneThread midStep 7 ⟨[0x50],RM_RESUME,1,[.other]⟩ ↔
    Safe commonBuild oneThread midStep ⟨[0x50],RM_RESUME,1,[.other]⟩ :=
  resume_harmless_iff midStep_wellFormed 7 _

end Tcf.RunControl
