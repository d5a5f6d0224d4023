import Tcf.RegisterViews
import Tcf.RegisterListsBounds

/-! When the command that reads a list of places in registers agrees with the one that reads a register. -/
namespace Tcf.RegisterLists

variable {κ δ : Type} [DecidableEq κ] {c : Contexts κ δ} {s s₀ fin : State κ} {loc : Location} {locs : List Location}

section Reading

/-- `Registers.get` on the register succeeds, and the location is inside the register. -/
def Available (c : Contexts κ δ) (s : State κ) (loc : Location) : Prop :=
  (∃ reg, c.id2register loc.id = .ok reg ∧ loc.offs.toNat + loc.size.toNat ≤ (c.definition reg.regDef).size) ∧
    ∃ value, get c.world loc.id s = .ok value

def sliceOf (c : Contexts κ δ) (s : State κ) (loc : Location) : List UInt8 :=
  match get c.world loc.id s with
  | .error _ => []
  | .ok value => (value.drop loc.offs.toNat).take loc.size.toNat

/-- `Registers.getm` uses only memory that is there, succeeds exactly when all locations are available, and returns the slices
of their registers. -/
def GetmExact (c : Contexts κ δ) (len : UInt32) (locs : List Location) (s : State κ) : Prop :=
  ((∀ a ∈ (getm c.world len locs s).1, a.Inside c.world) ∧ (getm c.world len locs s).2.2 ≠ some 0) ∧
    ((getm c.world len locs s).2.2 = none ↔ ∀ loc ∈ locs, Available c s loc) ∧
    ((getm c.world len locs s).2.2 = none → (getm c.world len locs s).2.1 = locs.flatMap (sliceOf c s))

/-- What `check_location_list` lets through for `getm`. -/
def GetmPasses (c : Contexts κ δ) (s : State κ) (loc : Location) : Prop :=
  ∃ reg, c.id2register loc.id = .ok reg ∧ c.exited reg.ctx = false ∧ (loc.offs + loc.size).toNat ≤ (c.definition reg.regDef).size ∧
    (0 < reg.frame → frameOf c s reg.ctx reg.frame.toNat ≠ none)

def partOf (c : Contexts κ δ) (s : State κ) (loc : Location) : Except Int (List UInt8) :=
  match c.id2register loc.id with
  | .error err => .error err
  | .ok reg => readAt c s reg loc.offs.toNat loc.size.toNat

/-- The bytes of the location can be read. -/
def PartReadable (c : Contexts κ δ) (s : State κ) (loc : Location) : Prop := ∃ value, partOf c s loc = .ok value

/-- The whole register can be read, and its context is not running, or can be read while it runs. -/
def WholeReadable (c : Contexts κ δ) (s : State κ) (loc : Location) : Prop :=
  ∀ reg, c.id2register loc.id = .ok reg →
    ¬(c.regAccess reg.ctx &&& REG_ACCESS_RD_RUNNING = 0 ∧ isRunning c.world reg.ctx = true) ∧
    ∃ value, readAt c s reg 0 (c.definition reg.regDef).size = .ok value

/-- The state after the check of a location. -/
def afterCheck (c : Contexts κ δ) (s : State κ) (loc : Location) : State κ :=
  match c.id2register loc.id with
  | .error _ => s
  | .ok reg => if reg.frame ≤ 0 then s else s.traced c reg.ctx (reg.frame.toNat + 1)

/-- The frame of a location stays in its block, whatever is traced for later locations. -/
def Stays (c : Contexts κ δ) (s fin : State κ) (loc : Location) : Prop :=
  ∀ reg, c.id2register loc.id = .ok reg → 0 < reg.frame →
    (fin.traces reg.ctx).frameMax = ((afterCheck c s loc).traces reg.ctx).frameMax

/-- Up to a location whose bytes cannot be read: the end of a location does not go around 2^32, nor that of a value in the reply
buffer, and frames stay in their blocks. -/
def GetmFitsAt (c : Contexts κ δ) (s₀ fin : State κ) : State κ → UInt32 → UInt32 → List Location → Prop
  | _, _, _, [] => True
  | s, pos, len, loc :: rest =>
    loc.offs.toNat + loc.size.toNat < 2 ^ 32 ∧ ReplyNoWrap pos len loc.size ∧ Stays c s fin loc ∧
      (PartReadable c s₀ loc → GetmFitsAt c s₀ fin (afterCheck c s loc) (pos + loc.size) (grown pos len loc.size) rest)

/-- A location is refused by the check, or everything fits, and registers whose parts can be read can be read as a whole. -/
def GetmGood (c : Contexts κ δ) (len : UInt32) (locs : List Location) (s : State κ) : Prop :=
  (∀ loc ∈ locs, GetmPasses c s loc) →
    GetmFitsAt c s (locs.foldl (afterCheck c) s) s 0 (replyLen len) locs ∧
      ((∀ loc ∈ locs, PartReadable c s loc) → ∀ loc ∈ locs, WholeReadable c s loc)

/-! One location -/

theorem top_iff (reg : Register κ δ) : (reg.frame < 0 ∨ c.world.isTopFrame reg.ctx reg.frame = true) ↔ reg.frame ≤ 0 := by
  change (reg.frame < 0 ∨ decide (reg.frame = 0 ∨ reg.frame = STACK_TOP_FRAME) = true) ↔ _
  rw [decide_eq_true_eq]
  unfold STACK_TOP_FRAME
  omega

theorem accessMask_ne (setm : Bool) (ctx : κ) : accessMask c.world setm ctx ≠ 0 := by
  unfold accessMask
  by_cases both : (c.world.regAccess ctx &&& if setm then 1 else 0) ≠ 0
  · rw [if_pos both]
    decide
  · rw [if_neg both]
    decide

theorem world_register {id : Text} {reg : Register κ δ} (found : c.id2register id = .ok reg) : c.world.id2register id = .ok reg := by
  unfold Contexts.world
  dsimp only
  rw [found]

theorem world_unknown {id : Text} {err : Errno} (unknown : c.id2register id = .error err) :
    c.world.id2register id = .error (err : Int) := by
  unfold Contexts.world
  dsimp only
  rw [unknown]

/-- What `Registers.get` reads once its checks have passed. -/
theorem get_reads {reg : Register κ δ} (s : State κ) (id : Text) (found : c.id2register id = .ok reg) (alive : c.exited reg.ctx = false)
    (allowed : ¬(c.regAccess reg.ctx &&& REG_ACCESS_RD_RUNNING = 0 ∧ isRunning c.world reg.ctx = true)) (value : List UInt8) :
    get c.world id s = .ok value ↔ readAt c s reg 0 (c.definition reg.regDef).size = .ok value := by
  have alive' : ¬c.world.exited reg.ctx = true := Bool.eq_false_iff.mp alive
  have allowed' : ¬(c.world.regAccess reg.ctx &&& REG_ACCESS_RD_RUNNING = 0 ∧ isRunning c.world reg.ctx = true) := allowed
  unfold get readAt
  rw [world_register found]
  dsimp only
  rw [if_neg alive',if_neg allowed']
  by_cases top : reg.frame ≤ 0
  · rw [if_pos ((top_iff reg).mpr top),if_pos top]
    exact Iff.rfl
  · rw [if_neg (mt (top_iff reg).mp top),if_neg top]
    have below : 0 < reg.frame := Int.not_le.mp top
    cases frame : frameOf c s reg.ctx reg.frame.toNat with
    | none =>
      obtain ⟨err,s',fails,-⟩ := getFrameInfo_none below frame
      have fails' : c.world.getFrameInfo reg.ctx reg.frame s = (.error err,s') := fails
      rw [fails']
      exact ⟨nofun,nofun⟩
    | some seen =>
      have info := getFrameInfo_some below frame
      have read := readFrame_later frame (.refl c _) ((s.traced c reg.ctx (reg.frame.toNat + 1)).traces reg.ctx).frameMax 0
        (c.definition reg.regDef).size (c.definition reg.regDef)
      rw [if_pos rfl] at read
      have info' : c.world.getFrameInfo reg.ctx reg.frame s = _ := info
      rw [info']
      change readFrame c _ _ _ (c.definition reg.regDef).size _ = _ ↔ _
      rw [read]

theorem get_ok_iff (s : State κ) (id : Text) (value : List UInt8) : get c.world id s = .ok value ↔
    ∃ reg, c.id2register id = .ok reg ∧ c.exited reg.ctx = false ∧
      ¬(c.regAccess reg.ctx &&& REG_ACCESS_RD_RUNNING = 0 ∧ isRunning c.world reg.ctx = true) ∧
      readAt c s reg 0 (c.definition reg.regDef).size = .ok value := by
  cases found : c.id2register id with
  | error err =>
    unfold get
    rw [world_unknown found]
    exact ⟨nofun,fun ⟨_,other,_⟩ => nomatch other⟩
  | ok reg =>
    by_cases alive : c.exited reg.ctx = false
    · by_cases allowed : c.regAccess reg.ctx &&& REG_ACCESS_RD_RUNNING = 0 ∧ isRunning c.world reg.ctx = true
      · have alive' : ¬c.world.exited reg.ctx = true := Bool.eq_false_iff.mp alive
        have allowed' : c.world.regAccess reg.ctx &&& REG_ACCESS_RD_RUNNING = 0 ∧ isRunning c.world reg.ctx = true := allowed
        unfold get
        rw [world_register found]
        dsimp only
        rw [if_neg alive',if_pos allowed']
        refine ⟨nofun,?_⟩
        rintro ⟨_,⟨⟩,-,refused,-⟩
        exact absurd allowed refused
      · rw [get_reads s id found alive allowed value]
        refine ⟨fun read => ⟨reg,rfl,alive,allowed,read⟩,?_⟩
        rintro ⟨_,⟨⟩,-,-,read⟩
        exact read
    · have dead : c.world.exited reg.ctx = true := Bool.not_eq_false _ ▸ alive
      unfold get
      rw [world_register found]
      dsimp only
      rw [if_pos dead]
      refine ⟨nofun,?_⟩
      rintro ⟨_,⟨⟩,alive',-,-⟩
      exact absurd alive' alive

/-- The check of a location for `getm`. -/
structure Entry (c : Contexts κ δ) (s : State κ) (loc : Location) (l : Checked κ δ (FramePtr κ)) : Prop where
  offs : l.offs = loc.offs
  size : l.size = loc.size
  register : ∃ reg, c.id2register loc.id = .ok reg ∧ l.ctx = reg.ctx ∧ l.regDef = reg.regDef ∧
    l.frameInfo = if reg.frame ≤ 0 then none else some ⟨reg.ctx,((afterCheck c s loc).traces reg.ctx).frameMax,reg.frame.toNat⟩

theorem afterCheck_later (c : Contexts κ δ) (s : State κ) (loc : Location) : Later c s (afterCheck c s loc) := by
  unfold afterCheck
  split
  · exact .refl c s
  · split
    · exact .refl c s
    · exact traced_later ..

theorem afterChecks_later (c : Contexts κ δ) (s : State κ) (locs : List Location) : Later c s (locs.foldl (afterCheck c) s) := by
  induction locs generalizing s with
  | nil => exact .refl c s
  | cons loc rest ih => exact (afterCheck_later c s loc).trans (ih _)

theorem checkLocation_getm (later : Later c s₀ s) (loc : Location) :
    (GetmPasses c s₀ loc → ∃ l, checkLocation c.world false loc s = (.ok l,afterCheck c s loc) ∧ Entry c s loc l) ∧
      (¬GetmPasses c s₀ loc → ∃ err s', checkLocation c.world false loc s = (.error err,s') ∧ err ≠ 0) := by
  have mask : ∀ ctx, ¬(accessMask c.world false ctx = 0 ∧ isRunning c.world ctx = true) := fun ctx both => accessMask_ne false ctx both.1
  cases found : c.id2register loc.id with
  | error err =>
    unfold checkLocation
    rw [world_unknown found]
    refine ⟨?_,fun _ => ⟨_,_,rfl,Int.ne_of_gt err.2⟩⟩
    rintro ⟨reg,other,-⟩
    rw [found] at other
    cases other
  | ok reg =>
    unfold checkLocation
    rw [world_register found]
    dsimp only
    by_cases dead : c.world.exited reg.ctx = true
    · rw [if_pos dead]
      refine ⟨?_,fun _ => ⟨_,_,rfl,by decide⟩⟩
      rintro ⟨_,other,alive,-⟩
      rw [found] at other
      cases other
      exact absurd dead (Bool.eq_false_iff.mp alive)
    by_cases outside : c.world.regSize reg.regDef < (loc.offs + loc.size).toNat
    · rw [if_neg dead,if_neg (mask _),if_pos outside]
      refine ⟨?_,fun _ => ⟨_,_,rfl,by decide⟩⟩
      rintro ⟨_,other,-,inside,-⟩
      rw [found] at other
      cases other
      exact absurd outside (Nat.not_lt.mpr inside)
    rw [if_neg dead,if_neg (mask _),if_neg outside]
    by_cases top : reg.frame ≤ 0
    · have after : afterCheck c s loc = s := by
        unfold afterCheck
        rw [found]
        exact if_pos top
      rw [if_pos ((top_iff reg).mpr top),after]
      refine ⟨fun _ => ⟨_,rfl,rfl,rfl,reg,found,rfl,rfl,(if_pos top).symm⟩,fun refused => ?_⟩
      refine absurd ⟨reg,found,Bool.not_eq_true _ ▸ dead,Nat.not_lt.mp outside,fun below => ?_⟩ refused
      exact absurd top (Int.not_le.mpr below)
    · have below : 0 < reg.frame := Int.not_le.mp top
      have after : afterCheck c s loc = s.traced c reg.ctx (reg.frame.toNat + 1) := by
        unfold afterCheck
        rw [found]
        exact if_neg top
      rw [if_neg (mt (top_iff reg).mp top),if_neg Bool.false_ne_true]
      cases frame : frameOf c s₀ reg.ctx reg.frame.toNat with
      | none =>
        obtain ⟨err,s',fails,number⟩ := getFrameInfo_none below ((later.frameOf reg.ctx _).trans frame)
        have fails' : c.world.getFrameInfo reg.ctx reg.frame s = (.error err,s') := fails
        rw [fails']
        refine ⟨?_,fun _ => ⟨_,_,rfl,number⟩⟩
        rintro ⟨_,other,-,-,frames⟩
        rw [found] at other
        cases other
        exact absurd frame (frames below)
      | some seen =>
        have info := getFrameInfo_some below ((later.frameOf reg.ctx _).trans frame)
        have info' : c.world.getFrameInfo reg.ctx reg.frame s = _ := info
        rw [info',after]
        refine ⟨fun _ => ⟨_,rfl,rfl,rfl,reg,found,rfl,rfl,?_⟩,fun refused => ?_⟩
        · rw [if_neg top,after]
        · refine absurd ⟨reg,found,Bool.not_eq_true _ ▸ dead,Nat.not_lt.mp outside,fun _ => ?_⟩ refused
          rw [frame]
          exact nofun

/-- The checked list, with the state at each location. -/
inductive Entries (c : Contexts κ δ) : State κ → List Location → List (Checked κ δ (FramePtr κ)) → Prop
  | nil (s : State κ) : Entries c s [] []
  | cons {s : State κ} {loc : Location} {l : Checked κ δ (FramePtr κ)} {locs : List Location} {ls : List (Checked κ δ (FramePtr κ))}
      (entry : Entry c s loc l) (rest : Entries c (afterCheck c s loc) locs ls) : Entries c s (loc :: locs) (l :: ls)

theorem checkLocationList_getm (later : Later c s₀ s) (locs : List Location) :
    ((∀ loc ∈ locs, GetmPasses c s₀ loc) →
      ∃ ls, checkLocationList c.world false locs s = (.ok ls,locs.foldl (afterCheck c) s) ∧ Entries c s locs ls) ∧
    ((¬∀ loc ∈ locs, GetmPasses c s₀ loc) → ∃ err s', checkLocationList c.world false locs s = (.error err,s') ∧ err ≠ 0) := by
  induction locs generalizing s with
  | nil => exact ⟨fun _ => ⟨[],rfl,.nil s⟩,fun refused => absurd (fun _ member => absurd member List.not_mem_nil) refused⟩
  | cons loc rest ih =>
    obtain ⟨passes,fails⟩ := checkLocation_getm later loc
    obtain ⟨passes',fails'⟩ := ih (later.trans (afterCheck_later c s loc))
    unfold checkLocationList
    by_cases here : GetmPasses c s₀ loc
    · obtain ⟨l,first,entry⟩ := passes here
      rw [first,List.foldl_cons]
      dsimp only
      constructor
      · intro all
        obtain ⟨ls,others,entries⟩ := passes' (List.forall_mem_cons.mp all).2
        rw [others]
        exact ⟨l :: ls,rfl,.cons entry entries⟩
      · intro refused
        obtain ⟨err,s',others,number⟩ := fails' fun all => refused (List.forall_mem_cons.mpr ⟨here,all⟩)
        rw [others]
        exact ⟨err,s',rfl,number⟩
    · obtain ⟨err,s',first,number⟩ := fails here
      rw [first]
      exact ⟨fun all => absurd (List.forall_mem_cons.mp all).1 here,fun _ => ⟨err,s',rfl,number⟩⟩

omit [DecidableEq κ] in
theorem partOf_error {err : Int} (read : partOf c s loc = .error err) : err ≠ 0 := by
  unfold partOf at read
  split at read
  · cases read
    exact Int.ne_of_gt (Subtype.property _)
  · exact readAt_error read

/-- A checked location is read as in the state before the checks, if its frame stays in its block. -/
theorem readChecked_entry {l : Checked κ δ (FramePtr κ)} (entry : Entry c s loc l) (passes : GetmPasses c s₀ loc)
    (before : Later c s₀ s) (later : Later c (afterCheck c s loc) fin) :
    (Stays c s fin loc → readChecked c.world l fin = partOf c s₀ loc) ∧
      (¬Stays c s fin loc → readChecked c.world l fin = .error 0) := by
  obtain ⟨offs,size,reg,found,ctx,regDef,info⟩ := entry
  obtain ⟨_,found',-,-,frames⟩ := passes
  rw [found] at found'
  cases found'
  have regs : fin.regs = s₀.regs := later.regs.trans ((afterCheck_later c s loc).regs.trans before.regs)
  unfold readChecked partOf
  rw [found,info,offs,size,ctx,regDef]
  dsimp only
  by_cases top : reg.frame ≤ 0
  · rw [if_pos top]
    refine ⟨fun _ => ?_,fun moves => ?_⟩
    · unfold readAt
      rw [if_pos top]
      exact contextReadReg_congr regs _
    · refine absurd (fun other found' below => ?_) moves
      rw [found] at found'
      cases found'
      exact absurd top (Int.not_le.mpr below)
  · have below : 0 < reg.frame := Int.not_le.mp top
    obtain ⟨seen,frame⟩ := Option.ne_none_iff_exists'.mp (frames below)
    have after : afterCheck c s loc = s.traced c reg.ctx (reg.frame.toNat + 1) := by
      unfold afterCheck
      rw [found]
      exact if_neg top
    rw [after] at later
    have read := readFrame_later ((before.frameOf reg.ctx _).trans frame) later
      ((afterCheck c s loc).traces reg.ctx).frameMax loc.offs.toNat loc.size.toNat (c.definition reg.regDef)
    rw [if_neg top]
    constructor
    · intro stays
      rw [if_pos (stays reg found below),readRegBytes_congr before.regs] at read
      unfold readAt
      rw [if_neg top,frame]
      exact read
    · intro moves
      have other : ¬(fin.traces reg.ctx).frameMax = ((afterCheck c s loc).traces reg.ctx).frameMax := by
        intro same
        refine moves fun _ found' _ => ?_
        rw [found] at found'
        cases found'
        exact same
      rw [if_neg other] at read
      exact read

/-- The loop that reads, by induction on the locations. -/
theorem getmLoop_exact {ls : List (Checked κ δ (FramePtr κ))} (entries : Entries c s locs ls) (pos len : UInt32)
    (passes : ∀ loc ∈ locs, GetmPasses c s₀ loc) (passed : ∀ l ∈ ls, l.Passed c.world) (room : pos.toNat ≤ len.toNat)
    (before : Later c s₀ s) (later : Later c (locs.foldl (afterCheck c) s) fin) :
    (((∀ a ∈ (getmLoop c.world fin pos len ls).1, a.Inside c.world) ∧ (getmLoop c.world fin pos len ls).2.2 ≠ some 0) ↔
      GetmFitsAt c s₀ fin s pos len locs) ∧
    (GetmFitsAt c s₀ fin s pos len locs →
      ((getmLoop c.world fin pos len ls).2.2 = none ↔ ∀ loc ∈ locs, PartReadable c s₀ loc) ∧
      ((getmLoop c.world fin pos len ls).2.2 = none →
        (getmLoop c.world fin pos len ls).2.1 = locs.flatMap fun loc => (partOf c s₀ loc).toOption.getD [])) := by
  induction entries generalizing pos len with
  | nil s =>
    refine ⟨⟨fun _ => trivial,fun _ => ⟨fun _ member => absurd member List.not_mem_nil,nofun⟩⟩,fun _ => ⟨⟨?_,fun _ => rfl⟩,fun _ => rfl⟩⟩
    exact fun _ _ member => absurd member List.not_mem_nil
  | @cons s loc l locs ls entry rest ih =>
    obtain ⟨here,others⟩ := List.forall_mem_cons.mp passes
    obtain ⟨passed,passed'⟩ := List.forall_mem_cons.mp passed
    have onward : Later c (afterCheck c s loc) fin := (afterChecks_later c (afterCheck c s loc) locs).trans later
    obtain ⟨reads,dangles⟩ := readChecked_entry entry here before onward
    have size := entry.size
    have wrap : l.NoWrap ↔ loc.offs.toNat + loc.size.toNat < 2 ^ 32 := by
      unfold Checked.NoWrap
      rw [entry.offs,size]
    have step := getm_step passed room
    rw [wrap,size] at step
    unfold getmLoop GetmFitsAt
    rw [size]
    have used : (∀ a ∈ [Access.reply pos.toNat loc.size.toNat (grown pos len loc.size).toNat,
        .register l.regDef l.offs.toNat loc.size.toNat], a.Inside c.world) ↔
        loc.offs.toNat + loc.size.toNat < 2 ^ 32 ∧ ReplyNoWrap pos len loc.size := by
      simp only [List.forall_mem_cons,List.not_mem_nil,false_implies,implies_true,and_true]
      exact step
    by_cases stays : Stays c s fin loc
    · rw [reads stays]
      cases part : partOf c s₀ loc with
      | error err =>
        have lost : ¬PartReadable c s₀ loc := fun ⟨value,read⟩ => nomatch part.symm.trans read
        dsimp only
        refine ⟨⟨fun inside => ?_,fun fits => ⟨used.mpr ⟨fits.1,fits.2.1⟩,?_⟩⟩,fun _ => ⟨⟨nofun,fun all => ?_⟩,nofun⟩⟩
        · have fits := used.mp inside.1
          exact ⟨fits.1,fits.2,stays,fun readable => absurd readable lost⟩
        · intro zero
          exact partOf_error part (Option.some.inj zero)
        · exact absurd (List.forall_mem_cons.mp all).1 lost
      | ok value =>
        have readable : PartReadable c s₀ loc := ⟨value,part⟩
        -- the next value begins in the buffer, if this one is inside
        have next : ReplyNoWrap pos len loc.size → loc.offs.toNat + loc.size.toNat < 2 ^ 32 →
            (pos + loc.size).toNat ≤ (grown pos len loc.size).toNat := fun reply noWrap => by
          have inside := (used.mpr ⟨noWrap,reply⟩) _ List.mem_cons_self
          exact grown_le inside
        have later' := fun room => ih (pos + loc.size) (grown pos len loc.size) others passed' room
          (before.trans (afterCheck_later c s loc)) later
        dsimp only
        refine ⟨⟨?_,?_⟩,?_⟩
        · rintro ⟨inside,number⟩
          obtain ⟨inside,inside'⟩ := List.forall_mem_append.mp inside
          obtain ⟨noWrap,reply⟩ := used.mp inside
          exact ⟨noWrap,reply,stays,fun _ => (later' (next reply noWrap)).1.mp ⟨inside',number⟩⟩
        · rintro ⟨noWrap,reply,-,fits⟩
          obtain ⟨inside',number⟩ := (later' (next reply noWrap)).1.mpr (fits readable)
          exact ⟨List.forall_mem_append.mpr ⟨used.mpr ⟨noWrap,reply⟩,inside'⟩,number⟩
        · rintro ⟨noWrap,reply,-,fits⟩
          obtain ⟨none_iff,values⟩ := (later' (next reply noWrap)).2 (fits readable)
          refine ⟨?_,fun done => ?_⟩
          · rw [none_iff]
            exact ⟨fun all => List.forall_mem_cons.mpr ⟨readable,all⟩,fun all => (List.forall_mem_cons.mp all).2⟩
          · rw [List.flatMap_cons,values done,part]
            rfl
    · rw [dangles stays]
      exact ⟨⟨fun inside => absurd rfl inside.2,fun fits => absurd fits.2.2.1 stays⟩,fun fits => absurd fits.2.2.1 stays⟩

theorem sum_toNat {offs size : UInt32} (noWrap : offs.toNat + size.toNat < 2 ^ 32) : (offs + size).toNat = offs.toNat + size.toNat := by
  rw [UInt32.toNat_add]
  exact Nat.mod_eq_of_lt noWrap

/-- What is available passes the check, and its part is the slice. -/
theorem Available.spec (available : Available c s loc) :
    GetmPasses c s loc ∧ WholeReadable c s loc ∧ partOf c s loc = .ok (sliceOf c s loc) := by
  obtain ⟨⟨reg,found,inside⟩,value,read⟩ := available
  obtain ⟨_,found',alive,allowed,whole⟩ := (get_ok_iff s loc.id value).mp read
  rw [found] at found'
  cases found'
  have small := c.size_lt reg.regDef
  have sum : (loc.offs + loc.size).toNat = loc.offs.toNat + loc.size.toNat := sum_toNat (by omega)
  have part := readAt_slice whole inside
  refine ⟨⟨reg,found,alive,sum ▸ inside,fun below gone => ?_⟩,fun _ same => ?_,?_⟩
  · unfold readAt at whole
    rw [if_neg (Int.not_le.mpr below),gone] at whole
    cases whole
  · rw [found] at same
    cases same
    exact ⟨allowed,value,whole⟩
  · unfold partOf sliceOf
    rw [found,read]
    exact part

theorem WholeReadable.available (whole : WholeReadable c s loc) (passes : GetmPasses c s loc)
    (noWrap : loc.offs.toNat + loc.size.toNat < 2 ^ 32) : Available c s loc := by
  obtain ⟨reg,found,alive,inside,-⟩ := passes
  obtain ⟨allowed,value,read⟩ := whole reg found
  rw [sum_toNat noWrap] at inside
  exact ⟨⟨reg,found,inside⟩,value,(get_ok_iff s loc.id value).mpr ⟨reg,found,alive,allowed,read⟩⟩

theorem GetmFitsAt.noWrap {pos len : UInt32} (fits : GetmFitsAt c s₀ fin s pos len locs) (readable : ∀ loc ∈ locs, PartReadable c s₀ loc) :
    ∀ loc ∈ locs, loc.offs.toNat + loc.size.toNat < 2 ^ 32 := by
  induction locs generalizing s pos len with
  | nil => exact fun _ member => absurd member List.not_mem_nil
  | cons loc rest ih =>
    obtain ⟨here,others⟩ := List.forall_mem_cons.mp readable
    exact List.forall_mem_cons.mpr ⟨fits.1,ih (fits.2.2.2 here) others⟩

theorem getmExact_iff (c : Contexts κ δ) (len : UInt32) (locs : List Location) (s : State κ) :
    GetmExact c len locs s ↔ GetmGood c len locs s := by
  obtain ⟨passes,fails⟩ := checkLocationList_getm (.refl c s) locs
  unfold GetmExact GetmGood
  by_cases all : ∀ loc ∈ locs, GetmPasses c s loc
  · obtain ⟨ls,check,entries⟩ := passes all
    have run : getm c.world len locs s = getmLoop c.world (locs.foldl (afterCheck c) s) 0 (replyLen len) ls := by
      unfold getm
      rw [check]
    obtain ⟨safe,result⟩ := getmLoop_exact entries 0 (replyLen len) all (checkLocationList_passed check) (Nat.zero_le _)
      (.refl c s) (.refl c _)
    rw [run,safe]
    constructor
    · rintro ⟨fits,done,-⟩ _
      obtain ⟨readable,-⟩ := result fits
      exact ⟨fits,fun parts loc member => (done.mp (readable.mpr parts) loc member).spec.2.1⟩
    · intro good
      obtain ⟨fits,whole⟩ := good all
      obtain ⟨readable,values⟩ := result fits
      have done : (∀ loc ∈ locs, PartReadable c s loc) ↔ ∀ loc ∈ locs, Available c s loc :=
        ⟨fun parts loc member => (whole parts loc member).available (all loc member) (fits.noWrap parts loc member),
          fun available loc member => ⟨_,(available loc member).spec.2.2⟩⟩
      refine ⟨fits,readable.trans done,fun ends => ?_⟩
      rw [values ends]
      have available := done.mp (readable.mp ends)
      apply List.flatMap_congr
      intro loc member
      rw [(available loc member).spec.2.2]
      rfl
  · obtain ⟨err,s',check,number⟩ := fails all
    have run : getm c.world len locs s = ([],[],some err) := by
      unfold getm
      rw [check]
    have none : ¬∀ loc ∈ locs, Available c s loc := fun available => all fun loc member => (available loc member).spec.1
    rw [run]
    refine ⟨fun _ passes => absurd passes all,fun _ => ⟨⟨fun _ member => absurd member List.not_mem_nil,?_⟩,⟨nofun,fun available => ?_⟩,nofun⟩⟩
    · exact fun zero => number (Option.some.inj zero)
    · exact absurd available none

end Reading

end Tcf.RegisterLists
