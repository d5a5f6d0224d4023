import Tcf.RegisterListsRead

/-! When the command that writes a list of places in registers agrees with the one that writes a register. -/
namespace Tcf.RegisterLists

variable {κ δ : Type} [DecidableEq κ] {c : Contexts κ δ} {s s₀ : State κ} {loc : Location} {locs : List Location}

section Writing

/-- `Registers.set` with so many bytes passes its checks. -/
def SetAccepts (c : Contexts κ δ) (id : Text) (n : Nat) : Prop :=
  ∃ reg, c.id2register id = .ok reg ∧ reg.frame ≤ 0 ∧ c.exited reg.ctx = false ∧
    ¬(c.regAccess reg.ctx &&& REG_ACCESS_WR_RUNNING = 0 ∧ isRunning c.world reg.ctx = true) ∧ n ≤ (c.definition reg.regDef).size

def writeSlice (c : Contexts κ δ) (loc : Location) (bytes : List UInt8) (s : State κ) : State κ :=
  match c.id2register loc.id with
  | .error _ => s
  | .ok reg => s.write reg.ctx ((c.definition reg.regDef).offset + loc.offs.toNat) bytes

/-- The slices of the data are written in order. -/
def writeSlices (c : Contexts κ δ) : List Location → List UInt8 → State κ → State κ
  | [], _, s => s
  | loc :: rest, data, s => writeSlices c rest (data.drop loc.size.toNat) (writeSlice c loc (data.take loc.size.toNat) s)

/-- The slices of the data one after another, without empty ones. -/
def slicesFrom : Nat → List Location → List (Nat × Nat)
  | _, [] => []
  | pos, loc :: rest => if 0 < loc.size then (pos,loc.size.toNat) :: slicesFrom (pos + loc.size.toNat) rest else slicesFrom pos rest

def Access.dataPart : Access δ → Option (Nat × Nat)
  | .data pos size _ => some (pos,size)
  | _ => none

/-- `check_location_list` does not refuse the list for `setm`. -/
def SetmAccepted (c : Contexts κ δ) (locs : List Location) (s : State κ) : Prop :=
  ∃ ls s', checkLocationList c.world true locs s = (.ok ls,s')

/-- `Registers.setm` uses only memory that is there, and the slices of the data in order; it is accepted exactly when
`Registers.set` would be for each location; when it is not nothing is changed; and when it succeeds the slices were written. -/
def SetmExact (c : Contexts κ δ) (locs : List Location) (data : List UInt8) (s : State κ) : Prop :=
  ((∀ a ∈ (setm c.world locs data s).1, a.Inside c.world) ∧ (setm c.world locs data s).1.filterMap Access.dataPart <+: slicesFrom 0 locs) ∧
    (SetmAccepted c locs s ↔ ∀ loc ∈ locs, SetAccepts c loc.id (loc.offs.toNat + loc.size.toNat)) ∧
    (¬SetmAccepted c locs s → (setm c.world locs data s).2.2 = (s,[])) ∧
    ((setm c.world locs data s).2.1 = none → (setm c.world locs data s).2.2.1 = writeSlices c locs data s)

/-- What `check_location_list` lets through for `setm`. -/
def SetmPasses (c : Contexts κ δ) (loc : Location) : Prop :=
  ∃ reg, c.id2register loc.id = .ok reg ∧ c.exited reg.ctx = false ∧ (loc.offs + loc.size).toNat ≤ (c.definition reg.regDef).size ∧
    reg.frame ≤ 0

/-- The context is not running, or can be written while it runs. -/
def WriteAllowed (c : Contexts κ δ) (loc : Location) : Prop :=
  ∀ reg, c.id2register loc.id = .ok reg → ¬(c.regAccess reg.ctx &&& REG_ACCESS_WR_RUNNING = 0 ∧ isRunning c.world reg.ctx = true)

/-- The bytes of the location can be written. -/
def PartWritable (c : Contexts κ δ) (loc : Location) : Prop :=
  ∀ reg, c.id2register loc.id = .ok reg →
    c.accessError reg.ctx ((c.definition reg.regDef).offset + loc.offs.toNat) loc.size.toNat = none

/-- Up to a location whose bytes cannot be written: its slice begins before 2^32, and is in the data. -/
def SetmFitsAt (c : Contexts κ δ) (data : List UInt8) : Nat → List Location → Prop
  | _, [] => True
  | pos, loc :: rest =>
    if 0 < loc.size then
      pos < 2 ^ 32 ∧ pos + loc.size.toNat ≤ data.length ∧ (PartWritable c loc → SetmFitsAt c data (pos + loc.size.toNat) rest)
    else SetmFitsAt c data pos rest

/-- A location is refused by the check, or no end goes around 2^32, no context runs that cannot be written then, and the data
are long enough. -/
def SetmGood (c : Contexts κ δ) (locs : List Location) (data : List UInt8) : Prop :=
  (∀ loc ∈ locs, SetmPasses c loc) →
    (∀ loc ∈ locs, loc.offs.toNat + loc.size.toNat < 2 ^ 32 ∧ WriteAllowed c loc) ∧ SetmFitsAt c data 0 locs

theorem checkLocation_setm (s : State κ) (loc : Location) :
    (SetmPasses c loc → ∃ l, checkLocation c.world true loc s = (.ok l,s) ∧ Entry c s loc l) ∧
      (¬SetmPasses c loc → ∃ err, checkLocation c.world true loc s = (.error err,s)) := by
  have mask : ∀ ctx, ¬(accessMask c.world true ctx = 0 ∧ isRunning c.world ctx = true) := fun ctx both => accessMask_ne true ctx both.1
  unfold checkLocation
  cases found : c.id2register loc.id with
  | error err =>
    rw [world_unknown found]
    refine ⟨?_,fun _ => ⟨_,rfl⟩⟩
    rintro ⟨reg,other,-⟩
    rw [found] at other
    cases other
  | ok reg =>
    rw [world_register found]
    dsimp only
    by_cases dead : c.world.exited reg.ctx = true
    · rw [if_pos dead]
      refine ⟨?_,fun _ => ⟨_,rfl⟩⟩
      rintro ⟨_,other,alive,-⟩
      rw [found] at other
      cases other
      exact absurd dead (Bool.eq_false_iff.mp alive)
    by_cases outside : c.world.regSize reg.regDef < (loc.offs + loc.size).toNat
    · rw [if_neg dead,if_neg (mask _),if_pos outside]
      refine ⟨?_,fun _ => ⟨_,rfl⟩⟩
      rintro ⟨_,other,-,inside,-⟩
      rw [found] at other
      cases other
      exact absurd outside (Nat.not_lt.mpr inside)
    rw [if_neg dead,if_neg (mask _),if_neg outside]
    by_cases top : reg.frame ≤ 0
    · rw [if_pos ((top_iff reg).mpr top)]
      refine ⟨fun _ => ⟨_,rfl,rfl,rfl,reg,found,rfl,rfl,(if_pos top).symm⟩,fun refused => ?_⟩
      exact absurd ⟨reg,found,Bool.not_eq_true _ ▸ dead,Nat.not_lt.mp outside,top⟩ refused
    · rw [if_neg (mt (top_iff reg).mp top),if_pos rfl]
      refine ⟨?_,fun _ => ⟨_,rfl⟩⟩
      rintro ⟨_,other,-,-,top'⟩
      rw [found] at other
      cases other
      exact absurd top' top

theorem checkLocationList_setm (s : State κ) (locs : List Location) :
    ((∀ loc ∈ locs, SetmPasses c loc) → ∃ ls, checkLocationList c.world true locs s = (.ok ls,s) ∧ List.Forall₂ (Entry c s) locs ls) ∧
      ((¬∀ loc ∈ locs, SetmPasses c loc) → ∃ err, checkLocationList c.world true locs s = (.error err,s)) := by
  induction locs with
  | nil => exact ⟨fun _ => ⟨[],rfl,.nil⟩,fun refused => absurd (fun _ member => absurd member List.not_mem_nil) refused⟩
  | cons loc rest ih =>
    obtain ⟨passes,fails⟩ := checkLocation_setm (c := c) s loc
    obtain ⟨passes',fails'⟩ := ih
    unfold checkLocationList
    by_cases here : SetmPasses c loc
    · obtain ⟨l,first,entry⟩ := passes here
      rw [first]
      dsimp only
      constructor
      · intro all
        obtain ⟨ls,others,entries⟩ := passes' (List.forall_mem_cons.mp all).2
        rw [others]
        exact ⟨l :: ls,rfl,.cons entry entries⟩
      · intro refused
        obtain ⟨err,others⟩ := fails' fun all => refused (List.forall_mem_cons.mpr ⟨here,all⟩)
        rw [others]
        exact ⟨err,rfl⟩
    · obtain ⟨err,first⟩ := fails here
      rw [first]
      exact ⟨fun all => absurd (List.forall_mem_cons.mp all).1 here,fun _ => ⟨err,rfl⟩⟩

theorem State.write_nil (s : State κ) (ctx : κ) (pos : Nat) : s.write ctx pos [] = s := by
  unfold State.write
  have same : (fun other i => if other = ctx ∧ pos ≤ i ∧ i < pos + ([] : List UInt8).length then ([] : List UInt8).getD (i - pos) 0
      else s.regs other i) = s.regs := by
    funext other i
    exact if_neg fun inside => Nat.not_lt.mpr inside.2.1 inside.2.2
  rw [same]

/-- The loop that writes, by induction on the locations. -/
theorem setmLoop_exact {ls : List (Checked κ δ (FramePtr κ))} (data : List UInt8) (entries : List.Forall₂ (Entry c s₀) locs ls)
    (passed : ∀ l ∈ ls, l.Passed c.world) (noWrap : ∀ loc ∈ locs, loc.offs.toNat + loc.size.toNat < 2 ^ 32)
    {p : UInt32} {pos : Nat} (at_ : p.toNat = pos % 2 ^ 32) (s : State κ) :
    (((∀ a ∈ (setmLoop c.world data p ls s).1, a.Inside c.world) ∧
        (setmLoop c.world data p ls s).1.filterMap Access.dataPart <+: slicesFrom pos locs) ↔ SetmFitsAt c data pos locs) ∧
      (SetmFitsAt c data pos locs → (setmLoop c.world data p ls s).2.1 = none →
        (setmLoop c.world data p ls s).2.2.1 = writeSlices c locs (data.drop pos) s) := by
  induction entries generalizing p pos s with
  | nil => exact ⟨⟨fun _ => trivial,fun _ => ⟨fun _ member => absurd member List.not_mem_nil,List.prefix_rfl⟩⟩,fun _ _ => rfl⟩
  | @cons loc l locs ls entry rest ih =>
    obtain ⟨here,others⟩ := List.forall_mem_cons.mp noWrap
    obtain ⟨passed,passed'⟩ := List.forall_mem_cons.mp passed
    obtain ⟨offs,size,reg,found,ctx,regDef,-⟩ := entry
    unfold setmLoop SetmFitsAt slicesFrom writeSlices
    rw [size]
    by_cases some_ : 0 < loc.size
    · simp only [if_pos some_]
      have register : (Access.register l.regDef l.offs.toNat loc.size.toNat).Inside c.world := by
        rw [← size]
        exact (register_inside_iff passed).mpr (by rwa [Checked.NoWrap,offs,size])
      have write : c.world.contextWriteReg l.ctx l.regDef l.offs.toNat ((data.drop p.toNat).take loc.size.toNat) s =
          contextWriteReg c reg.ctx (c.definition reg.regDef) loc.offs.toNat ((data.drop p.toNat).take loc.size.toNat) s := by
        rw [ctx,regDef,offs]
        rfl
      have used : ∀ more : List (Access δ),
          ((∀ a ∈ [Access.data p.toNat loc.size.toNat data.length,.register l.regDef l.offs.toNat loc.size.toNat] ++ more, a.Inside c.world) ∧
            ([Access.data p.toNat loc.size.toNat data.length,.register l.regDef l.offs.toNat loc.size.toNat] ++ more).filterMap
              Access.dataPart <+: (pos,loc.size.toNat) :: slicesFrom (pos + loc.size.toNat) locs) ↔
          (pos < 2 ^ 32 ∧ pos + loc.size.toNat ≤ data.length) ∧ (∀ a ∈ more, a.Inside c.world) ∧
            more.filterMap Access.dataPart <+: slicesFrom (pos + loc.size.toNat) locs := by
        intro more
        have parts : ([Access.data p.toNat loc.size.toNat data.length,.register l.regDef l.offs.toNat loc.size.toNat] ++ more).filterMap
            Access.dataPart = (p.toNat,loc.size.toNat) :: more.filterMap Access.dataPart := rfl
        have own : p.toNat = pos ↔ pos < 2 ^ 32 := by omega
        rw [parts,List.cons_prefix_cons,Prod.mk.injEq,own]
        simp only [List.cons_append,List.nil_append,List.forall_mem_cons,register,true_and,and_true]
        change (p.toNat + loc.size.toNat ≤ data.length ∧ _) ∧ _ ↔ _
        constructor
        · rintro ⟨⟨inside,others⟩,small,order⟩
          exact ⟨⟨small,own.mpr small ▸ inside⟩,others,order⟩
        · rintro ⟨⟨small,inside⟩,others,order⟩
          exact ⟨⟨(own.mpr small).symm ▸ inside,others⟩,small,order⟩
      rw [write]
      by_cases fits : pos < 2 ^ 32 ∧ pos + loc.size.toNat ≤ data.length
      · have own : p.toNat = pos := at_.trans (Nat.mod_eq_of_lt fits.1)
        have length : ((data.drop pos).take loc.size.toNat).length = loc.size.toNat := by
          rw [List.length_take,List.length_drop]
          omega
        unfold contextWriteReg
        rw [own] at used ⊢
        rw [length]
        cases access : c.accessError reg.ctx ((c.definition reg.regDef).offset + loc.offs.toNat) loc.size.toNat with
        | some err =>
          have lost : ¬PartWritable c loc := fun writable => nomatch access.symm.trans (writable reg found)
          dsimp only
          have alone := used []
          rw [List.append_nil] at alone
          rw [alone]
          refine ⟨⟨fun both => ⟨fits.1,fits.2,fun writable => absurd writable lost⟩,fun _ => ⟨fits,?_,?_⟩⟩,fun _ => nofun⟩
          · exact fun _ member => absurd member List.not_mem_nil
          · exact List.nil_prefix
        | none =>
          have writable : PartWritable c loc := fun _ found' => by
            rw [found] at found'
            cases found'
            exact access
          have next : (p + loc.size).toNat = (pos + loc.size.toNat) % 2 ^ 32 := by rw [UInt32.toNat_add,own]
          have written : writeSlice c loc ((data.drop pos).take loc.size.toNat) s =
              s.write reg.ctx ((c.definition reg.regDef).offset + loc.offs.toNat) ((data.drop pos).take loc.size.toNat) := by
            unfold writeSlice
            rw [found]
          obtain ⟨safe,result⟩ := ih passed' others next
            (s.write reg.ctx ((c.definition reg.regDef).offset + loc.offs.toNat) ((data.drop pos).take loc.size.toNat))
          dsimp only
          rw [used,safe,written,List.drop_drop]
          refine ⟨⟨fun both => ⟨fits.1,fits.2,fun _ => both.2⟩,fun all => ⟨fits,all.2.2 writable⟩⟩,fun all done => ?_⟩
          exact result (all.2.2 writable) done
      · refine ⟨⟨fun both => absurd ?_ fits,fun all => absurd ⟨all.1,all.2.1⟩ fits⟩,fun all => absurd ⟨all.1,all.2.1⟩ fits⟩
        generalize contextWriteReg c reg.ctx (c.definition reg.regDef) loc.offs.toNat ((data.drop p.toNat).take loc.size.toNat) s = result at both
        obtain ⟨err,s'⟩ := result
        cases err with
        | some err => exact ((used []).mp both).1
        | none => exact ((used _).mp both).1
    · simp only [if_neg some_]
      have empty : loc.size.toNat = 0 := by
        have zero := mt UInt32.lt_iff_toNat_lt.mpr some_
        exact Nat.eq_zero_of_not_pos zero
      have still : writeSlice c loc ((data.drop pos).take loc.size.toNat) s = s := by
        unfold writeSlice
        rw [found,empty,List.take_zero]
        exact State.write_nil ..
      rw [still,empty,List.drop_zero]
      exact ih passed' others at_ s

theorem setAccepts_iff (passes : SetmPasses c loc) : SetAccepts c loc.id (loc.offs.toNat + loc.size.toNat) ↔
    loc.offs.toNat + loc.size.toNat < 2 ^ 32 ∧ WriteAllowed c loc := by
  obtain ⟨reg,found,alive,inside,top⟩ := passes
  have small := c.size_lt reg.regDef
  constructor
  · rintro ⟨_,found',-,-,allowed,fits⟩
    rw [found] at found'
    cases found'
    refine ⟨by omega,fun _ found' => ?_⟩
    rw [found] at found'
    cases found'
    exact allowed
  · rintro ⟨noWrap,allowed⟩
    rw [sum_toNat noWrap] at inside
    exact ⟨reg,found,top,alive,allowed reg found,inside⟩

theorem SetAccepts.passes (accepts : SetAccepts c loc.id (loc.offs.toNat + loc.size.toNat)) : SetmPasses c loc := by
  obtain ⟨reg,found,top,alive,-,fits⟩ := accepts
  have small := c.size_lt reg.regDef
  have sum : (loc.offs + loc.size).toNat = loc.offs.toNat + loc.size.toNat := sum_toNat (by omega)
  exact ⟨reg,found,alive,sum ▸ fits,top⟩

theorem setmExact_iff (c : Contexts κ δ) (locs : List Location) (data : List UInt8) (s : State κ) :
    SetmExact c locs data s ↔ SetmGood c locs data := by
  obtain ⟨passes,fails⟩ := checkLocationList_setm (c := c) s locs
  unfold SetmExact SetmGood
  by_cases all : ∀ loc ∈ locs, SetmPasses c loc
  · obtain ⟨ls,check,entries⟩ := passes all
    have accepted : SetmAccepted c locs s := ⟨ls,s,check⟩
    have run : setm c.world locs data s = setmLoop c.world data 0 ls s := by
      unfold setm
      rw [check]
    have each : (∀ loc ∈ locs, SetAccepts c loc.id (loc.offs.toNat + loc.size.toNat)) ↔
        ∀ loc ∈ locs, loc.offs.toNat + loc.size.toNat < 2 ^ 32 ∧ WriteAllowed c loc :=
      forall₂_congr fun loc member => setAccepts_iff (all loc member)
    have start : (0 : UInt32).toNat = 0 % 2 ^ 32 := rfl
    have loop := fun noWrap => setmLoop_exact data entries (checkLocationList_passed check) noWrap start s
    rw [run,each]
    constructor
    · rintro ⟨safe,accepts,-,-⟩ _
      have allowed := accepts.mp accepted
      exact ⟨allowed,(loop fun loc member => (allowed loc member).1).1.mp safe⟩
    · intro good
      obtain ⟨allowed,fits⟩ := good all
      obtain ⟨safe,written⟩ := loop fun loc member => (allowed loc member).1
      exact ⟨safe.mpr fits,⟨fun _ => allowed,fun _ => accepted⟩,fun refused => absurd accepted refused,written fits⟩
  · obtain ⟨err,check⟩ := fails all
    have refused : ¬SetmAccepted c locs s := by
      rintro ⟨ls,s',accepted⟩
      rw [check] at accepted
      cases accepted
    have run : setm c.world locs data s = ([],some err,s,[]) := by
      unfold setm
      rw [check]
    rw [run]
    refine ⟨fun _ passes => absurd passes all,fun _ => ⟨⟨fun _ member => absurd member List.not_mem_nil,List.nil_prefix⟩,⟨?_,?_⟩,fun _ => rfl,nofun⟩⟩
    · exact fun accepted => absurd accepted refused
    · exact fun accepts => absurd (fun loc member => (accepts loc member).passes) all

end Writing

section Claims

/-- `Registers.getm` and `Registers.setm` agree with `Registers.get` and `Registers.set`. -/
theorem lists_agree_iff (c : Contexts κ δ) (len : UInt32) (locs : List Location) (data : List UInt8) (s : State κ) :
    GetmExact c len locs s ∧ SetmExact c locs data s ↔ GetmGood c len locs s ∧ SetmGood c locs data :=
  and_congr (getmExact_iff c len locs s) (setmExact_iff c locs data s)

/-- A stack without symbols: each frame has a next one, with known registers. -/
def deepStack : StackTrace.Target where
  defs := []
  pc := none
  contextReadReg _ := none
  tracingInfo _ := none
  evaluate _ _ := none
  crawl frame := some ⟨UInt64.ofNat frame.frame,true,some fun _ => some 5⟩

/-- One context with one register of four bytes. An ID is the number of a frame, or nothing. -/
def oneContext (stopped : Bool) : Contexts Unit Unit where
  id2register id := .ok ⟨(),match id with
    | [] => -1
    | n :: _ => n.toNat,()⟩
  exited _ := false
  stopped _ := stopped
  hasState _ := true
  regAccess _ := 0
  definition _ := ⟨0,4,false,0⟩
  symbols _ := deepStack
  accessError _ _ _ := none
  size_lt _ := by decide
  accessError_part _ _ _ := rfl

def untraced : State Unit := ⟨fun _ _ => 7,fun _ => ⟨.empty,0,rfl⟩⟩

/-- A register of a running context is read and written; and frame 1 is not where it was once frame 40 was traced. -/
theorem running_and_moved : ¬GetmExact (oneContext false) 0 [⟨[],0,4⟩] untraced ∧
    ¬SetmExact (oneContext false) [⟨[],0,4⟩] [1,2,3,4] untraced ∧
    ¬GetmExact (oneContext true) 0 [⟨[1],0,4⟩,⟨[40],0,4⟩] untraced := by
  refine ⟨?_,?_,?_⟩
  · rintro ⟨-,done,-⟩
    obtain ⟨-,value,read⟩ := (done.mp (by decide)) _ List.mem_cons_self
    have refused : get (oneContext false).world [] untraced = .error ERR_IS_RUNNING := rfl
    exact nomatch refused.symm.trans read
  · rintro ⟨-,accepted,-⟩
    obtain ⟨reg,-,-,-,allowed,-⟩ := accepted.mp ⟨_,_,rfl⟩ _ List.mem_cons_self
    have access : (0 : UInt32) &&& REG_ACCESS_WR_RUNNING = 0 := by decide
    exact allowed ⟨access,rfl⟩
  · rintro ⟨⟨-,number⟩,-⟩
    exact number (by decide +kernel)

end Claims

end Tcf.RegisterLists
