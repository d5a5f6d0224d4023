import Tcf.RegisterContexts

/-! Bytes of registers as any command sees them, whatever was traced of the stacks before. -/
namespace Tcf.RegisterLists

open StackTrace (RegisterDefinition RegisterData Traced)

section Slices

variable {α β : Type}

theorem mapM_eq_some_iff {f : α → Option β} {list : List α} {values : List β} :
    list.mapM f = some values ↔ list.map f = values.map some := by
  induction list generalizing values with
  | nil => cases values <;> simp
  | cons a rest ih =>
    cases values with
    | nil => cases head : f a <;> cases tail : rest.mapM f <;> simp [head,tail]
    | cons v more =>
      rw [List.mapM_cons,List.map_cons,List.map_cons,List.cons.injEq,← ih]
      cases f a with
      | none => simp
      | some b => cases rest.mapM f <;> simp

theorem range_slice {offs n size : Nat} (inside : offs + n ≤ size) :
    ((List.range size).drop offs).take n = (List.range n).map (offs + ·) := by
  apply List.ext_getElem
  · rw [List.length_take,List.length_drop,List.length_range,List.length_map,List.length_range]
    omega
  · intro i before after
    simp

theorem map_slice {offs n size : Nat} (inside : offs + n ≤ size) (f : Nat → α) :
    (((List.range size).map f).drop offs).take n = (List.range n).map fun i => f (offs + i) := by
  rw [← List.map_drop,← List.map_take,range_slice inside,List.map_map]
  rfl

theorem mapM_slice {offs n size : Nat} (inside : offs + n ≤ size) {f : Nat → Option α} {values : List α}
    (read : (List.range size).mapM f = some values) :
    ((List.range n).mapM fun i => f (offs + i)) = some ((values.drop offs).take n) := by
  apply mapM_eq_some_iff.mpr
  rw [← map_slice inside f,mapM_eq_some_iff.mp read,List.map_take,List.map_drop]

end Slices

section Bytes

variable {κ δ : Type} {c : Contexts κ δ} {s s' : State κ} {ctx : κ} {regDef : RegisterDefinition} {offs n : Nat} {value : List UInt8}

theorem contextReadReg_slice (read : contextReadReg c ctx regDef 0 regDef.size s = .ok value) (inside : offs + n ≤ regDef.size) :
    contextReadReg c ctx regDef offs n s = .ok ((value.drop offs).take n) := by
  unfold contextReadReg at read ⊢
  cases whole : c.accessError ctx (regDef.offset + 0) regDef.size with
  | some err =>
    rw [whole] at read
    cases read
  | none =>
    have part : c.accessError ctx (regDef.offset + offs) n = none := c.accessError_part (by omega) (by omega) whole
    rw [whole] at read
    cases read
    rw [part]
    simp only [map_slice inside,Nat.add_zero,Nat.add_assoc]

theorem readRegBytes_slice {top : Bool} {regs : Option RegisterData} (small : regDef.size < 2 ^ 16)
    (read : readRegBytes c ctx top regs regDef 0 regDef.size s = .ok value) (inside : offs + n ≤ regDef.size) :
    readRegBytes c ctx top regs regDef offs n s = .ok ((value.drop offs).take n) := by
  unfold readRegBytes at read ⊢
  cases top with
  | true => exact contextReadReg_slice read inside
  | false =>
    cases regs with
    | none => cases read
    | some known =>
      simp only [Bool.false_eq_true,if_false] at read ⊢
      have fits : ¬regDef.size < (UInt32.ofNat offs + UInt32.ofNat n).toNat := by
        rw [UInt32.toNat_add,UInt32.toNat_ofNat',UInt32.toNat_ofNat']
        omega
      cases all : (List.range regDef.size).mapM fun i => known (regDef.offset + 0 + i) with
      | none =>
        rw [all] at read
        cases read
      | some bytes =>
        have part := mapM_slice inside all
        simp only [Nat.add_zero,← Nat.add_assoc] at part
        rw [all] at read
        simp only at read
        split at read
        · cases read
        · cases read
          rw [part]
          exact if_neg fits

theorem contextReadReg_error {err : Int} {size : Nat} (read : contextReadReg c ctx regDef offs size s = .error err) : err ≠ 0 := by
  unfold contextReadReg at read
  cases access : c.accessError ctx (regDef.offset + offs) size with
  | none =>
    rw [access] at read
    cases read
  | some e =>
    rw [access] at read
    cases read
    exact Int.ne_of_gt e.2

theorem readRegBytes_error {top : Bool} {regs : Option RegisterData} {err : Int} {size : Nat}
    (read : readRegBytes c ctx top regs regDef offs size s = .error err) : err ≠ 0 := by
  unfold readRegBytes at read
  cases top with
  | true => exact contextReadReg_error read
  | false =>
    cases regs with
    | none =>
      cases read
      decide
    | some known =>
      simp only [Bool.false_eq_true,if_false] at read
      split at read
      · cases read
        decide
      · split at read
        · cases read
          decide
        · cases read

theorem contextReadReg_congr (regs : s'.regs = s.regs) (size : Nat) :
    contextReadReg c ctx regDef offs size s' = contextReadReg c ctx regDef offs size s := by
  unfold contextReadReg
  rw [regs]

theorem readRegBytes_congr (same : s'.regs = s.regs) (top : Bool) (regs : Option RegisterData) (size : Nat) :
    readRegBytes c ctx top regs regDef offs size s' = readRegBytes c ctx top regs regDef offs size s := by
  unfold readRegBytes
  rw [contextReadReg_congr same]

end Bytes

section Frames

variable {κ δ : Type} {c : Contexts κ δ} {s s' : State κ} {ctx : κ}

theorem tracing_congr (same : s'.regs = s.regs) (ctx : κ) : tracing c ctx s' = tracing c ctx s := by
  unfold tracing
  simp only [contextReadReg_congr same]

/-- The same registers, and traces that went on. -/
structure Later (c : Contexts κ δ) (s s' : State κ) : Prop where
  regs : s'.regs = s.regs
  traces : ∀ ctx, Traced (tracing c ctx s) (s.traces ctx).stack (s'.traces ctx).stack

theorem Later.refl (c : Contexts κ δ) (s : State κ) : Later c s s := ⟨rfl,fun _ => .refl⟩

theorem Later.trans {s'' : State κ} (first : Later c s s') (second : Later c s' s'') : Later c s s'' := by
  refine ⟨second.regs.trans first.regs,fun ctx => (first.traces ctx).trans ?_⟩
  rw [← tracing_congr first.regs]
  exact second.traces ctx

theorem extend_traced (c : Contexts κ δ) (s : State κ) (ctx : κ) (n : Nat) :
    Traced (tracing c ctx s) (s.traces ctx).stack ((s.traces ctx).extend c ctx s n).stack ∧
      StackTrace.Settled (n + 1) ((s.traces ctx).extend c ctx s n).stack :=
  have run := StackTrace.createStackTrace_traced (s.traces ctx).hits n
  ⟨run.1,run.2.1⟩

/-- A frame, none if there is no such frame. -/
def frameOf (c : Contexts κ δ) (s : State κ) (ctx : κ) (n : Nat) : Option (Bool × Option RegisterData) :=
  if c.hasState ctx = true ∧ c.stopped ctx = true then (StackTrace.contents ((s.traces ctx).extend c ctx s (n + 1)).stack)[n]? else none

/-- A frame is the same whatever was traced before. -/
theorem Later.frameOf (later : Later c s s') (ctx : κ) (n : Nat) : frameOf c s' ctx n = frameOf c s ctx n := by
  have first := extend_traced c s ctx (n + 1)
  have second := extend_traced c s' ctx (n + 1)
  rw [tracing_congr later.regs] at second
  have same := StackTrace.settled_contents ((later.traces ctx).trans second.1) first.1 second.2 first.2
    (Nat.lt_of_lt_of_le (Nat.lt_succ_self n) (Nat.le_succ _))
  unfold RegisterLists.frameOf
  rw [same]

/-- Bytes of a register. -/
def readAt (c : Contexts κ δ) (s : State κ) (reg : Register κ δ) (offs size : Nat) : Except Int (List UInt8) :=
  if reg.frame ≤ 0 then contextReadReg c reg.ctx (c.definition reg.regDef) offs size s
  else
    match frameOf c s reg.ctx reg.frame.toNat with
    | none => .error ERR_INV_CONTEXT
    | some (top,regs) => readRegBytes c reg.ctx top regs (c.definition reg.regDef) offs size s

theorem readAt_slice {reg : Register κ δ} {value : List UInt8} {offs n : Nat}
    (read : readAt c s reg 0 (c.definition reg.regDef).size = .ok value) (inside : offs + n ≤ (c.definition reg.regDef).size) :
    readAt c s reg offs n = .ok ((value.drop offs).take n) := by
  unfold readAt at read ⊢
  split at read
  · rename_i top
    rw [if_pos top]
    exact contextReadReg_slice read inside
  · rename_i below
    rw [if_neg below]
    cases frame : frameOf c s reg.ctx reg.frame.toNat with
    | none =>
      rw [frame] at read
      cases read
    | some seen =>
      rw [frame] at read
      exact readRegBytes_slice (c.size_lt reg.regDef) read inside

theorem readAt_error {reg : Register κ δ} {offs size : Nat} {err : Int} (read : readAt c s reg offs size = .error err) : err ≠ 0 := by
  unfold readAt at read
  split at read
  · exact contextReadReg_error read
  · split at read
    · cases read
      decide
    · exact readRegBytes_error read

variable [DecidableEq κ]

theorem traced_same (s : State κ) (ctx : κ) (n : Nat) : (s.traced c ctx n).traces ctx = (s.traces ctx).extend c ctx s n := if_pos rfl

theorem traced_later (c : Contexts κ δ) (s : State κ) (ctx : κ) (n : Nat) : Later c s (s.traced c ctx n) := by
  refine ⟨rfl,fun other => ?_⟩
  by_cases own : other = ctx
  · subst own
    rw [traced_same]
    exact (extend_traced c s other n).1
  · have still : (s.traced c ctx n).traces other = s.traces other := if_neg own
    rw [still]

/-- `get_frame_info` finds a frame below the top one exactly if there is such a frame. -/
theorem getFrameInfo_some {frame : Int} {seen : Bool × Option RegisterData} (below : 0 < frame)
    (here : frameOf c s ctx frame.toNat = some seen) : getFrameInfo c ctx frame s =
      (.ok ⟨ctx,((s.traced c ctx (frame.toNat + 1)).traces ctx).frameMax,frame.toNat⟩,s.traced c ctx (frame.toNat + 1)) := by
  have count : (frame + 1).toNat = frame.toNat + 1 := by omega
  unfold frameOf at here
  split at here
  · rename_i ready
    have inside := (List.getElem?_eq_some_iff.mp here).1
    rw [StackTrace.contents_length,← traced_same] at inside
    unfold getFrameInfo
    rw [if_neg (by rw [ready.1]; decide),if_neg (by rw [ready.2]; decide),count]
    exact if_neg (by omega)
  · cases here

theorem getFrameInfo_none {frame : Int} (below : 0 < frame) (gone : frameOf c s ctx frame.toNat = none) :
    ∃ err s', getFrameInfo c ctx frame s = (.error err,s') ∧ err ≠ 0 := by
  have count : (frame + 1).toNat = frame.toNat + 1 := by omega
  unfold getFrameInfo
  by_cases hasState : c.hasState ctx = false
  · rw [if_pos hasState]
    exact ⟨_,_,rfl,by decide⟩
  by_cases stopped : c.stopped ctx = false
  · rw [if_neg hasState,if_pos stopped]
    exact ⟨_,_,rfl,by decide⟩
  · unfold frameOf at gone
    rw [if_pos ⟨Bool.not_eq_false _ ▸ hasState,Bool.not_eq_false _ ▸ stopped⟩] at gone
    have outside := List.getElem?_eq_none_iff.mp gone
    rw [StackTrace.contents_length,← traced_same] at outside
    rw [if_neg hasState,if_neg stopped,count]
    exact ⟨_,_,if_pos (by omega),by decide⟩

/-- A frame is read through its pointer as long as it is in the same block. -/
theorem readFrame_later {n : Nat} {seen : Bool × Option RegisterData} (here : frameOf c s ctx n = some seen)
    (later : Later c (s.traced c ctx (n + 1)) s') (frameMax offs size : Nat) (regDef : RegisterDefinition) :
    readFrame c ⟨ctx,frameMax,n⟩ regDef offs size s' =
      if (s'.traces ctx).frameMax = frameMax then readRegBytes c ctx seen.1 seen.2 regDef offs size s else .error 0 := by
  unfold frameOf at here
  split at here
  · rw [← traced_same] at here
    have inside := (List.getElem?_eq_some_iff.mp here).1
    obtain ⟨more,eq⟩ := (later.traces ctx).contents
    have still : (StackTrace.contents (s'.traces ctx).stack)[n]? = some seen := by
      rw [← eq,List.getElem?_append_left inside,here]
    unfold StackTrace.contents at still
    rw [List.getElem?_map] at still
    obtain ⟨frame,found,rfl⟩ := Option.map_eq_some_iff.mp still
    unfold readFrame
    dsimp only
    rw [found]
    by_cases block : (s'.traces ctx).frameMax = frameMax
    · rw [if_neg (not_not_intro block),if_pos block]
      exact readRegBytes_congr later.regs ..
    · rw [if_pos block,if_neg block]
  · cases here

end Frames

end Tcf.RegisterLists
