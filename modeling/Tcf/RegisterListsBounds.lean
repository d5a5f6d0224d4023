import Tcf.RegisterLists

/-! When lists of places in registers are read and written inside the registers, the reply buffer and the data. -/
namespace Tcf.RegisterLists

variable {κ δ φ σ : Type} {w : World κ δ φ σ}

def Access.Inside (w : World κ δ φ σ) : Access δ → Prop
  | .register regDef offs size => offs + size ≤ w.regSize regDef
  | .reply pos size len => pos + size ≤ len
  | .data pos size len => pos + size ≤ len

/-- The end of a location is an `unsigned`. -/
def Checked.NoWrap (l : Checked κ δ φ) : Prop := l.offs.toNat + l.size.toNat < 2 ^ 32

/-- The end of a value in the reply buffer, and the length that this grows to, are `unsigned`. -/
def ReplyNoWrap (pos len size : UInt32) : Prop :=
  pos.toNat + size.toNat < 2 ^ 32 ∧ (len.toNat < pos.toNat + size.toNat → len.toNat + 0x100 + size.toNat < 2 ^ 32)

/-- Nothing goes around 2^32 up to a location that cannot be read. -/
def GetmFits (w : World κ δ φ σ) (s : σ) : UInt32 → UInt32 → List (Checked κ δ φ) → Prop
  | _, _, [] => True
  | pos, len, l :: rest =>
    l.NoWrap ∧ ReplyNoWrap pos len l.size ∧
      ∀ value, readChecked w l s = .ok value → GetmFits w s (pos + l.size) (grown pos len l.size) rest

/-- The ends of locations do not go around 2^32, and there are data for all of them, up to a location that cannot be
written. -/
def SetmFits (w : World κ δ φ σ) (data : List UInt8) : UInt32 → List (Checked κ δ φ) → σ → Prop
  | _, [], _ => True
  | pos, l :: rest, s =>
    if 0 < l.size then
      l.NoWrap ∧ pos.toNat + l.size.toNat ≤ data.length ∧
        ∀ s', w.contextWriteReg l.ctx l.regDef l.offs.toNat ((data.drop pos.toNat).take l.size.toNat) s = (none,s') →
          SetmFits w data (pos + l.size) rest s'
    else SetmFits w data pos rest s

/-- What the check lets through: the end of a location, as an `unsigned`, is in its register. -/
def Checked.Passed (w : World κ δ φ σ) (l : Checked κ δ φ) : Prop := (l.offs + l.size).toNat ≤ w.regSize l.regDef

section Checks

variable {setm : Bool} {loc : Location} {s s' : σ} {checked : Checked κ δ φ}

theorem checkLocation_passed (run : checkLocation w setm loc s = (.ok checked,s')) : checked.Passed w := by
  unfold checkLocation at run
  cases found : w.id2register loc.id with
  | error err =>
    rw [found] at run
    cases run
  | ok reg =>
    rw [found] at run
    simp only at run
    split at run
    · cases run
    split at run
    · cases run
    split at run
    · cases run
    · have passed := Nat.le_of_not_lt ‹_›
      split at run
      · cases run
        exact passed
      split at run
      · cases run
      · cases info : w.getFrameInfo reg.ctx reg.frame s with
        | mk answer after =>
          rw [info] at run
          cases answer with
          | error err => cases run
          | ok info =>
            cases run
            exact passed

theorem checkLocationList_passed {locs : List Location} {list : List (Checked κ δ φ)}
    (run : checkLocationList w setm locs s = (.ok list,s')) : ∀ l ∈ list, l.Passed w := by
  induction locs generalizing s list with
  | nil =>
    cases run
    exact fun _ member => absurd member List.not_mem_nil
  | cons loc rest ih =>
    unfold checkLocationList at run
    cases first : checkLocation w setm loc s with
    | mk answer after =>
      rw [first] at run
      cases answer with
      | error err => cases run
      | ok checked =>
        simp only at run
        cases later : checkLocationList w setm rest after with
        | mk answer last =>
          rw [later] at run
          cases answer with
          | error err => cases run
          | ok others =>
            cases run
            exact List.forall_mem_cons.mpr ⟨checkLocation_passed first,ih later⟩

end Checks

section Steps

variable {l : Checked κ δ φ} {pos len size : UInt32}

/-- A location that has passed is inside its register exactly if its end does not go around. -/
theorem register_inside_iff (passed : l.Passed w) :
    (Access.register l.regDef l.offs.toNat l.size.toNat).Inside w ↔ l.NoWrap := by
  have small := w.regSize_lt l.regDef
  unfold Checked.Passed at passed
  rw [UInt32.toNat_add] at passed
  change l.offs.toNat + l.size.toNat ≤ w.regSize l.regDef ↔ l.offs.toNat + l.size.toNat < 2 ^ 32
  omega

theorem size_lt (passed : l.Passed w) (noWrap : l.NoWrap) : l.size.toNat < 2 ^ 16 := by
  have inside : l.offs.toNat + l.size.toNat ≤ w.regSize l.regDef := (register_inside_iff passed).mpr noWrap
  have small := w.regSize_lt l.regDef
  omega

/-- The value is inside the reply buffer, which has grown for it, exactly if nothing goes around. -/
theorem reply_inside_iff (small : size.toNat < 2 ^ 16) (before : pos.toNat ≤ len.toNat) :
    (Access.reply pos.toNat size.toNat (grown pos len size).toNat : Access δ).Inside w ↔ ReplyNoWrap pos len size := by
  have limit := (grown pos len size).toNat_lt
  change pos.toNat + size.toNat ≤ (grown pos len size).toNat ↔ _
  unfold ReplyNoWrap
  by_cases wraps : pos.toNat + size.toNat < 2 ^ 32
  · have sum : (pos + size).toNat = pos.toNat + size.toNat := by
      rw [UInt32.toNat_add]
      exact Nat.mod_eq_of_lt wraps
    unfold grown
    split
    · rename_i more
      rw [UInt32.lt_iff_toNat_lt,sum] at more
      rw [UInt32.toNat_add,UInt32.toNat_add]
      simp only [UInt32.reduceToNat]
      have limit := len.toNat_lt
      omega
    · rename_i enough
      rw [UInt32.lt_iff_toNat_lt,sum] at enough
      omega
  · omega

/-- One round of the reading loop. -/
theorem getm_step (passed : l.Passed w) (before : pos.toNat ≤ len.toNat) :
    (Access.reply pos.toNat l.size.toNat (grown pos len l.size).toNat : Access δ).Inside w ∧
      (Access.register l.regDef l.offs.toNat l.size.toNat).Inside w ↔ l.NoWrap ∧ ReplyNoWrap pos len l.size := by
  constructor
  · intro inside
    have noWrap := (register_inside_iff passed).mp inside.2
    exact ⟨noWrap,(reply_inside_iff (size_lt passed noWrap) before).mp inside.1⟩
  · intro fits
    have small := size_lt passed fits.1
    exact ⟨(reply_inside_iff small before).mpr fits.2,(register_inside_iff passed).mpr fits.1⟩

/-- The next value begins in the reply buffer, or at its end. -/
theorem grown_le (inside : (Access.reply pos.toNat size.toNat (grown pos len size).toNat : Access δ).Inside w) :
    (pos + size).toNat ≤ (grown pos len size).toNat := by
  have limit : pos.toNat + size.toNat ≤ (grown pos len size).toNat := inside
  rw [UInt32.toNat_add]
  exact Nat.le_trans (Nat.mod_le _ _) limit

end Steps

section Loops

/-- Induction on the locations: what is used before the next location is inside exactly if nothing goes around there. -/
theorem getmLoop_inside_iff (s : σ) {ls : List (Checked κ δ φ)} (pos len : UInt32) (passed : ∀ l ∈ ls, l.Passed w)
    (before : pos.toNat ≤ len.toNat) : (∀ a ∈ (getmLoop w s pos len ls).1, a.Inside w) ↔ GetmFits w s pos len ls := by
  induction ls generalizing pos len with
  | nil => exact ⟨fun _ => trivial,fun _ _ member => absurd member List.not_mem_nil⟩
  | cons l rest ih =>
    have passed := List.forall_mem_cons.mp passed
    have step := getm_step passed.1 before
    unfold getmLoop GetmFits
    cases read : readChecked w l s with
    | error err =>
      simp only [List.forall_mem_cons,reduceCtorEq,false_implies,implies_true,and_true,List.not_mem_nil]
      exact step
    | ok value =>
      simp only [List.cons_append,List.nil_append,List.forall_mem_cons,Except.ok.injEq,forall_eq']
      constructor
      · intro inside
        have here := step.mp ⟨inside.1,inside.2.1⟩
        exact ⟨here.1,here.2,(ih _ _ passed.2 (grown_le inside.1)).mp inside.2.2⟩
      · intro fits
        have here := step.mpr ⟨fits.1,fits.2.1⟩
        exact ⟨here.1,here.2,(ih _ _ passed.2 (grown_le here.1)).mpr fits.2.2⟩

theorem setmLoop_inside_iff (data : List UInt8) (s : σ) {ls : List (Checked κ δ φ)} (pos : UInt32)
    (passed : ∀ l ∈ ls, l.Passed w) :
    (∀ a ∈ (setmLoop w data pos ls s).1, a.Inside w) ↔ SetmFits w data pos ls s := by
  induction ls generalizing pos s with
  | nil => exact ⟨fun _ => trivial,fun _ _ member => absurd member List.not_mem_nil⟩
  | cons l rest ih =>
    have passed := List.forall_mem_cons.mp passed
    have step := register_inside_iff passed.1
    unfold setmLoop SetmFits
    by_cases some : 0 < l.size
    · simp only [if_pos some]
      cases write : w.contextWriteReg l.ctx l.regDef l.offs.toNat ((data.drop pos.toNat).take l.size.toNat) s with
      | mk err after =>
        cases err with
        | some err =>
          simp only [List.forall_mem_cons,Prod.mk.injEq,reduceCtorEq,false_and,false_implies,implies_true,and_true,
            List.not_mem_nil]
          exact ⟨fun inside => ⟨step.mp inside.2,inside.1⟩,fun fits => ⟨fits.2,step.mpr fits.1⟩⟩
        | none =>
          simp only [List.cons_append,List.nil_append,List.forall_mem_cons,Prod.mk.injEq,true_and,forall_eq']
          constructor
          · intro inside
            exact ⟨step.mp inside.2.1,inside.1,(ih _ _ passed.2).mp inside.2.2⟩
          · intro fits
            exact ⟨fits.2.1,step.mpr fits.1,(ih _ _ passed.2).mpr fits.2.2⟩
    · simp only [if_neg some]
      exact ih _ _ passed.2

end Loops

section Claims

/-- `Registers.getm` and `Registers.setm` stay inside the registers, the reply buffer and the data received exactly if
the ends of the locations and of the reply buffer do not go around 2^32 and there are data for all locations that are
written. -/
theorem lists_inside_iff (w : World κ δ φ σ) (locs : List Location) (data : List UInt8) (len : UInt32) (s : σ) :
    ((∀ a ∈ (getm w len locs s).1, a.Inside w) ∧ (∀ a ∈ (setm w locs data s).1, a.Inside w)) ↔
      (∀ checked s', checkLocationList w false locs s = (.ok checked,s') → GetmFits w s' 0 (replyLen len) checked) ∧
      (∀ checked s', checkLocationList w true locs s = (.ok checked,s') → SetmFits w data 0 checked s') := by
  apply and_congr
  · unfold getm
    cases check : checkLocationList w false locs s with
    | mk answer after =>
      cases answer with
      | error err => simp
      | ok checked =>
        have loop := getmLoop_inside_iff after 0 (replyLen len) (checkLocationList_passed check) (Nat.zero_le _)
        constructor
        · rintro inside _ _ ⟨⟩
          exact loop.mp inside
        · intro fits
          exact loop.mpr (fits checked after rfl)
  · unfold setm
    cases check : checkLocationList w true locs s with
    | mk answer after =>
      cases answer with
      | error err => simp
      | ok checked =>
        have loop := setmLoop_inside_iff data after 0 (checkLocationList_passed check)
        constructor
        · rintro inside _ _ ⟨⟩
          exact loop.mp inside
        · intro fits
          exact loop.mpr (fits checked after rfl)

/-- One register of four bytes, in one stopped context. -/
def oneRegister : World Unit Unit Unit (List UInt8) where
  id2register _ := .ok ⟨(),-1,()⟩
  exited _ := false
  stopped _ := true
  hasState _ := true
  regAccess _ := 0
  regSize _ := 4
  isTopFrame _ _ := false
  getFrameInfo _ _ s := (.error ERR_OTHER,s)
  contextReadReg _ _ offs size s := .ok ((s.drop offs).take size)
  readRegBytes _ _ _ _ _ := .error ERR_OTHER
  contextWriteReg _ _ offs bytes s := (none,s.take offs ++ bytes ++ s.drop (offs + bytes.length))
  regSize_lt _ := by decide

/-- One byte at offset 2^32 - 1 ends at 0, which is in the register; and four bytes are written with no data received. -/
theorem end_goes_around :
    Access.register () 0xFFFFFFFF 1 ∈ (getm oneRegister 0 [⟨[],0xFFFFFFFF,1⟩] [1,2,3,4]).1 ∧
      ¬ (Access.register () 0xFFFFFFFF 1).Inside oneRegister ∧
      Access.data 0 4 0 ∈ (setm oneRegister [⟨[],0,4⟩] [] [1,2,3,4]).1 ∧
      ¬ (Access.data 0 4 0).Inside oneRegister := by
  refine ⟨by decide,?_,by decide,?_⟩
  · change ¬ 0xFFFFFFFF + 1 ≤ 4
    decide
  · change ¬ 0 + 4 ≤ 0
    decide

end Claims

end Tcf.RegisterLists
