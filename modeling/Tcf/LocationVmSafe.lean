import Tcf.LocationVm

/-! The virtual machine stays inside its stack, its code and its read buffer in every run whose
steps are as the code takes them to be, and an error leaves its state as it was. -/
namespace Tcf.LocationVm

/-- The part of the state of an expression that its evaluation must leave as it is. -/
structure Level where
  stackFrame : Option StackFrame
  args : List UInt64
  code : Nat
  codeLen : Nat
  bigEndian : Bool
  addrSize : Nat

def LocationExpressionState.level (own : LocationExpressionState) : Level :=
  ⟨own.stackFrame,own.args,own.code,own.codeLen,own.bigEndian,own.addrSize⟩

/-- The code of an expression lies in the code of the outermost one. -/
def Level.Inside (l : Level) (bytes : Nat) : Prop := l.code + l.codeLen ≤ bytes

/-- The steps that go well when the outermost expression has some bytes: the size of the stack does
not overflow, a read fits the buffer, the operand of OP_GNU_entry_value lies in the code, unwinding
evaluates no other expression, and there is a `client_op`. -/
def Step.Good (bytes : Nat) : Step → Prop
  | .room stkPos stkMax => stkPos + 4 < 2 ^ 32 ∧ (stkMax < stkPos + 4 → stkMax + 8 < 2 ^ 32)
  | .transfer size => size ≤ 8
  | .entry pos size => pos + size ≤ bytes
  | .unwind evaluates => evaluates = false
  | .client known => known = true

instance (bytes : Nat) (step : Step) : Decidable (step.Good bytes) := by
  cases step <;> unfold Step.Good <;> infer_instance

/-- The machine at a level: running or not, with at least so many entries on the stack, and room for
so many more. -/
structure At (l : Level) (running : Bool) (entries room : Nat) (s : State) : Prop where
  active : s.active = running
  code : running = true → s.code = l.code
  codeLen : running = true → s.codeLen = l.codeLen
  level : s.own.level = l
  entries : entries ≤ s.own.stkPos
  room : s.own.stkPos + room ≤ s.own.stk.length
  stkMax : s.own.stk.length < 2 ^ 32

/-- The machine stays at a level, with an error also. -/
def Safe (bytes : Nat) (l : Level) (running : Bool) (entries room : Nat) (x : Run α) (entries' room' : Nat) : Prop :=
  Trapped.Meets (Step.Good bytes) (At l running entries room) x (fun _ => At l running entries' room') fun _ => At l running 0 0

variable {s : State} {pre : State → Prop}

section Rules

open Trapped (Meets)

variable {bytes : Nat} {l : Level} {running : Bool} {a b c d e f n : Nat}

theorem At.less (holds : At l running a b s) (entries : c ≤ a) (room : d ≤ b) : At l running c d s where
  active := holds.active
  code := holds.code
  codeLen := holds.codeLen
  level := holds.level
  entries := Nat.le_trans entries holds.entries
  room := Nat.le_trans (Nat.add_le_add_left room _) holds.room
  stkMax := holds.stkMax

theorem At.least (holds : At l running a b s) : At l running 0 0 s := holds.less (Nat.zero_le _) (Nat.zero_le _)

/-- A change that leaves the stack and all that belongs to the level. -/
theorem At.change {s' : State} (holds : At l running a b s) (active : s'.active = s.active) (code : s'.code = s.code)
    (codeLen : s'.codeLen = s.codeLen) (level : s'.own.level = s.own.level) (stkPos : s'.own.stkPos = s.own.stkPos)
    (stk : s'.own.stk = s.own.stk) : At l running a b s' where
  active := active.trans holds.active
  code on := code.trans (holds.code on)
  codeLen on := codeLen.trans (holds.codeLen on)
  level := level.trans holds.level
  entries := stkPos ▸ holds.entries
  room := by rw [stkPos,stk]; exact holds.room
  stkMax := stk ▸ holds.stkMax

variable {x : Run α}

theorem Safe.bind {k : α → Run β} (first : Safe bytes l running a b x c d)
    (rest : ∀ v, Safe bytes l running c d (k v) e f) : Safe bytes l running a b (x >>= k) e f := Meets.bind first rest

theorem Safe.pure (v : α) : Safe bytes l running a b (pure v : Run α) a b := Meets.pure fun _ holds => holds

theorem Safe.to (safe : Safe bytes l running a b x c d) (entries : e ≤ c) (room : f ≤ d) :
    Safe bytes l running a b x e f := Meets.weaken safe (fun _ holds => holds) (fun _ _ holds => holds.less entries room) fun _ _ holds => holds

/-- What is known besides is not needed any more. -/
theorem Safe.after (safe : Safe bytes l running a b x c d)
    (before : ∀ s, pre s → At l running a b s) :
    Meets (Step.Good bytes) pre x (fun _ => At l running c d) fun _ => At l running 0 0 :=
  Meets.weaken safe before (fun _ _ holds => holds) fun _ _ holds => holds

theorem Safe.at {now : State} (safe : Safe bytes l running a b x c d) (holds : At l running a b now) :
    Meets (Step.Good bytes) (now = ·) x (fun _ => At l running c d) fun _ => At l running 0 0 :=
  safe.after fun _ same => same ▸ holds

theorem Safe.raise (error : Error) : Safe bytes l running a b (Trapped.raise error : Run α) c d := Meets.raise fun _ holds => holds.least

theorem Safe.state : Safe bytes l running a b (Trapped.state : Run State) a b :=
  Meets.weaken .state (fun _ holds => holds) (fun _ _ holds => holds.2) fun _ _ holds => holds

theorem Safe.change {g : State → State} (holds : ∀ s, At l running a b s → At l running c d (g s)) :
    Safe bytes l running a b (Trapped.change g : Run Unit) c d := Meets.change holds

theorem Safe.changed {g : State → State} (safe : Safe bytes l running a b x c d)
    (holds : ∀ s, pre s → At l running a b (g s)) :
    Meets (Step.Good bytes) pre (Trapped.change g >>= fun _ => x) (fun _ => At l running c d) fun _ => At l running 0 0 :=
  Meets.changed safe holds

theorem Safe.ite {p : Prop} [Decidable p] {y : Run α} (yes : p → Safe bytes l running a b x c d)
    (no : ¬p → Safe bytes l running a b y c d) : Safe bytes l running a b (if p then x else y) c d := Meets.ite yes no

theorem exceptionOf_safe (answer : Except Int α) : Safe bytes l running a b (exceptionOf answer) a b :=
  Meets.call (fun _ _ _ holds => holds) fun _ _ _ holds => holds.least

/-- A check, and what is known after it. -/
theorem checkDwarf_meets {p : Prop} [Decidable p] (msg : String)
    (error : ∀ s, pre s → At l running 0 0 s) :
    Meets (Step.Good bytes) pre (checkDwarf p msg) (fun _ s => p ∧ pre s) fun _ => At l running 0 0 := by
  unfold checkDwarf
  apply Meets.ite
  · intro holds
    exact Meets.pure fun s before => ⟨holds,before⟩
  · intro _
    exact Meets.raise error

theorem checkDwarf_safe {p : Prop} [Decidable p] (msg : String) : Safe bytes l running a b (checkDwarf p msg) a b :=
  Meets.weaken (checkDwarf_meets msg fun _ holds => holds.least) (fun _ holds => holds) (fun _ _ holds => holds.2)
    fun _ _ holds => holds

theorem defined_meets {p : Prop} [Decidable p] {failed : Error → State → Prop} (holds : ∀ s, pre s → p) :
    Meets (Step.Good bytes) pre (defined p) (fun _ => pre) failed := by
  unfold defined
  apply Meets.ite
  · intro _
    exact Meets.pure fun _ before => before
  · intro undefined
    exact Meets.fault fun s before => undefined (holds s before)

theorem rethrow_meets (error : Option Error) :
    Meets (Step.Good bytes) pre (rethrow error) (fun _ => pre) fun _ => pre := by
  cases error with
  | none => exact Meets.pure fun _ holds => holds
  | some error => exact Meets.raise fun _ holds => holds

theorem rethrow_safe (error : Option Error) : Safe bytes l running 0 0 (rethrow error) 0 0 := rethrow_meets error

end Rules

section Stack

open Trapped (Meets)

variable {bytes : Nat} {l : Level} {running : Bool} {a b : Nat}

theorem checkStack_safe (n : Nat) : Safe bytes l running a b (checkStack n) n b := by
  apply Meets.observe
  intro now holds
  apply Meets.ite
  · intro enough
    exact Meets.pure fun s same => same ▸ { holds with entries := enough }
  · intro _
    exact (Safe.raise _).at holds

theorem stackAt_safe {depth : Nat} (below : depth ≤ a) (room : 0 < depth ∨ 0 < b) :
    Safe bytes l running a b (stackAt depth) a b := by
  apply Meets.observe
  intro now holds
  apply Meets.bind (defined_meets fun _ _ => Nat.le_trans below holds.entries)
  intro _
  have inside : now.own.stkPos - depth < now.own.stk.length := by
    have := holds.room
    have := holds.entries
    omega
  rw [List.getElem?_eq_getElem inside]
  exact (Safe.pure _).at holds

theorem setStackAt_safe {depth : Nat} (value : UInt64) (below : depth ≤ a) (room : 0 < depth ∨ 0 < b) :
    Safe bytes l running a b (setStackAt depth value) a b := by
  apply Meets.observe
  intro now holds
  have inside : depth ≤ now.own.stkPos ∧ now.own.stkPos - depth < now.own.stk.length := by
    have := holds.room
    have := holds.entries
    omega
  apply Meets.bind (defined_meets fun _ _ => inside)
  intro _
  apply Meets.change
  rintro s rfl
  exact
    { active := holds.active, code := holds.code, codeLen := holds.codeLen, level := holds.level, entries := holds.entries
      room := by simpa [State.setStk,State.setOwn] using holds.room
      stkMax := by simpa [State.setStk,State.setOwn] using holds.stkMax }

theorem push_safe (value : UInt64) : Safe bytes l running a (b + 1) (push value) (a + 1) b := by
  apply Safe.bind (setStackAt_safe value (Nat.zero_le _) (.inr (Nat.succ_pos b)))
  intro _
  apply Safe.change
  intro s holds
  have entries := holds.entries
  have room := holds.room
  have stkMax := holds.stkMax
  have next : (s.own.stkPos + 1) % 2 ^ 32 = s.own.stkPos + 1 := Nat.mod_eq_of_lt (by omega)
  rw [next]
  exact
    { active := holds.active, code := holds.code, codeLen := holds.codeLen, level := holds.level, stkMax
      entries := by simp only [State.setStkPos,State.setOwn]; omega
      room := by simp only [State.setStkPos,State.setOwn]; omega }

theorem drop_safe : Safe bytes l running (a + 1) b drop a (b + 1) := by
  apply Safe.change
  intro s holds
  have entries := holds.entries
  have room := holds.room
  have stkMax := holds.stkMax
  have next : (s.own.stkPos + (2 ^ 32 - 1)) % 2 ^ 32 = s.own.stkPos - 1 := by
    obtain ⟨below,pos⟩ := Nat.exists_eq_add_one.mpr (Nat.zero_lt_of_lt entries)
    rw [pos,Nat.add_assoc,Nat.add_sub_of_le (Nat.one_le_two_pow),Nat.add_mod_right]
    exact Nat.mod_eq_of_lt (by omega)
  rw [next]
  exact
    { active := holds.active, code := holds.code, codeLen := holds.codeLen, level := holds.level, stkMax
      entries := by simp only [State.setStkPos,State.setOwn]; omega
      room := by simp only [State.setStkPos,State.setOwn]; omega }

theorem pop_safe : Safe bytes l running (a + 1) b pop a (b + 1) := by
  apply Safe.bind drop_safe
  intro _
  exact stackAt_safe (Nat.zero_le _) (.inr (Nat.succ_pos b))

/-- An operator finds room for four entries. -/
theorem grow_safe : Safe bytes l running 0 0 grow 0 4 := by
  apply Meets.observe
  intro now holds
  apply Meets.bind .note
  intro _
  apply Meets.change
  rintro s ⟨⟨small,next⟩,rfl⟩
  have pos := holds.room
  have stkMax := holds.stkMax
  unfold grown
  rw [Nat.mod_eq_of_lt small]
  split
  · have fits := next ‹_›
    have length : ((now.own.stk ++ List.replicate 8 0).take ((now.own.stk.length + 8) % 2 ^ 32)).length = now.own.stk.length + 8 := by
      rw [Nat.mod_eq_of_lt fits]
      simp
    exact
      { active := holds.active, code := holds.code, codeLen := holds.codeLen, level := holds.level, entries := Nat.zero_le _
        room := by simp only [State.setStk,State.setOwn,length]; omega
        stkMax := by simpa only [State.setStk,State.setOwn,length] using fits }
  · exact { holds with room := Nat.le_of_not_lt ‹_› }

theorem unary_safe (g : UInt64 → UInt64) : Safe bytes l running a b (unary g) 0 b := by
  apply Safe.bind (checkStack_safe 1)
  intro _
  apply Safe.bind (stackAt_safe (Nat.le_refl _) (.inl Nat.one_pos))
  intro x
  exact (setStackAt_safe _ (Nat.le_refl _) (.inl Nat.one_pos)).to (Nat.zero_le _) (Nat.le_refl _)

theorem binaryChecked_safe (g : UInt64 → UInt64 → Except String UInt64) : Safe bytes l running a b (binaryChecked g) 0 b := by
  apply Safe.bind (checkStack_safe 2)
  intro _
  apply Safe.bind drop_safe
  intro _
  apply Safe.bind (stackAt_safe (Nat.zero_le _) (.inr (Nat.succ_pos b)))
  intro y
  apply Safe.bind (stackAt_safe (Nat.le_refl _) (.inl Nat.one_pos))
  intro x
  cases g x y with
  | ok value => exact (setStackAt_safe value (Nat.le_refl _) (.inl Nat.one_pos)).to (Nat.zero_le _) (Nat.le_succ _)
  | error msg => exact .raise _

end Stack

section Readers

open Trapped (Meets)

variable {code : List UInt8} {t : Target} {l : Level} {a b : Nat}

section

variable (inside : l.Inside code.length)

include inside

/-- A position of the code before its end is a position of the outermost expression. -/
theorem codeByte_meets :
    Meets (Step.Good code.length) (fun s => s.codePos < s.codeLen ∧ At l true a b s) (codeByte code) (fun _ => At l true a b)
      fun _ => At l true 0 0 := by
  apply Meets.observe
  intro now ⟨before,holds⟩
  have bound : now.code + now.codePos < code.length := by
    rw [holds.codeLen rfl] at before
    rw [holds.code rfl]
    exact Nat.lt_of_lt_of_le (Nat.add_lt_add_left before _) inside
  rw [List.getElem?_eq_getElem bound]
  exact (Safe.pure _).at holds

omit inside in
theorem setCodePos_safe (f : State → Nat) :
    Safe code.length l true a b (Trapped.change fun s => s.setCodePos (f s)) a b :=
  Safe.change fun _ holds => holds.change rfl rfl rfl rfl rfl rfl

theorem nextByte_meets :
    Meets (Step.Good code.length) (fun s => s.codePos < s.codeLen ∧ At l true a b s) (nextByte code) (fun _ => At l true a b)
      fun _ => At l true 0 0 := by
  apply Meets.bind (codeByte_meets inside)
  intro byte
  apply Safe.bind (setCodePos_safe _)
  intro _
  exact Safe.pure byte

theorem readU1_safe : Safe code.length l true a b (readU1 code) a b := by
  apply Meets.observe
  intro now holds
  apply Meets.bind (checkDwarf_meets _ fun s same => same ▸ holds.least)
  intro _
  apply Meets.bind
  · intro s ⟨before,same⟩
    subst same
    exact nextByte_meets inside now ⟨before,holds⟩
  · intro byte
    exact Safe.pure byte.toUInt64

omit inside in
theorem readHalves_safe {half : Run UInt64} (bits : UInt64) (safe : Safe code.length l true a b half a b) :
    Safe code.length l true a b (readHalves bits half) a b := by
  apply Safe.bind safe
  intro x0
  apply Safe.bind safe
  intro x1
  apply Safe.bind .state
  intro s
  exact Safe.pure _

theorem readU2_safe : Safe code.length l true a b (readU2 code) a b :=
  readHalves_safe 8 (readU1_safe inside)

theorem readU4_safe : Safe code.length l true a b (readU4 code) a b :=
  readHalves_safe 16 (readU2_safe inside)

theorem readU8_safe : Safe code.length l true a b (readU8 code) a b :=
  readHalves_safe 32 (readU4_safe inside)

theorem lebBytes_safe (rounds : Nat) :
    Safe code.length l true a b (lebBytes code rounds) a b := by
  induction rounds with
  | zero => exact Meets.unfinished
  | succ rounds ih =>
    apply Safe.bind (readU1_safe inside)
    intro n
    apply Safe.ite
    · intro _
      exact Safe.pure [n]
    · intro _
      exact Safe.bind ih fun rest => Safe.pure (n :: rest)

theorem readLeb_safe : Safe code.length l true a b (readLeb code) a b :=
  Safe.bind .state fun _ => lebBytes_safe inside _

theorem readU4leb128_safe : Safe code.length l true a b (readU4leb128 code t) a b :=
  Safe.bind (readLeb_safe inside) fun _ => Safe.pure _

theorem readU8leb128_safe : Safe code.length l true a b (readU8leb128 code t) a b :=
  Safe.bind (readLeb_safe inside) fun _ => Safe.pure _

theorem readI8leb128_safe : Safe code.length l true a b (readI8leb128 code t) a b :=
  Safe.bind (readLeb_safe inside) fun _ => Safe.pure _

theorem readUa_safe : Safe code.length l true a b (readUa code) a b := by
  apply Safe.bind .state
  intro s
  apply Safe.ite fun _ => readU1_safe inside
  intro _
  apply Safe.ite fun _ => readU2_safe inside
  intro _
  apply Safe.ite fun _ => readU4_safe inside
  intro _
  apply Safe.ite fun _ => readU8_safe inside
  intro _
  exact Safe.raise _

theorem readIa_safe : Safe code.length l true a b (readIa code) a b :=
  Safe.bind (readUa_safe inside) fun _ => Safe.bind .state fun _ => Safe.pure _

omit inside in
/-- A good read fits the buffer. -/
theorem readMemory_safe (addr : UInt64) (size : Nat) : Safe code.length l true a b (readMemory t addr size) a b := by
  apply Safe.bind (exceptionOf_safe _)
  intro buf
  apply Meets.bind .note
  intro _
  apply Meets.bind (defined_meets fun s holds => holds.1)
  intro _
  apply Safe.after (a := a) (b := b) _ fun s holds => holds.2
  exact Safe.bind .state fun s => Safe.pure _

theorem isEndOfLocExpr_safe : Safe code.length l true a b (isEndOfLocExpr code) a b := by
  apply Meets.observe
  intro now holds
  apply Meets.ite
  · intro _
    exact (Safe.pure _).at holds
  · intro before
    apply Meets.bind
    · intro s same
      subst same
      exact codeByte_meets inside now ⟨Nat.lt_of_not_le before,holds⟩
    · intro byte
      exact Safe.pure _

theorem lastInstruction_safe (msg : String) :
    Safe code.length l true a b (lastInstruction code msg) a b :=
  Safe.bind (isEndOfLocExpr_safe inside) fun _ => checkDwarf_safe msg

end

end Readers

section Operators

open Trapped (Meets)

variable {code : List UInt8} {t : Target} {l : Level} {a b : Nat}

theorem register_safe (inside : l.Inside code.length) (n : UInt64) (msg : String) :
    Safe code.length l true a b (register code t n msg) a b := by
  apply Safe.bind (lastInstruction_safe inside msg)
  intro _
  apply Safe.bind (exceptionOf_safe _)
  intro reg
  exact Safe.change fun _ holds => holds.change rfl rfl rfl rfl rfl rfl

theorem baseRegister_safe (n : UInt64) {offset : Run UInt64} (safe : Safe code.length l true a (b + 1) offset a (b + 1)) :
    Safe code.length l true a (b + 1) (baseRegister t n offset) (a + 1) b := by
  apply Safe.bind (exceptionOf_safe _)
  intro reg
  apply Safe.bind .state
  intro s
  apply Safe.bind (exceptionOf_safe _)
  intro value
  apply Safe.bind (setStackAt_safe value (Nat.zero_le _) (.inr (Nat.succ_pos b)))
  intro _
  apply Safe.bind safe
  intro offset
  exact push_safe _

theorem jump_safe (offs : UInt64) : Safe code.length l true a b (jump offs) a b := by
  apply Safe.bind (setCodePos_safe _)
  intro _
  apply Safe.bind .state
  intro s
  exact checkDwarf_safe _

theorem jumpIf_safe (taken offs : UInt64) : Safe code.length l true a b (jumpIf taken offs) a b := by
  apply Safe.ite
  · intro _
    exact jump_safe offs
  · intro _
    exact Safe.pure ()

theorem branch_safe (inside : l.Inside code.length) : Safe code.length l true a b (branch code) 0 b := by
  apply Safe.bind (checkStack_safe 1)
  intro _
  apply Safe.bind (readU2_safe inside)
  intro offs
  apply Safe.bind (stackAt_safe (Nat.le_refl _) (.inl Nat.one_pos))
  intro taken
  apply Safe.bind (jumpIf_safe taken offs)
  intro _
  exact drop_safe.to (Nat.le_refl _) (Nat.le_succ _)

theorem implicitValue_safe (inside : l.Inside code.length) : Safe code.length l true a b (implicitValue code t) a b := by
  apply Safe.bind (readU4leb128_safe inside)
  intro size
  apply Meets.observe
  intro now holds
  apply Meets.bind (checkDwarf_meets _ fun s same => same ▸ holds.least)
  intro _
  apply Meets.bind (defined_meets _)
  · intro _
    apply Safe.after (a := a) (b := b) _ fun s known => known.2 ▸ holds
    apply Safe.bind (c := a) (d := b)
    · exact Safe.change fun _ holds => holds.change rfl rfl rfl rfl rfl rfl
    · intro _
      exact lastInstruction_safe inside _
  · intro s known
    have before := known.1
    rw [holds.codeLen rfl] at before
    rw [holds.code rfl]
    unfold Level.Inside at inside
    omega

theorem stackValue_safe (inside : l.Inside code.length) : Safe code.length l true a b (stackValue code) 0 b := by
  apply Safe.bind (checkStack_safe 1)
  intro _
  apply Safe.bind (pop_safe.to (Nat.le_refl _) (Nat.le_succ _))
  intro n
  apply Safe.bind (c := 0) (d := b)
  · exact Safe.change fun _ holds => holds.change rfl rfl rfl rfl rfl rfl
  · intro _
    exact lastInstruction_safe inside _

theorem stackPiece_safe : Safe code.length l true (a + 1) b stackPiece a (b + 1) :=
  Safe.bind pop_safe fun _ => Safe.pure _

theorem describePiece_safe : Safe code.length l true 0 b describePiece 0 b := by
  apply Meets.observe
  intro now holds
  split
  · exact (Safe.pure _).at holds
  · exact (Safe.pure _).at holds
  · apply Meets.ite
    · intro _
      exact (Safe.pure _).at holds
    · intro entry
      apply (stackPiece_safe.to (Nat.le_refl _) (Nat.le_succ b)).at
      exact { holds with entries := Nat.pos_of_ne_zero entry }

theorem addPiece_safe : Safe code.length l true 0 b addPiece 0 b := by
  apply Safe.bind describePiece_safe
  intro piece
  exact Safe.change fun _ holds => holds.change rfl rfl rfl rfl rfl rfl

theorem setPiece_safe (f : LocationPiece → LocationPiece) : Safe code.length l true a b (setPiece f) a b :=
  Safe.change fun _ holds => holds.change rfl rfl rfl rfl rfl rfl

theorem addKnownPiece_safe : Safe code.length l true 0 b addKnownPiece 0 b := by
  apply Safe.bind .state
  intro s
  apply Safe.ite
  · intro _
    exact addPiece_safe
  · intro _
    exact Safe.pure ()

theorem addLastPiece_safe : Safe code.length l true 0 b addLastPiece 0 b := by
  apply Safe.bind .state
  intro s
  apply Safe.ite
  · intro _
    exact addPiece_safe
  · intro _
    exact Safe.pure ()

theorem tcfOffset_safe (inside : l.Inside code.length) : Safe code.length l true 0 b (tcfOffset code t) 0 b := by
  apply Safe.bind addKnownPiece_safe
  intro _
  apply Safe.bind .state
  intro s
  apply Safe.ite
  · intro _
    apply Safe.bind (readU4leb128_safe inside)
    intro offs
    apply Safe.bind (c := 0) (d := b)
    · exact Safe.change fun _ holds => holds.change rfl rfl rfl rfl rfl rfl
    · intro _
      apply Safe.bind .state
      intro s
      exact checkDwarf_safe _
  · intro _
    apply Safe.bind (checkStack_safe 1)
    intro _
    apply Safe.bind (stackAt_safe (Nat.le_refl _) (.inl Nat.one_pos))
    intro x
    apply Safe.bind (readU8leb128_safe inside)
    intro offs
    apply Safe.bind (setStackAt_safe _ (Nat.le_refl _) (.inl Nat.one_pos))
    intro _
    apply Safe.change
    intro s holds
    exact (holds.less (Nat.zero_le _) (Nat.le_refl _)).change rfl rfl rfl rfl rfl rfl

/-- An error that a trap has caught leaves the machine at its level. -/
theorem trap_meets {bytes : Nat} {running : Bool} {c d : Nat} {x : Run Unit} {never : Error → State → Prop}
    (body : Meets (Step.Good bytes) pre x (fun _ => At l running c d) fun _ => At l running 0 0) :
    Meets (Step.Good bytes) pre (Trapped.trap x) (fun _ => At l running 0 0) never := by
  apply Meets.weaken (Meets.trap body) fun _ holds => holds
  · intro error s holds
    cases error with
    | none => exact At.least holds
    | some error => exact holds
  · intro _ _ holds
    exact holds

theorem At.setCodeLen (holds : At l true a b s) (codeLen : Nat) :
    At { l with codeLen } true a b (s.setCodeLen codeLen) where
  active := holds.active
  code := holds.code
  codeLen _ := rfl
  level := by rw [← holds.level]; rfl
  entries := holds.entries
  room := holds.room
  stkMax := holds.stkMax

/-- No expression is evaluated, and the one that was is as it was. -/
structure Idle (l : Level) (s : State) : Prop where
  stays : At l false 0 0 s
  code : s.code = 0
  codePos : s.codePos = 0
  codeLen : s.codeLen = 0

/-- The level of the nested expression of OP_GNU_entry_value. -/
def Level.entry (l : Level) (frame : StackFrame) (codePos size : Nat) : Level :=
  ⟨some frame,[],l.code + codePos,size,l.bigEndian,l.addrSize⟩

theorem entryResult_safe : Safe code.length l false 0 0 (entryResult t) 0 0 := by
  apply Meets.observe
  intro now holds
  apply Meets.ite
  · intro _
    apply Safe.at _ holds
    apply Safe.bind (exceptionOf_safe _)
    intro bytes
    apply Safe.bind (checkDwarf_safe _)
    intro _
    exact Safe.pure _
  · intro _
    apply Meets.ite
    · intro entry
      apply Safe.at ((stackAt_safe (Nat.le_refl 1) (.inl Nat.one_pos)).to (Nat.zero_le _) (Nat.le_refl _))
      exact { holds with entries := Nat.le_of_eq entry.symm }
    · intro _
      exact (Safe.raise _).at holds

theorem getPrevFrame_safe : Safe code.length l true a b (getPrevFrame t) a b := by
  apply Meets.observe
  intro now holds
  apply Meets.bind .note
  intro _
  apply Safe.changed (Safe.pure (t.prevFrame now.own.stackFrame).2)
  rintro s ⟨alone,rfl⟩
  rw [if_neg (by rw [alone]; exact Bool.false_ne_true)]
  exact holds

theorem At.leave (holds : At l true a b s) : At l false a b s.leave where
  active := rfl
  code := nofun
  codeLen := nofun
  level := holds.level
  entries := holds.entries
  room := holds.room
  stkMax := holds.stkMax

theorem At.enter (holds : At l false a b s) (codePos : Nat) : At l true a b (s.enter { s.own with codePos }) where
  active := rfl
  code _ := by rw [← holds.level]; rfl
  codeLen _ := by rw [← holds.level]; rfl
  level := holds.level
  entries := holds.entries
  room := holds.room
  stkMax := holds.stkMax

section Nested

variable {evaluate : Run Unit} (nested : ∀ l : Level, l.Inside code.length → Safe code.length l true 0 0 evaluate 0 0)

include nested

/-- The nested evaluation of OP_TCF_switch comes back to the level of the operator, with an error also. -/
theorem switchCase_safe {nxtPos : Nat} (fits : nxtPos ≤ l.codeLen) (inside : l.Inside code.length) :
    Safe code.length l true a b (switchCase evaluate nxtPos) 0 0 := by
  have shorter : Level.Inside { l with codeLen := nxtPos } code.length := Nat.le_trans (Nat.add_le_add_left fits _) inside
  apply Meets.observe
  intro now holds
  apply Meets.bind
  · apply trap_meets
    apply (nested _ shorter).changed
    rintro s rfl
    exact (holds.setCodeLen nxtPos).least
  · intro error
    apply Meets.observe
    intro after same
    apply Meets.bind (defined_meets fun s _ => same.active)
    intro _
    apply (rethrow_safe error).changed
    rintro s rfl
    have back := same.setCodeLen now.codeLen
    rw [holds.codeLen rfl] at back ⊢
    exact back

theorem switchLoop_safe (inside : l.Inside code.length) (n : UInt64) {endPos : Nat} (fits : endPos ≤ l.codeLen) (rounds : Nat) :
    Safe code.length l true 0 b (switchLoop code t evaluate n endPos rounds) 0 0 := by
  induction rounds with
  | zero => exact Meets.unfinished
  | succ rounds ih =>
    apply Safe.bind (readU2_safe inside)
    intro nxt
    apply Meets.observe
    intro now holds
    apply Meets.bind (checkDwarf_meets _ fun s same => same ▸ holds.least)
    intro _ s ⟨before,same⟩
    subst same
    revert now
    intro now holds before
    refine (Meets.ite ?_ ?_ : Meets (Step.Good code.length) (now = ·) _ (fun _ => At l true 0 0) fun _ => At l true 0 0) now rfl
    · intro _
      exact (Safe.raise _).at holds
    · intro _
      apply Safe.at _ holds
      apply Safe.bind (readU8leb128_safe inside)
      intro addr
      apply Safe.bind (readU8leb128_safe inside)
      intro size
      apply Safe.ite
      · intro _
        exact switchCase_safe nested (Nat.le_trans before fits) inside
      · intro _
        apply Safe.bind (setCodePos_safe _)
        intro _
        exact ih

theorem tcfSwitch_safe (inside : l.Inside code.length) : Safe code.length l true a b (tcfSwitch code t evaluate) 0 0 := by
  apply Safe.bind (checkStack_safe 1)
  intro _
  apply Safe.bind pop_safe
  intro n
  apply Safe.bind (readU2_safe inside)
  intro size
  apply Meets.observe
  intro now holds
  apply Meets.bind (checkDwarf_meets _ fun s same => same ▸ holds.least)
  intro _ s ⟨before,same⟩
  subst same
  rw [holds.codeLen rfl] at before
  refine Safe.at ?_ holds now rfl
  apply Safe.bind (switchLoop_safe nested inside n before _)
  intro _
  exact setCodePos_safe _

/-- `evaluate_vm_expression` leaves the machine idle, with an error also. -/
theorem evaluateVmExpression_meets (inside : l.Inside code.length) :
    Meets (Step.Good code.length) (At l true 0 0) (evaluateVmExpression evaluate) (fun _ => Idle l) fun _ => Idle l := by
  apply Meets.bind
  · apply trap_meets
    apply Safe.bind (nested l inside)
    intro _
    exact addLastPiece_safe
  · intro error
    apply Meets.changed (rethrow_meets error)
    intro s holds
    exact ⟨holds.leave,rfl,rfl,rfl⟩

theorem evaluateVmExpression_safe (inside : l.Inside code.length) :
    Meets (Step.Good code.length) (At l true 0 0) (evaluateVmExpression evaluate) (fun _ => At l false 0 0) fun _ => At l false 0 0 :=
  Meets.weaken (evaluateVmExpression_meets nested inside) (fun _ holds => holds) (fun _ _ done => done.stays) fun _ _ done => done.stays

/-- The nested expression of OP_GNU_entry_value leaves the outer state alone. -/
theorem evaluateEntry_meets {now : State} (holds : At l false a b now) (frame : StackFrame) {size : Nat}
    (fits : now.own.code + now.own.codePos + size ≤ code.length) :
    Meets (Step.Good code.length) (now = ·) (evaluateEntry t evaluate frame size) (fun _ => At l false a b)
      fun _ => At l false 0 0 := by
  have back (inner : State) (idle : inner.active = false) : At l false a b { inner with own := now.own } :=
    { holds with active := idle, code := nofun, codeLen := nofun }
  have body : Meets (Step.Good code.length) (At (l.entry frame now.own.codePos size) true 0 0)
      (do evaluateVmExpression evaluate; entryResult t) (fun _ => At (l.entry frame now.own.codePos size) false 0 0)
      fun _ => At (l.entry frame now.own.codePos size) false 0 0 := by
    apply Meets.bind
    · apply evaluateVmExpression_safe nested
      rw [← holds.level]
      exact fits
    · intro _
      exact entryResult_safe
  apply Meets.inside body
  · rintro s rfl
    exact
      { active := rfl, stkMax := Nat.two_pow_pos 32, entries := Nat.zero_le _, room := Nat.le_refl _
        code := fun _ => by rw [← holds.level]; rfl
        codeLen := fun _ => rfl
        level := by rw [← holds.level]; rfl }
  · rintro s _ inner rfl done
    exact back inner done.active
  · rintro s _ inner rfl done
    exact (back inner done.active).least

theorem entryValue_safe (inside : l.Inside code.length) : Safe code.length l true 0 (b + 1) (entryValue code t evaluate) 0 0 := by
  apply Safe.bind getPrevFrame_safe
  intro frame
  apply Safe.bind (readU4leb128_safe inside)
  intro size
  apply Meets.changed _ fun s holds => At.leave (l := l) (a := 0) (b := b + 1) holds
  apply Meets.bind
  · apply trap_meets (c := 1) (d := b)
    apply Safe.bind (exceptionOf_safe _)
    intro info
    apply Meets.observe
    intro now holds
    apply Meets.bind .note
    intro _
    apply Meets.bind
    · rintro s ⟨fits,rfl⟩
      exact evaluateEntry_meets nested holds info fits now rfl
    · intro value
      exact push_safe value
  · intro error
    apply (rethrow_safe error).changed
    intro s holds
    exact At.enter holds _

end Nested

theorem client_safe (op : UInt8) : Safe code.length l true a b (client t op) 0 0 := by
  apply Meets.changed _ fun s holds => At.leave (l := l) (a := a) (b := b) holds
  apply Meets.bind .note
  intro _
  apply Meets.bind
  · apply trap_meets (c := a) (d := b)
    cases known : t.clientOp with
    | none =>
      apply Meets.fault
      rintro s ⟨good,-⟩
      cases good
    | some clientOp =>
      apply Safe.after (exceptionOf_safe _)
      rintro s ⟨-,holds⟩
      exact holds
  · intro error
    apply (rethrow_safe error).changed
    intro s holds
    exact At.enter holds s.own.codePos

theorem pushed_safe (value : UInt64) : Safe code.length l true a (b + 1) (push value) 0 0 :=
  (push_safe value).to (Nat.zero_le _) (Nat.zero_le _)

/-- Operators that write to an entry of the stack last. -/
theorem written_safe {depth : Nat} (value : UInt64) (below : depth + 1 ≤ a) : Safe code.length l true a b (setStackAt (depth + 1) value) 0 0 :=
  (setStackAt_safe value below (.inl (Nat.succ_pos depth))).to (Nat.zero_le _) (Nat.zero_le _)

theorem entry_safe {depth : Nat} (below : depth + 1 ≤ a) : Safe code.length l true a b (stackAt (depth + 1)) a b :=
  stackAt_safe below (.inl (Nat.succ_pos depth))

theorem binary_safe (f : UInt64 → UInt64 → UInt64) : Safe code.length l true a b (binary f) 0 0 :=
  (binaryChecked_safe _).to (Nat.zero_le _) (Nat.zero_le _)

theorem divide_safe (f : UInt64 → UInt64 → UInt64) : Safe code.length l true a b (divide f) 0 0 :=
  (binaryChecked_safe _).to (Nat.zero_le _) (Nat.zero_le _)

theorem compare_safe (f : UInt64 → UInt64 → Bool) : Safe code.length l true a b (compare f) 0 0 := binary_safe _

/-- OP_xderef and OP_xderef_size write to the second entry and drop the first. -/
theorem xderef_safe (value : UInt64) : Safe code.length l true 2 b (do setStackAt 2 value; drop) 0 0 := by
  apply Safe.bind (setStackAt_safe value (Nat.le_refl _) (.inl (Nat.succ_pos 1)))
  intro _
  exact (drop_safe (a := 1)).to (Nat.zero_le _) (Nat.zero_le _)

/-- An operator finds room for four entries and needs one at most. -/
theorem execute_safe {evaluate : Run Unit} (nested : ∀ l : Level, l.Inside code.length → Safe code.length l true 0 0 evaluate 0 0)
    (inside : l.Inside code.length) (op : Op) : Safe code.length l true 0 4 (execute code t evaluate op) 0 0 := by
  cases op with
  | OP_deref =>
    apply Safe.bind (checkStack_safe 1)
    intro _
    apply Safe.bind (entry_safe (Nat.le_refl _))
    intro addr
    apply Safe.bind .state
    intro s
    apply Safe.bind (readMemory_safe addr _)
    intro value
    exact written_safe value (Nat.le_refl _)
  | OP_deref2 =>
    apply Safe.bind (checkStack_safe 1)
    intro _
    apply Safe.bind (entry_safe (Nat.le_refl _))
    intro addr
    apply Safe.bind (readMemory_safe addr 2)
    intro value
    exact written_safe _ (Nat.le_refl _)
  | OP_deref_size =>
    apply Safe.bind (checkStack_safe 1)
    intro _
    apply Safe.bind (entry_safe (Nat.le_refl _))
    intro addr
    apply Safe.bind (readU1_safe inside)
    intro size
    apply Safe.bind (readMemory_safe addr _)
    intro value
    exact written_safe value (Nat.le_refl _)
  | OP_xderef =>
    apply Safe.bind (checkStack_safe 2)
    intro _
    apply Safe.bind (entry_safe (Nat.le_succ _))
    intro addr
    apply Safe.bind .state
    intro s
    apply Safe.bind (readMemory_safe addr _)
    intro value
    exact xderef_safe value
  | OP_xderef_size =>
    apply Safe.bind (checkStack_safe 2)
    intro _
    apply Safe.bind (entry_safe (Nat.le_succ _))
    intro addr
    apply Safe.bind (readU1_safe inside)
    intro size
    apply Safe.bind (readMemory_safe addr _)
    intro value
    exact xderef_safe value
  | OP_const => exact Safe.bind (readIa_safe inside) fun n => pushed_safe n
  | OP_const1u => exact Safe.bind (readU1_safe inside) fun n => pushed_safe n
  | OP_const1s => exact Safe.bind (readU1_safe inside) fun n => pushed_safe _
  | OP_const2u => exact Safe.bind (readU2_safe inside) fun n => pushed_safe n
  | OP_const2s => exact Safe.bind (readU2_safe inside) fun n => pushed_safe _
  | OP_const4u => exact Safe.bind (readU4_safe inside) fun n => pushed_safe n
  | OP_const4s => exact Safe.bind (readU4_safe inside) fun n => pushed_safe _
  | OP_const8u => exact Safe.bind (readU8_safe inside) fun n => pushed_safe n
  | OP_const8s => exact Safe.bind (readU8_safe inside) fun n => pushed_safe n
  | OP_constu => exact Safe.bind (readU8leb128_safe inside) fun n => pushed_safe n
  | OP_consts => exact Safe.bind (readI8leb128_safe inside) fun n => pushed_safe n
  | OP_lit n => exact pushed_safe _
  | OP_dup =>
    apply Safe.bind (checkStack_safe 1)
    intro _
    apply Safe.bind (entry_safe (Nat.le_refl _))
    intro x
    exact pushed_safe x
  | OP_drop =>
    apply Safe.bind (checkStack_safe 1)
    intro _
    exact drop_safe.to (Nat.zero_le _) (Nat.zero_le _)
  | OP_over =>
    apply Safe.bind (checkStack_safe 2)
    intro _
    apply Safe.bind (entry_safe (Nat.le_refl _))
    intro x
    exact pushed_safe x
  | OP_pick =>
    apply Safe.bind (readU1_safe inside)
    intro n
    apply Safe.bind (checkStack_safe (n.toNat + 1))
    intro _
    apply Safe.bind (entry_safe (Nat.le_refl _))
    intro x
    exact pushed_safe x
  | OP_swap =>
    apply Safe.bind (checkStack_safe 2)
    intro _
    apply Safe.bind (entry_safe (Nat.le_succ _))
    intro data
    apply Safe.bind (entry_safe (Nat.le_refl _))
    intro x
    apply Safe.bind (setStackAt_safe x (Nat.le_succ _) (.inl Nat.one_pos))
    intro _
    exact written_safe data (Nat.le_refl _)
  | OP_rot =>
    apply Safe.bind (checkStack_safe 3)
    intro _
    apply Safe.bind (entry_safe (Nat.le_add_left 1 2))
    intro data
    apply Safe.bind (entry_safe (Nat.le_succ 2))
    intro x
    apply Safe.bind (setStackAt_safe x (Nat.le_add_left 1 2) (.inl Nat.one_pos))
    intro _
    apply Safe.bind (entry_safe (Nat.le_refl _))
    intro y
    apply Safe.bind (setStackAt_safe y (Nat.le_succ 2) (.inl Nat.two_pos))
    intro _
    exact written_safe data (Nat.le_refl _)
  | OP_abs | OP_neg | OP_not => exact (unary_safe _).to (Nat.zero_le _) (Nat.zero_le _)
  | OP_and | OP_minus | OP_mul | OP_or | OP_add | OP_plus | OP_shl | OP_shr | OP_shra | OP_xor => exact binary_safe _
  | OP_div | OP_mod => exact divide_safe _
  | OP_eq | OP_ge | OP_gt | OP_le | OP_lt | OP_ne => exact compare_safe _
  | OP_plus_uconst =>
    apply Safe.bind (checkStack_safe 1)
    intro _
    apply Safe.bind (entry_safe (Nat.le_refl _))
    intro x
    apply Safe.bind (readU8leb128_safe inside)
    intro n
    exact written_safe _ (Nat.le_refl _)
  | OP_bra => exact (branch_safe inside).to (Nat.zero_le _) (Nat.zero_le _)
  | OP_skip => exact Safe.bind (readU2_safe inside) fun offs => (jump_safe offs).to (Nat.zero_le _) (Nat.zero_le _)
  | OP_regN n => exact (register_safe inside _ _).to (Nat.zero_le _) (Nat.zero_le _)
  | OP_regx => exact Safe.bind (readU4leb128_safe inside) fun n => (register_safe inside n _).to (Nat.zero_le _) (Nat.zero_le _)
  | OP_reg => exact Safe.bind (readUa_safe inside) fun n => (register_safe inside n _).to (Nat.zero_le _) (Nat.zero_le _)
  | OP_bregN n => exact (baseRegister_safe _ (readI8leb128_safe inside)).to (Nat.zero_le _) (Nat.zero_le _)
  | OP_bregx =>
    apply Safe.bind (readU4leb128_safe inside)
    intro n
    exact (baseRegister_safe n (readI8leb128_safe inside)).to (Nat.zero_le _) (Nat.zero_le _)
  | OP_basereg => exact Safe.bind (readUa_safe inside) fun n => (baseRegister_safe n (.pure 0)).to (Nat.zero_le _) (Nat.zero_le _)
  | OP_call_frame_cfa =>
    apply Safe.bind .state
    intro s
    cases s.own.stackFrame with
    | none => exact Safe.raise _
    | some frame => exact pushed_safe frame.fp
  | OP_nop => exact (Safe.pure ()).to (Nat.zero_le _) (Nat.zero_le _)
  | OP_push_object_address =>
    apply Safe.bind .state
    intro s
    cases s.own.args with
    | nil => exact Safe.raise _
    | cons arg _ => exact pushed_safe arg
  | OP_piece =>
    apply Safe.bind addPiece_safe
    intro _
    apply Safe.bind (readU4leb128_safe inside)
    intro size
    exact (setPiece_safe _).to (Nat.zero_le _) (Nat.zero_le _)
  | OP_bit_piece =>
    apply Safe.bind addPiece_safe
    intro _
    apply Safe.bind (readU4leb128_safe inside)
    intro bitSize
    apply Safe.bind (setPiece_safe _)
    intro _
    apply Safe.bind (readU4leb128_safe inside)
    intro bitOffs
    exact (setPiece_safe _).to (Nat.zero_le _) (Nat.zero_le _)
  | OP_implicit_value => exact (implicitValue_safe inside).to (Nat.zero_le _) (Nat.zero_le _)
  | OP_stack_value => exact (stackValue_safe inside).to (Nat.zero_le _) (Nat.zero_le _)
  | OP_TCF_switch => exact tcfSwitch_safe nested inside
  | OP_TCF_offset => exact (tcfOffset_safe inside).to (Nat.zero_le _) (Nat.zero_le _)
  | OP_GNU_entry_value => exact entryValue_safe nested inside
  | client op => exact client_safe op

theorem begun_safe {evaluate : Run Unit} (safe : Safe code.length l true a b evaluate a b) :
    Safe code.length l true a b (begun evaluate) a b := by
  apply Safe.bind .state
  intro s
  apply Safe.bind (checkDwarf_safe _)
  intro _
  exact safe

/-- By induction on the rounds, at every level that nested expressions are evaluated at. -/
theorem evaluateLoop_safe (rounds : Nat) :
    ∀ l : Level, l.Inside code.length → Safe code.length l true 0 0 (evaluateLoop code t rounds) 0 0 := by
  induction rounds with
  | zero => exact fun _ _ => Meets.unfinished
  | succ rounds ih =>
    intro l inside
    apply Meets.observe
    intro now holds
    apply Meets.ite
    · intro before
      apply Meets.bind
      · rintro s rfl
        exact nextByte_meets inside now ⟨before,holds⟩
      · intro op
        apply Safe.bind grow_safe
        intro _
        apply Safe.bind (execute_safe (fun l inside => begun_safe (ih l inside)) inside (decode op))
        intro _
        exact ih l inside
    · intro _
      exact (Safe.pure ()).at holds

/-- `set_state` of an expression whose stack is in order. -/
theorem begin_at {vmState : LocationExpressionState} (stack : vmState.stkPos ≤ vmState.stk.length) (max : vmState.stk.length < 2 ^ 32)
    (s : State) : At vmState.level true 0 0 (s.begin vmState) where
  active := rfl
  code _ := rfl
  codeLen _ := rfl
  level := rfl
  entries := Nat.zero_le _
  room := stack
  stkMax := max

end Operators

section Examples

/-- Memory of zeros, one frame, and no registers. -/
def zeroTarget : Target where
  readMem _ _ := .ok fun _ => 0
  regById _ := .error ERR_OTHER
  regValue _ _ := .error ERR_OTHER
  prevFrame _ := (false,1)
  frameInfo frame := .ok ⟨frame,0⟩
  readPieces _ _ := .error ERR_OTHER
  clientOp := none
  shl x n := UInt64.ofNat (x.toNat * 2 ^ n)
  shr x n := UInt64.ofNat (x.toNat / 2 ^ n)
  shl32 x n := UInt64.ofNat (x.toNat * 2 ^ n % 2 ^ 32)
  shlInt x n := UInt64.ofNat (x.toNat * 2 ^ n)
  shl_defined _ _ _ := UInt64.toNat_ofNat'
  shr_defined x n _ := by
    rw [UInt64.toNat_ofNat']
    exact Nat.mod_eq_of_lt (Nat.lt_of_le_of_lt (Nat.div_le_self _ _) x.toNat_lt)
  shl32_defined x n _ _ := by
    rw [UInt64.toNat_ofNat']
    exact Nat.mod_eq_of_lt (Nat.lt_trans (Nat.mod_lt _ (by decide)) (by decide))
  shlInt_defined x n _ small := by
    rw [UInt64.toNat_ofNat']
    exact Nat.mod_eq_of_lt (Nat.lt_trans small (by decide))

def bareState (codeLen : Nat) : LocationExpressionState := ⟨some ⟨0,0⟩,[],0,0,codeLen,false,8,[],0,[]⟩

end Examples

end Tcf.LocationVm
