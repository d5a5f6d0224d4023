import Tcf.StackTrace

/-! Cache misses and retries of a stack trace. -/
namespace Tcf.StackTrace

variable {t : Target} {m : Misses} {s s' : Stack} {frame : StackFrame} {i : Nat}

section Growth

/-- Frames are numbered by their places. -/
def Numbered (s : Stack) : Prop := ∀ j (f : StackFrame), s.frames[j]? = some f → f.frame = j

/-- Frames stay where they are, and those that are added are below the top frame. -/
structure Grown (s s' : Stack) : Prop where
  length : s.frames.length ≤ s'.frames.length
  old : ∀ j (f' : StackFrame), s'.frames[j]? = some f' → j < s.frames.length →
    ∃ f : StackFrame, s.frames[j]? = some f ∧ f'.isTopFrame = f.isTopFrame ∧ f'.frame = f.frame
  new : ∀ j (f' : StackFrame), s'.frames[j]? = some f' → s.frames.length ≤ j → f'.isTopFrame = false ∧ f'.frame = j
  complete : s'.complete = s.complete

theorem Grown.refl (s : Stack) : Grown s s :=
  ⟨le_rfl,fun _ f' here _ => ⟨f',here,rfl,rfl⟩,fun j f' here out => by
    rw [List.getElem?_eq_none out] at here
    exact absurd here (by simp),rfl⟩

theorem Grown.trans {s'' : Stack} (first : Grown s s') (second : Grown s' s'') : Grown s s'' := by
  refine ⟨le_trans first.length second.length,fun j f'' here lt => ?_,fun j f'' here le => ?_,second.complete.trans first.complete⟩
  · obtain ⟨f',middle,top,number⟩ := second.old j f'' here (lt_of_lt_of_le lt first.length)
    obtain ⟨f,before,top',number'⟩ := first.old j f' middle lt
    exact ⟨f,before,top.trans top',number.trans number'⟩
  · by_cases inside : j < s'.frames.length
    · obtain ⟨f',middle,top,number⟩ := second.old j f'' here inside
      obtain ⟨top',number'⟩ := first.new j f' middle le
      exact ⟨top.trans top',number.trans number'⟩
    · exact second.new j f'' here (not_lt.mp inside)

theorem Grown.missed (grown : Grown s s') (missed : Bool) : Grown s (s'.miss missed) :=
  ⟨grown.length,grown.old,grown.new,grown.complete⟩

theorem Grown.setFrame (grown : Grown s s') {old new : StackFrame} (here : s'.frames[i]? = some old)
    (top : new.isTopFrame = old.isTopFrame) (number : new.frame = old.frame) : Grown s (s'.setFrame i new) := by
  have same : ∀ (j : Nat) (f' : StackFrame), (s'.setFrame i new).frames[j]? = some f' →
      ∃ f : StackFrame, s'.frames[j]? = some f ∧ f'.isTopFrame = f.isTopFrame ∧ f'.frame = f.frame := by
    intro j f' got
    by_cases at_ : i = j
    · subst at_
      have lt := (List.getElem?_eq_some_iff.mp here).1
      obtain rfl : new = f' := by simpa [Stack.setFrame,List.getElem?_set,lt] using got
      exact ⟨old,here,top,number⟩
    · exact ⟨f',by simpa [Stack.setFrame,List.getElem?_set_ne at_] using got,rfl,rfl⟩
  refine ⟨by simpa [Stack.setFrame] using grown.length,fun j f' got lt => ?_,fun j f' got le => ?_,grown.complete⟩
  · obtain ⟨f,middle,top,number⟩ := same j f' got
    obtain ⟨f₀,before,top',number'⟩ := grown.old j f middle lt
    exact ⟨f₀,before,top.trans top',number.trans number'⟩
  · obtain ⟨f,middle,top,number⟩ := same j f' got
    obtain ⟨top',number'⟩ := grown.new j f middle le
    exact ⟨top.trans top',number.trans number'⟩

theorem grown_addFrame (s : Stack) {down : StackFrame} (top : down.isTopFrame = false) : Grown s (addFrame s down) := by
  refine ⟨by simp [addFrame],fun j f' got lt => ?_,fun j f' got le => ?_,rfl⟩
  · exact ⟨f',by simpa [addFrame,List.getElem?_append_left lt] using got,rfl,rfl⟩
  · have lt : j < s.frames.length + 1 := by simpa [addFrame] using (List.getElem?_eq_some_iff.mp got).1
    obtain rfl : j = s.frames.length := by omega
    obtain rfl : { down with frame := s.frames.length } = f' := by simpa [addFrame] using got
    exact ⟨top,rfl⟩

theorem Grown.numbered (grown : Grown s s') (numbered : Numbered s) : Numbered s' := by
  intro j f' got
  by_cases inside : j < s.frames.length
  · obtain ⟨f,before,-,number⟩ := grown.old j f' got inside
    exact number.trans (numbered j f before)
  · exact (grown.new j f' got (not_lt.mp inside)).2

/-- What writes to registers keep of a frame below the top one. -/
structure Below (down : StackFrame) : Prop where
  top : down.isTopFrame = false
  fp : down.fp = 0
  walked : down.isWalked = false

theorem below_zero : Below .zero := ⟨rfl,rfl,rfl⟩

theorem copyRegs_top (t : Target) (m : Misses) (prev : StackFrame) (defs : List RegisterDefinition) (down : StackFrame) :
    (copyRegs t m prev defs down).1.isTopFrame = down.isTopFrame := by
  induction defs generalizing down with
  | nil => rfl
  | cons d rest ih =>
    simp only [copyRegs]
    split
    · exact ih down
    · rw [ih]
      split <;> rfl

theorem inlineFrames_grown (t : Target) (m : Misses) (fp : Address) (subs : List InlinedSubroutine) (s : Stack) :
    Grown s (inlineFrames t m fp subs s) := by
  induction subs generalizing s with
  | nil => exact .refl s
  | cons sub rest ih =>
    unfold inlineFrames
    split
    · exact .refl s
    · rename_i prev last
      exact ((((Grown.refl s).setFrame last (by rfl) (by rfl)).missed _).trans
        (grown_addFrame _ (copyRegs_top t m prev t.defs _))).trans (ih _)

theorem saveRegs_below (t : Target) (misses : Nat → Bool) (frame : StackFrame)
    (regs : List (Option RegisterDefinition × Expression)) (j : Nat) (down : StackFrame) (below : Below down) :
    Below (saveRegs t misses frame regs j down).2.1 ∧ ∀ d ∈ (saveRegs t misses frame regs j down).1, Below d := by
  induction regs generalizing j down with
  | nil =>
    refine ⟨below,fun d here => ?_⟩
    obtain rfl : down = d := by simpa [saveRegs] using here
    exact below
  | cons entry rest ih =>
    obtain ⟨reg,e⟩ := entry
    simp only [saveRegs]
    split
    · exact ih (j + 1) down below
    · split
      · split
        · exact ⟨below,by simp⟩
        · rename_i next written
          refine ih (j + 1) next ?_
          unfold writeRegValue at written
          split at written
          · simp at written
          · split at written
            · simp at written
            · obtain rfl := (Option.some.inj written).symm
              exact ⟨below.top,below.fp,below.walked⟩
      · exact ih (j + 1) down below

theorem walkFrame_grown (t : Target) (m : Misses) (info : StackTracingInfo) (here : s.frames[i]? = some frame) :
    Grown s (walkFrame t m s i frame info).1 ∧ Below (walkFrame t m s i frame info).2.1 := by
  unfold walkFrame
  split
  · exact ⟨((Grown.refl s).missed true).setFrame here rfl rfl,below_zero⟩
  · split
    · rename_i fp _
      have grown : Grown s (if info.subs = [] then s.setFrame i { frame with fp }
          else inlineFrames t m fp info.subs.reverse (s.setFrame i { frame with fp, inlined := info.subs.length })) := by
        split
        · exact (Grown.refl s).setFrame here rfl rfl
        · exact ((Grown.refl s).setFrame here (by rfl) (by rfl)).trans (inlineFrames_grown ..)
      generalize (if info.subs = [] then s.setFrame i { frame with fp }
          else inlineFrames t m fp info.subs.reverse (s.setFrame i { frame with fp, inlined := info.subs.length })) = next at grown
      simp only
      split
      · exact ⟨grown,below_zero⟩
      · rename_i frame' got
        have below := saveRegs_below t (m.saved i) frame' info.regs 0 .zero below_zero
        split
        · rename_i down _ missed eq
          rw [eq] at below
          exact ⟨(grown.missed missed).setFrame got rfl rfl,below.2 down rfl⟩
        · rename_i down missed eq
          rw [eq] at below
          exact ⟨(grown.missed missed).setFrame got rfl rfl,below.1.top,below.1.fp,below.1.walked⟩
    · exact ⟨(Grown.refl s).setFrame here rfl rfl,below_zero⟩

theorem getNextStackFrame_grown (t : Target) (m : Misses) (here : s.frames[i]? = some frame) :
    Grown s (getNextStackFrame t m s i frame).1 ∧ Below (getNextStackFrame t m s i frame).2.1 := by
  unfold getNextStackFrame
  split
  · exact ⟨(Grown.refl s).missed _,below_zero⟩
  · split
    · exact ⟨(Grown.refl s).missed true,below_zero⟩
    · split
      · exact ⟨.refl s,below_zero⟩
      · exact ⟨.refl s,below_zero⟩
      · exact walkFrame_grown t m _ here

theorem appendFrame_grown (t : Target) (m : Misses) {down : StackFrame} (below : Below down) :
    (appendFrame t m s frame down).2 = true →
      Grown s (appendFrame t m s frame down).1 ∧ (appendFrame t m s frame down).1.frames.length = s.frames.length + 1 ∧
        ∃ f, (appendFrame t m s frame down).1.frames[s.frames.length]? = some f ∧ Below f := by
  have added : ∀ missed, Grown s (addFrame (s.miss missed) down) ∧ (addFrame (s.miss missed) down).frames.length = s.frames.length + 1 ∧
      ∃ f, (addFrame (s.miss missed) down).frames[s.frames.length]? = some f ∧ Below f := fun missed =>
    ⟨((Grown.refl s).missed missed).trans (grown_addFrame _ below.top),by simp [addFrame,Stack.miss],
      { down with frame := s.frames.length },by simp [addFrame,Stack.miss],⟨below.top,below.fp,below.walked⟩⟩
  unfold appendFrame
  split
  · simp
  · split
    · simp only
      split
      · simp
      · exact fun _ => added _
    · exact fun _ => by simpa [Stack.miss] using added false

end Growth

section Misses

/-- The loop of a call starts with a frame that nothing was done with. -/
def Fresh (s : Stack) : Prop := ∃ frame, s.frames[s.frames.length - 1]? = some frame ∧ frame.fp = 0 ∧ frame.isWalked = false

/-- Tracing info of a frame whose address can be evaluated. -/
def walked (t : Target) (frame : StackFrame) : Option StackTracingInfo :=
  match (readRegValue t false frame t.pc).1 with
  | none => none
  | some ip => match t.tracingInfo (if frame.isTopFrame then ip else ip - 1) with
    | some (some info) => match t.evaluate info.fp frame with
      | some [_] => some info
      | _ => none
    | _ => none

/-- Misses at a frame do no harm: no saved register is evaluated with one, no register of the top frame is copied to an inlined
frame or compared with one, and a crawl returns -1, at a frame without inlined ones. -/
def HarmlessAt (t : Target) (m : Misses) (i : Nat) (frame : StackFrame) : Prop :=
  (∀ info ∈ walked t frame, ∀ j < info.regs.length, m.saved i j = false) ∧
  (frame.isTopFrame = true → ∀ d ∈ t.defs, m.copy d = false ∧ m.compare d = false) ∧
  ∀ outcome ∈ m.crawl i, outcome.isNone = true ∧ ∀ info ∈ walked t frame, info.subs.isEmpty = true

def HarmlessTurn (t : Target) (m : Misses) (s : Stack) : Prop :=
  ∀ frame ∈ s.frames[s.frames.length - 1]?, HarmlessAt t m (s.frames.length - 1) frame

theorem readRegBytes_false (t : Target) (frame : StackFrame) (d : RegisterDefinition) : (readRegBytes t false frame d).2 = false := by
  unfold readRegBytes
  split <;> rfl

theorem readRegBytes_congr {misses : Bool} (same : frame.isTopFrame = true → misses = false) (d : RegisterDefinition) :
    readRegBytes t misses frame d = readRegBytes t false frame d := by
  unfold readRegBytes
  split
  · rename_i top
    rw [same top]
  · rfl

theorem copyRegs_congr {prev : StackFrame} {defs : List RegisterDefinition}
    (same : prev.isTopFrame = true → ∀ d ∈ defs, m.copy d = false) (down : StackFrame) :
    copyRegs t m prev defs down = copyRegs t .none prev defs down := by
  induction defs generalizing down with
  | nil => rfl
  | cons d rest ih =>
    have later := fun top e inside => same top e (List.mem_cons_of_mem d inside)
    have read : readRegBytes t (m.copy d) prev d = readRegBytes t (Misses.none.copy d) prev d :=
      readRegBytes_congr (fun top => same top d (by simp)) d
    simp only [copyRegs,ih later,read]

theorem inlineFrames_congr {fp : Address} {subs : List InlinedSubroutine}
    (same : ∀ prev, s.frames[s.frames.length - 1]? = some prev → prev.isTopFrame = true → ∀ d ∈ t.defs, m.copy d = false) :
    inlineFrames t m fp subs s = inlineFrames t .none fp subs s := by
  induction subs generalizing s with
  | nil => rfl
  | cons sub rest ih =>
    unfold inlineFrames
    split
    · rfl
    · rename_i prev last
      simp only [copyRegs_congr (same prev last)]
      refine ih fun next got top => ?_
      have down : next.isTopFrame = false := by
        have top_ := copyRegs_top t .none prev t.defs { StackFrame.zero with fp }
        simp [addFrame,Stack.miss,Stack.setFrame] at got
        rw [← got]
        exact top_
      exact absurd (down.symm.trans top) (by simp)

theorem saveRegs_congr {misses misses' : Nat → Bool} {regs : List (Option RegisterDefinition × Expression)} {j : Nat}
    (same : ∀ k < regs.length, misses (j + k) = misses' (j + k)) (down : StackFrame) :
    saveRegs t misses frame regs j down = saveRegs t misses' frame regs j down := by
  induction regs generalizing j down with
  | nil => rfl
  | cons entry rest ih =>
    have later : ∀ down, saveRegs t misses frame rest (j + 1) down = saveRegs t misses' frame rest (j + 1) down := fun down =>
      ih (fun k lt => by
        have := same (k + 1) (by simpa using lt)
        rwa [show j + (k + 1) = j + 1 + k by omega] at this) down
    have here : misses j = misses' j := same 0 (by simp)
    simp only [saveRegs,here,later]

theorem saveRegs_none (t : Target) (frame : StackFrame) (regs : List (Option RegisterDefinition × Expression)) (j : Nat)
    (down : StackFrame) : (saveRegs t (fun _ => false) frame regs j down).2.2 = false := by
  induction regs generalizing j down with
  | nil => rfl
  | cons entry rest ih =>
    simp only [saveRegs,Bool.false_eq_true,if_false]
    split
    · split
      · rfl
      · exact ih ..
    · exact ih ..

theorem sameRegs_congr {down : StackFrame} {defs : List RegisterDefinition}
    (same : frame.isTopFrame = true → ∀ d ∈ defs, m.compare d = false) :
    sameRegs t m frame down defs = sameRegs t .none frame down defs := by
  induction defs with
  | nil => rfl
  | cons d rest ih =>
    have later := fun top e inside => same top e (List.mem_cons_of_mem d inside)
    have read : readRegBytes t (m.compare d) frame d = readRegBytes t (Misses.none.compare d) frame d :=
      readRegBytes_congr (fun top => same top d (by simp)) d
    simp only [sameRegs,ih later,read]

theorem appendFrame_congr {down : StackFrame} (same : frame.isTopFrame = true → ∀ d ∈ t.defs, m.compare d = false) :
    appendFrame t m s frame down = appendFrame t .none s frame down := by
  simp only [appendFrame,sameRegs_congr same]

theorem setFrame_self (here : s.frames[i]? = some frame) : s.setFrame i frame = s := by
  obtain ⟨lt,eq⟩ := List.getElem?_eq_some_iff.mp here
  subst eq
  simp [Stack.setFrame]

/-- A frame whose address cannot be evaluated has nothing done to it. -/
theorem walkFrame_congr {info : StackTracingInfo} (here : s.frames[i]? = some frame) (last : i = s.frames.length - 1) (fp : frame.fp = 0)
    (saved : (∃ v, t.evaluate info.fp frame = some [v]) → ∀ j < info.regs.length, m.saved i j = false)
    (copies : frame.isTopFrame = true → ∀ d ∈ t.defs, m.copy d = false) :
    walkFrame t m s i frame info = (s.miss true,.zero,false) ∨ walkFrame t m s i frame info = walkFrame t .none s i frame info := by
  unfold walkFrame
  by_cases misses : m.fp i = true
  · refine .inl ?_
    rw [if_pos misses]
    have same : { frame with fp := 0 } = frame := by rw [← fp]
    rw [same,setFrame_self (s := s.miss true) here]
  · refine .inr ?_
    rw [if_neg misses,if_neg (by simp [Misses.none] : ¬Misses.none.fp i = true)]
    split
    · rename_i v eq
      have inline : inlineFrames t m v info.subs.reverse (s.setFrame i { frame with fp := v, inlined := info.subs.length }) =
          inlineFrames t .none v info.subs.reverse (s.setFrame i { frame with fp := v, inlined := info.subs.length }) := by
        refine inlineFrames_congr fun prev got top => copies ?_
        have lt := (List.getElem?_eq_some_iff.mp here).1
        obtain rfl : { frame with fp := v, inlined := info.subs.length } = prev := by
          simpa [Stack.setFrame,last,List.getElem?_set,last ▸ lt] using got
        exact top
      have saves : ∀ frame', saveRegs t (m.saved i) frame' info.regs 0 .zero = saveRegs t (Misses.none.saved i) frame' info.regs 0 .zero :=
        fun frame' => saveRegs_congr (fun k lt => by simpa [Misses.none] using saved ⟨v,eq⟩ k lt) .zero
      simp only [inline,saves]
    · rfl

theorem getNextStackFrame_congr (here : s.frames[i]? = some frame) (last : i = s.frames.length - 1) (fp : frame.fp = 0)
    (saved : ∀ info ∈ walked t frame, ∀ j < info.regs.length, m.saved i j = false)
    (copies : frame.isTopFrame = true → ∀ d ∈ t.defs, m.copy d = false) :
    getNextStackFrame t m s i frame = (s.miss true,.zero,false) ∨
      getNextStackFrame t m s i frame = getNextStackFrame t .none s i frame := by
  by_cases pc : m.pc = true ∧ frame.isTopFrame = true ∧ ∃ d, t.pc = some d ∧ d.size ≤ 8
  · obtain ⟨misses,top,d,eq,small⟩ := pc
    refine .inl ?_
    have read : readRegValue t m.pc frame t.pc = (none,true) := by simp [readRegValue,eq,readRegBytes,top,misses,not_lt.mpr small]
    simp [getNextStackFrame,read,top]
  · have read : readRegValue t m.pc frame t.pc = readRegValue t Misses.none.pc frame t.pc := by
      unfold readRegValue
      split
      · rfl
      · rename_i d eq
        split
        · rfl
        · rename_i small
          have congr_ : readRegBytes t m.pc frame d = readRegBytes t Misses.none.pc frame d :=
            readRegBytes_congr (fun top => by
              by_contra misses
              exact pc ⟨by simpa using misses,top,d,eq,not_lt.mp small⟩) d
          rw [congr_]
    unfold getNextStackFrame
    rw [read]
    split
    · exact .inr rfl
    · rename_i ip _ value
      by_cases misses : m.info i = true
      · exact .inl (by rw [if_pos misses])
      · rw [if_neg misses,if_neg (by simp [Misses.none] : ¬Misses.none.info i = true)]
        split
        · exact .inr rfl
        · exact .inr rfl
        · rename_i info found
          refine walkFrame_congr here last fp (fun ⟨v,eq⟩ => saved info ?_) copies
          have value : (readRegValue t false frame t.pc).1 = some ip := by rw [show false = Misses.none.pc from rfl,value]
          simp [walked,value,found,eq]

@[simp] theorem none_copy (d : RegisterDefinition) : Misses.none.copy d = false := rfl
@[simp] theorem none_compare (d : RegisterDefinition) : Misses.none.compare d = false := rfl
@[simp] theorem none_crawl (i : Nat) : Misses.none.crawl i = none := rfl

@[simp] theorem miss_false (s : Stack) : s.miss false = s := by simp [Stack.miss]

theorem copyRegs_none (t : Target) (prev : StackFrame) (defs : List RegisterDefinition) (down : StackFrame) :
    (copyRegs t .none prev defs down).2 = false := by
  induction defs generalizing down with
  | nil => rfl
  | cons d rest ih =>
    have read := readRegBytes_false t prev d
    simp only [copyRegs]
    split
    · exact ih down
    · simp [ih,read]

theorem inlineFrames_missed (t : Target) (fp : Address) (subs : List InlinedSubroutine) (s : Stack) :
    (inlineFrames t .none fp subs s).missed = s.missed := by
  induction subs generalizing s with
  | nil => rfl
  | cons sub rest ih =>
    unfold inlineFrames
    split
    · rfl
    · simp only [ih]
      simp [addFrame,Stack.miss,Stack.setFrame,copyRegs_none]

theorem walkFrame_missed (t : Target) (s : Stack) (i : Nat) (frame : StackFrame) (info : StackTracingInfo) :
    (walkFrame t .none s i frame info).1.missed = s.missed := by
  unfold walkFrame
  rw [if_neg (by simp [Misses.none] : ¬Misses.none.fp i = true)]
  split
  · rename_i fp _
    have same : (if info.subs = [] then s.setFrame i { frame with fp }
        else inlineFrames t .none fp info.subs.reverse (s.setFrame i { frame with fp, inlined := info.subs.length })).missed = s.missed := by
      split
      · rfl
      · rw [inlineFrames_missed]
        rfl
    generalize (if info.subs = [] then s.setFrame i { frame with fp }
        else inlineFrames t .none fp info.subs.reverse (s.setFrame i { frame with fp, inlined := info.subs.length })) = next at same
    simp only
    split
    · exact same
    · rename_i frame' _
      have none_ := saveRegs_none t frame' info.regs 0 .zero
      have none_ : (saveRegs t (Misses.none.saved i) frame' info.regs 0 .zero).2.2 = false := none_
      split
      · rename_i down _ missed eq
        rw [eq] at none_
        simp only at none_
        simp [Stack.setFrame,Stack.miss,none_,same]
      · rename_i down missed eq
        rw [eq] at none_
        simp only at none_
        simp [Stack.setFrame,Stack.miss,none_,same]
  · rfl

theorem getNextStackFrame_missed (t : Target) (s : Stack) (i : Nat) (frame : StackFrame) :
    (getNextStackFrame t .none s i frame).1.missed = s.missed := by
  unfold getNextStackFrame
  split
  · rename_i missed eq
    have none_ : (readRegValue t false frame t.pc).2 = false := by
      unfold readRegValue
      split
      · rfl
      · split
        · rfl
        · exact readRegBytes_false ..
    rw [show Misses.none.pc = false from rfl] at eq
    rw [eq] at none_
    simp only at none_
    simp [none_]
  · rw [if_neg (by simp [Misses.none] : ¬Misses.none.info i = true)]
    split
    · rfl
    · rfl
    · exact walkFrame_missed ..

/-- Without inlined frames, a frame that was not walked is as it was. -/
theorem getNextStackFrame_unwalked (here : s.frames[i]? = some frame) (fp : frame.fp = 0)
    (inlined : ∀ info ∈ walked t frame, info.subs = []) {frame' : StackFrame}
    (after : (getNextStackFrame t .none s i frame).1.frames[i]? = some frame') (unwalked : frame'.isWalked = false) :
    (getNextStackFrame t .none s i frame).1 = s.miss (getNextStackFrame t .none s i frame).1.missed := by
  have missed := getNextStackFrame_missed t s i frame
  rw [missed]
  have self : s.miss s.missed = s := by simp [Stack.miss]
  rw [self]
  have reset : { frame with fp := 0 } = frame := by rw [← fp]
  unfold getNextStackFrame at after missed ⊢
  split
  · rename_i flag eq
    rw [eq] at missed
    simp only at missed ⊢
    rw [← self,← missed]
    simp [Stack.miss]
  · rename_i ip flag value
    rw [value] at after
    simp only at after
    rw [if_neg (by simp [Misses.none] : ¬Misses.none.info i = true)] at after ⊢
    split
    · rfl
    · rfl
    · rename_i info found
      simp only [found] at after
      unfold walkFrame at after ⊢
      rw [if_neg (by simp [Misses.none] : ¬Misses.none.fp i = true)] at after ⊢
      split
      · rename_i v eq
        simp only [eq] at after
        have value : (readRegValue t false frame t.pc).1 = some ip := by rw [show false = Misses.none.pc from rfl,value]
        have subs : info.subs = [] := inlined info (by simp [walked,value,found,eq])
        have lt := (List.getElem?_eq_some_iff.mp here).1
        simp only [subs,if_true] at after ⊢
        have got : (s.setFrame i { frame with fp := v }).frames[i]? = some { frame with fp := v } := by
          simp [Stack.setFrame,lt]
        rw [got] at after ⊢
        simp only at after ⊢
        have none_ : (saveRegs t (Misses.none.saved i) { frame with fp := v } info.regs 0 .zero).2.2 = false := saveRegs_none ..
        split
        · rename_i down _ flag saved
          rw [saved] at after
          have contra : { frame with fp := v, isWalked := true } = frame' := by
            simpa [Stack.setFrame,Stack.miss,List.getElem?_set,lt] using after
          rw [← contra] at unwalked
          simp at unwalked
        · rename_i down flag saved
          rw [saved] at none_
          simp only at none_
          have back : ((s.setFrame i { frame with fp := v }).miss flag).setFrame i { frame with fp := 0 } = s.setFrame i frame := by
            rw [none_,miss_false,reset]
            simp [Stack.setFrame,List.set_set]
          rw [back]
          exact setFrame_self here
      · rw [reset]
        exact setFrame_self here

theorem sameRegs_none (t : Target) (frame down : StackFrame) (defs : List RegisterDefinition) :
    (sameRegs t .none frame down defs).2 = false := by
  induction defs with
  | nil => rfl
  | cons d rest ih =>
    have read := readRegBytes_false t frame d
    simp only [sameRegs]
    split
    · exact read
    · simp [ih,read]

theorem appendFrame_missed (t : Target) (s : Stack) (frame down : StackFrame) :
    (appendFrame t .none s frame down).1.missed = s.missed := by
  unfold appendFrame
  split
  · rfl
  · split
    · have none_ := sameRegs_none t frame down t.defs
      simp only
      split <;> simp [addFrame,Stack.miss,none_]
    · rfl

theorem appendFrame_stops (t : Target) (s : Stack) (frame down : StackFrame) (stops : (appendFrame t m s frame down).2 = false) :
    (appendFrame t m s frame down).1.complete = true := by
  unfold appendFrame at stops ⊢
  split
  · rfl
  · rename_i data
    rw [if_neg data] at stops
    split
    · rename_i equal
      rw [if_pos equal] at stops
      simp only at stops ⊢
      split
      · rfl
      · rename_i other
        rw [if_neg other] at stops
        simp at stops
    · rename_i other
      rw [if_neg other] at stops
      simp at stops

/-- A turn whose misses do no harm is broken off, or does what it does without them. -/
theorem traceFrame_congr (fresh : Fresh s) (missed : s.missed = false) (harmless : HarmlessTurn t m s) :
    traceFrame t m s = (s.miss true,false) ∨ traceFrame t m s = traceFrame t .none s := by
  obtain ⟨frame,here,fp,unwalked⟩ := fresh
  have lt := (List.getElem?_eq_some_iff.mp here).1
  obtain ⟨saved,top,crawls⟩ := harmless frame here
  rcases getNextStackFrame_congr here rfl fp saved (fun is d inside => (top is d inside).1) with broken | same
  · refine .inl ?_
    simp [traceFrame,here,broken,Stack.miss]
  · have grown := (getNextStackFrame_grown t .none here).1
    have kept := getNextStackFrame_missed t s (s.frames.length - 1) frame
    have unchanged := @getNextStackFrame_unwalked t s frame _ here fp
    unfold traceFrame
    simp only [here,same]
    generalize getNextStackFrame t .none s (s.frames.length - 1) frame = next at grown kept unchanged ⊢
    obtain ⟨s₁,down,ok⟩ := next
    simp only at grown kept unchanged ⊢
    simp only [kept,missed,Bool.false_eq_true,and_false,if_false]
    split
    · exact .inr rfl
    · rename_i frame' got
      obtain ⟨before,eq,sameTop,-⟩ := grown.old _ frame' got lt
      obtain rfl : frame = before := Option.some.inj (here.symm.trans eq)
      have compares : frame'.isTopFrame = true → ∀ d ∈ t.defs, m.compare d = false := fun is d inside =>
        (top (sameTop.symm.trans is) d inside).2
      by_cases isWalked : frame'.isWalked = true
      · rw [if_pos isWalked,if_pos isWalked]
        exact .inr (appendFrame_congr compares)
      · rw [if_neg isWalked,if_neg isWalked]
        cases crawl : m.crawl (s.frames.length - 1) with
        | none =>
          refine .inr ?_
          simp only [crawlStackFrame,crawl,none_crawl]
          split
          · rfl
          · exact appendFrame_congr compares
        | some outcome =>
          obtain ⟨fails,noInline⟩ := crawls outcome crawl
          obtain rfl : outcome = none := by simpa using fails
          have back := unchanged (fun info inside => by simpa using noInline info inside) got (by simpa using isWalked)
          refine .inl ?_
          rw [kept,missed,miss_false] at back
          simp [crawlStackFrame,crawl,Stack.miss,back]

/-- A turn without misses. -/
theorem traceFrame_none (nonempty : s.frames ≠ []) (missed : s.missed = false) :
    (traceFrame t .none s).1.missed = false ∧
      ((traceFrame t .none s).2 = false → (traceFrame t .none s).1.complete = true) := by
  have lt : s.frames.length - 1 < s.frames.length := Nat.sub_lt (List.length_pos_of_ne_nil nonempty) Nat.one_pos
  have here := List.getElem?_eq_getElem lt
  generalize s.frames[s.frames.length - 1] = frame at here
  have grown := (getNextStackFrame_grown t .none here).1
  have kept := getNextStackFrame_missed t s (s.frames.length - 1) frame
  unfold traceFrame
  simp only [here]
  generalize getNextStackFrame t .none s (s.frames.length - 1) frame = next at grown kept ⊢
  obtain ⟨s₁,down,ok⟩ := next
  simp only at grown kept ⊢
  simp only [kept,missed,Bool.false_eq_true,and_false,if_false]
  have inside : s.frames.length - 1 < s₁.frames.length := lt_of_lt_of_le lt grown.length
  rw [List.getElem?_eq_getElem inside]
  simp only
  split
  · exact ⟨(appendFrame_missed ..).trans (kept.trans missed),fun stops => appendFrame_stops _ _ _ _ stops⟩
  · simp only [crawlStackFrame,none_crawl,miss_false,kept,missed,Bool.false_eq_true,if_false]
    split
    · exact ⟨rfl,fun _ => rfl⟩
    · refine ⟨(appendFrame_missed ..).trans ?_,fun stops => appendFrame_stops _ _ _ _ stops⟩
      exact kept.trans missed

/-- A turn that goes on, with or without misses. -/
theorem traceFrame_grown (nonempty : s.frames ≠ []) (goes : (traceFrame t m s).2 = true) :
    Grown s (traceFrame t m s).1 ∧ s.frames.length < (traceFrame t m s).1.frames.length ∧ Fresh (traceFrame t m s).1 := by
  have lt : s.frames.length - 1 < s.frames.length := Nat.sub_lt (List.length_pos_of_ne_nil nonempty) Nat.one_pos
  have here := List.getElem?_eq_getElem lt
  generalize s.frames[s.frames.length - 1] = frame at here
  have appended : ∀ {s₁ : Stack} {frame' down : StackFrame}, Grown s s₁ → Below down →
      (appendFrame t m s₁ frame' down).2 = true →
      Grown s (appendFrame t m s₁ frame' down).1 ∧ s.frames.length < (appendFrame t m s₁ frame' down).1.frames.length ∧
        Fresh (appendFrame t m s₁ frame' down).1 := by
    intro s₁ frame' down grown below goes
    obtain ⟨more,length,f,last,low⟩ := appendFrame_grown t m below goes
    refine ⟨grown.trans more,by have := grown.length; omega,f,?_,low.fp,low.walked⟩
    rw [length]
    exact last
  obtain ⟨grown,below⟩ := getNextStackFrame_grown t m here
  unfold traceFrame at goes ⊢
  simp only [here] at goes ⊢
  generalize getNextStackFrame t m s (s.frames.length - 1) frame = next at grown below goes ⊢
  obtain ⟨s₁,down,ok⟩ := next
  simp only at grown below goes ⊢
  split
  · rename_i broken
    rw [if_pos broken] at goes
    simp at goes
  · rename_i unbroken
    rw [if_neg unbroken] at goes
    have inside : s.frames.length - 1 < s₁.frames.length := lt_of_lt_of_le lt grown.length
    have got := List.getElem?_eq_getElem inside
    generalize s₁.frames[s.frames.length - 1] = frame' at got
    rw [got] at goes ⊢
    simp only at goes ⊢
    split
    · rename_i isWalked
      rw [if_pos isWalked] at goes
      exact appended grown below goes
    · rename_i unwalked
      rw [if_neg unwalked] at goes
      generalize crawlStackFrame t m (s.frames.length - 1) frame' = crawl at goes ⊢
      obtain ⟨crawled,missed⟩ := crawl
      cases crawled with
      | none =>
        simp only at goes
        split at goes <;> simp at goes
      | some c =>
        have below : Below { StackFrame.zero with regs := c.regs, hasRegData := c.hasRegData } := ⟨rfl,rfl,rfl⟩
        exact appended ((grown.missed missed).setFrame got rfl rfl) below goes

end Misses

section Retries

variable {maxFrames n : Nat}

instance (t : Target) (m : Misses) (i : Nat) (frame : StackFrame) : Decidable (HarmlessAt t m i frame) :=
  inferInstanceAs (Decidable (_ ∧ _ ∧ _))

instance (t : Target) (m : Misses) (s : Stack) : Decidable (HarmlessTurn t m s) :=
  inferInstanceAs (Decidable (∀ frame ∈ s.frames[s.frames.length - 1]?, HarmlessAt t m (s.frames.length - 1) frame))

/-- Misses of the turns of one call do no harm. -/
def Harmless (t : Target) (m : Misses) (maxFrames : Nat) : Nat → Stack → Prop
  | 0, _ => True
  | n + 1, s => s.frames.length < maxFrames → HarmlessTurn t m s ∧
      ((traceFrame t m s).2 = true → Harmless t m maxFrames n (traceFrame t m s).1)

instance decideHarmless (t : Target) (m : Misses) (maxFrames : Nat) : ∀ n s, Decidable (Harmless t m maxFrames n s)
  | 0, _ => isTrue trivial
  | n + 1, s =>
    have : Decidable (Harmless t m maxFrames n (traceFrame t m s).1) := decideHarmless t m maxFrames n (traceFrame t m s).1
    inferInstanceAs (Decidable (s.frames.length < maxFrames → HarmlessTurn t m s ∧
      ((traceFrame t m s).2 = true → Harmless t m maxFrames n (traceFrame t m s).1)))

theorem Fresh.nonempty (fresh : Fresh s) : s.frames ≠ [] := by
  rintro empty
  obtain ⟨frame,here,-⟩ := fresh
  simp [empty] at here

theorem traceFrames_step (lt : s.frames.length < maxFrames) :
    traceFrames t m maxFrames (n + 1) s =
      if (traceFrame t m s).2 = true then traceFrames t m maxFrames n (traceFrame t m s).1 else (traceFrame t m s).1 := by
  simp only [traceFrames,if_pos lt]
  generalize traceFrame t m s = next
  obtain ⟨s',goes⟩ := next
  cases goes <;> simp

theorem traceFrames_done (le : maxFrames ≤ s.frames.length) : traceFrames t m maxFrames n s = s := by
  cases n with
  | zero => rfl
  | succ n => simp [traceFrames,not_lt.mpr le]

/-- The loop ends within so many turns. -/
theorem traceFrames_enough {n' : Nat} (nonempty : s.frames ≠ []) (enough : maxFrames ≤ s.frames.length + n)
    (enough' : maxFrames ≤ s.frames.length + n') : traceFrames t m maxFrames n s = traceFrames t m maxFrames n' s := by
  induction n generalizing n' s with
  | zero => rw [traceFrames_done (n := n') enough]; rfl
  | succ n ih =>
    by_cases lt : s.frames.length < maxFrames
    · obtain ⟨k,rfl⟩ : ∃ k, n' = k + 1 := ⟨n' - 1,by omega⟩
      rw [traceFrames_step lt,traceFrames_step lt]
      split
      · rename_i goes
        obtain ⟨-,more,fresh⟩ := traceFrame_grown nonempty goes
        exact ih fresh.nonempty (by omega) (by omega)
      · rfl
    · rw [traceFrames_done (not_lt.mp lt),traceFrames_done (not_lt.mp lt)]

/-- The loop without misses ends with all frames. -/
theorem traceFrames_final (nonempty : s.frames ≠ []) (missed : s.missed = false) (enough : maxFrames ≤ s.frames.length + n) :
    (traceFrames t .none maxFrames n s).missed = false ∧
      ((traceFrames t .none maxFrames n s).complete = true ∨ maxFrames ≤ (traceFrames t .none maxFrames n s).frames.length) := by
  induction n generalizing s with
  | zero => exact ⟨missed,.inr enough⟩
  | succ n ih =>
    by_cases lt : s.frames.length < maxFrames
    · obtain ⟨still,stops⟩ := traceFrame_none (t := t) nonempty missed
      rw [traceFrames_step lt]
      split
      · rename_i goes
        obtain ⟨-,more,next⟩ := traceFrame_grown nonempty goes
        exact ih next.nonempty still (by omega)
      · rename_i stopped
        exact ⟨still,.inl (stops (by simpa using stopped))⟩
    · rw [traceFrames_done (not_lt.mp lt)]
      exact ⟨missed,.inr (not_lt.mp lt)⟩

/-- A loop whose misses do no harm gets to the end, or leaves what a later one continues. -/
theorem traceFrames_harmless (fresh : Fresh s) (missed : s.missed = false) (incomplete : s.complete = false)
    (enough : maxFrames ≤ s.frames.length + n) (harmless : Harmless t m maxFrames n s) :
    traceFrames t m maxFrames n s = traceFrames t .none maxFrames n s ∨
    ∃ s', traceFrames t m maxFrames n s = s'.miss true ∧ s'.missed = false ∧ s'.complete = false ∧ Fresh s' ∧
      s'.frames.length < maxFrames ∧ traceFrames t .none maxFrames maxFrames s' = traceFrames t .none maxFrames n s := by
  induction n generalizing s with
  | zero => exact .inl rfl
  | succ n ih =>
    by_cases lt : s.frames.length < maxFrames
    · obtain ⟨turn,later⟩ := harmless lt
      rcases traceFrame_congr fresh missed turn with broken | same
      · refine .inr ⟨s,by rw [traceFrames_step lt,broken]; simp,missed,incomplete,fresh,lt,?_⟩
        exact traceFrames_enough fresh.nonempty (by omega) enough
      · rw [traceFrames_step lt,traceFrames_step lt,same]
        rw [same] at later
        split
        · rename_i goes
          obtain ⟨grown,more,next⟩ := traceFrame_grown fresh.nonempty goes
          obtain ⟨still,-⟩ := traceFrame_none (t := t) fresh.nonempty missed
          exact ih next still (grown.complete.trans incomplete) (by omega) (later goes)
        · exact .inl rfl
    · refine .inl ?_
      rw [traceFrames_done (not_lt.mp lt),traceFrames_done (not_lt.mp lt)]

/-- The frames at the start of the loop. -/
def start (s : Stack) : Stack := if s.frames = [] then addFrame s { StackFrame.zero with isTopFrame := true } else s

/-- Misses of a call do no harm. -/
def HarmlessCall (t : Target) (m : Misses) (maxFrames : Nat) (s : Stack) : Prop :=
  s.complete = false ∧ s.frames.length < maxFrames + 1 → Harmless t m (maxFrames + 1) (maxFrames + 1) (start { s with missed := false })

def HarmlessCalls (t : Target) (maxFrames : Nat) : Stack → List Misses → Prop
  | _, [] => True
  | s, m :: rest => HarmlessCall t m maxFrames s ∧ HarmlessCalls t maxFrames (createStackTrace t m maxFrames s).1 rest

instance (t : Target) (m : Misses) (maxFrames : Nat) (s : Stack) : Decidable (HarmlessCall t m maxFrames s) :=
  inferInstanceAs (Decidable (_ → _))

instance decideHarmlessCalls (t : Target) (maxFrames : Nat) : ∀ s calls, Decidable (HarmlessCalls t maxFrames s calls)
  | _, [] => isTrue trivial
  | s, m :: rest =>
    have : Decidable (HarmlessCalls t maxFrames (createStackTrace t m maxFrames s).1 rest) :=
      decideHarmlessCalls t maxFrames (createStackTrace t m maxFrames s).1 rest
    inferInstanceAs (Decidable (HarmlessCall t m maxFrames s ∧ HarmlessCalls t maxFrames (createStackTrace t m maxFrames s).1 rest))

/-- Between calls a trace that is not complete can be continued. -/
def Ready (maxFrames : Nat) (s : Stack) : Prop :=
  s.complete = false → s.frames.length < maxFrames + 1 → s.frames = [] ∨ Fresh s

theorem start_fresh (ready : s.frames = [] ∨ Fresh s) : Fresh (start { s with missed := false }) := by
  unfold start
  rcases ready with empty | ⟨frame,here,rest⟩
  · rw [if_pos (show Stack.frames { s with missed := false } = [] from empty)]
    exact ⟨{ StackFrame.zero with isTopFrame := true },by simp [addFrame,empty,StackFrame.zero],rfl,rfl⟩
  · have nonempty : s.frames ≠ [] := fun empty => by simp [empty] at here
    rw [if_neg (show ¬Stack.frames { s with missed := false } = [] from nonempty)]
    exact ⟨frame,here,rest⟩

theorem start_fields (s : Stack) : (start s).complete = s.complete ∧ (start s).missed = s.missed := by
  unfold start
  split <;> exact ⟨rfl,rfl⟩

theorem createStackTrace_run (wants : s.complete = false ∧ s.frames.length < maxFrames + 1) :
    createStackTrace t m maxFrames s =
      (traceFrames t m (maxFrames + 1) (maxFrames + 1) (start { s with missed := false }),
        !(traceFrames t m (maxFrames + 1) (maxFrames + 1) (start { s with missed := false })).missed) := by
  simp only [createStackTrace,traceStack,start]
  rw [if_pos wants]

theorem createStackTrace_done (done : ¬(s.complete = false ∧ s.frames.length < maxFrames + 1)) :
    createStackTrace t m maxFrames s = ({ s with missed := false },true) := by
  simp only [createStackTrace]
  rw [if_neg done]

/-- A call whose misses do no harm returns all frames, or NULL; a call without misses after it returns what it would have returned
before. -/
theorem createStackTrace_harmless (ready : Ready maxFrames s) (harmless : HarmlessCall t m maxFrames s) :
    Ready maxFrames (createStackTrace t m maxFrames s).1 ∧
      createStackTrace t .none maxFrames (createStackTrace t m maxFrames s).1 = createStackTrace t .none maxFrames s ∧
      ((createStackTrace t m maxFrames s).2 = true → createStackTrace t m maxFrames s = createStackTrace t .none maxFrames s) := by
  by_cases wants : s.complete = false ∧ s.frames.length < maxFrames + 1
  · have fresh := start_fresh (ready wants.1 wants.2)
    obtain ⟨complete,missed⟩ := start_fields { s with missed := false }
    have incomplete := complete.trans wants.1
    have enough : maxFrames + 1 ≤ (start { s with missed := false }).frames.length + (maxFrames + 1) := Nat.le_add_left ..
    obtain ⟨still,ends⟩ := traceFrames_final (t := t) fresh.nonempty missed enough
    rw [createStackTrace_run (m := m) wants,createStackTrace_run (m := .none) wants]
    rcases traceFrames_harmless fresh missed incomplete enough (harmless wants) with
      same | ⟨s',broken,missed',incomplete',fresh',more,later⟩
    · rw [same]
      generalize traceFrames t .none (maxFrames + 1) (maxFrames + 1) (start { s with missed := false }) = final at still ends
      have done : ¬(final.complete = false ∧ final.frames.length < maxFrames + 1) := by
        rintro ⟨no,short⟩
        rcases ends with yes | long
        · exact absurd (no.symm.trans yes) (by simp)
        · omega
      refine ⟨fun no short => absurd ⟨no,short⟩ done,?_,fun _ => rfl⟩
      have self : { final with missed := false } = final := by rw [← still]
      rw [createStackTrace_done done,self,still]
      rfl
    · rw [broken]
      have wants' : (s'.miss true).complete = false ∧ (s'.miss true).frames.length < maxFrames + 1 := ⟨incomplete',more⟩
      have reset : start { s'.miss true with missed := false } = s' := by
        have self : { s'.miss true with missed := false } = s' := by
          rw [← missed']
          rfl
        rw [self,start,if_neg fresh'.nonempty]
      refine ⟨fun _ _ => .inr fresh',?_,fun returned => absurd returned (by simp [Stack.miss])⟩
      rw [createStackTrace_run (m := .none) wants',reset,later]
  · rw [createStackTrace_done (m := m) wants,createStackTrace_done (m := .none) wants]
    exact ⟨fun no short => absurd ⟨no,short⟩ wants,createStackTrace_done wants,fun _ => rfl⟩

theorem retries_harmless {calls : List Misses} (ready : Ready maxFrames s) (harmless : HarmlessCalls t maxFrames s calls) :
    Ready maxFrames (retries t maxFrames s calls) ∧
      createStackTrace t .none maxFrames (retries t maxFrames s calls) = createStackTrace t .none maxFrames s := by
  induction calls generalizing s with
  | nil => exact ⟨ready,rfl⟩
  | cons m rest ih =>
    obtain ⟨next,same,-⟩ := createStackTrace_harmless ready harmless.1
    obtain ⟨last,all⟩ := ih next harmless.2
    exact ⟨last,all.trans same⟩

section

variable (numbered : Numbered s)

include numbered

theorem Numbered.complete (complete : Bool) : Numbered { s with complete } := numbered

theorem Numbered.addFrame (down : StackFrame) : Numbered (addFrame s down) := by
  intro j f got
  by_cases inside : j < s.frames.length
  · exact numbered j f (by simpa [StackTrace.addFrame,List.getElem?_append_left inside] using got)
  · have lt : j < s.frames.length + 1 := by simpa [StackTrace.addFrame] using (List.getElem?_eq_some_iff.mp got).1
    obtain rfl : j = s.frames.length := by omega
    obtain rfl : { down with frame := s.frames.length } = f := by simpa [StackTrace.addFrame] using got
    rfl

theorem appendFrame_numbered (t : Target) (m : Misses) (frame down : StackFrame) :
    Numbered (appendFrame t m s frame down).1 := by
  unfold appendFrame
  split
  · exact numbered.complete true
  · split
    · simp only
      split
      · exact numbered.complete true
      · exact Numbered.addFrame (s := s.miss _) numbered down
    · exact numbered.addFrame down

theorem traceFrame_numbered (t : Target) (m : Misses) : Numbered (traceFrame t m s).1 := by
  unfold traceFrame
  cases here : s.frames[s.frames.length - 1]? with
  | none => simpa only [here] using numbered
  | some frame =>
    simp only [here]
    have grown := (getNextStackFrame_grown t m here).1
    generalize getNextStackFrame t m s (s.frames.length - 1) frame = next at grown
    obtain ⟨s₁,down,ok⟩ := next
    have numbered₁ := grown.numbered numbered
    simp only
    split
    · exact numbered₁
    · split
      · exact numbered₁
      · rename_i frame' got
        split
        · exact appendFrame_numbered numbered₁ t m frame' down
        · generalize crawlStackFrame t m (s.frames.length - 1) frame' = crawl
          obtain ⟨crawled,missed⟩ := crawl
          have grown₂ := grown.missed missed
          simp only
          split
          · split
            · exact grown₂.numbered numbered
            · exact (grown₂.numbered numbered).complete true
          · rename_i c
            have grown₃ : Grown s ((s₁.miss missed).setFrame (s.frames.length - 1) { frame' with fp := c.fp }) :=
              grown₂.setFrame got rfl rfl
            exact appendFrame_numbered (grown₃.numbered numbered) t m _ _

theorem traceFrames_numbered : Numbered (traceFrames t m maxFrames n s) := by
  induction n generalizing s with
  | zero => exact numbered
  | succ n ih =>
    have turn := traceFrame_numbered numbered t m
    simp only [traceFrames]
    split
    · split
      · rename_i s' eq
        rw [eq] at turn
        exact ih turn
      · rename_i s' eq
        rw [eq] at turn
        exact turn
    · exact numbered

theorem createStackTrace_numbered : Numbered (createStackTrace t m maxFrames s).1 := by
  have started : Numbered (start { s with missed := false }) := by
    unfold start
    split
    · exact Numbered.addFrame (s := { s with missed := false }) numbered _
    · exact numbered
  by_cases wants : s.complete = false ∧ s.frames.length < maxFrames + 1
  · rw [createStackTrace_run wants]
    exact traceFrames_numbered started
  · rw [createStackTrace_done wants]
    exact numbered

theorem retries_numbered (calls : List Misses) : Numbered (retries t maxFrames s calls) := by
  induction calls generalizing s with
  | nil => exact numbered
  | cons m rest ih => exact ih (createStackTrace_numbered numbered)

end

theorem harmlessCalls_append {calls : List Misses} (harmless : HarmlessCalls t maxFrames s (calls ++ [m])) :
    HarmlessCalls t maxFrames s calls ∧ HarmlessCall t m maxFrames (retries t maxFrames s calls) := by
  induction calls generalizing s with
  | nil => exact ⟨trivial,harmless.1⟩
  | cons first rest ih =>
    obtain ⟨later,last⟩ := ih harmless.2
    exact ⟨⟨harmless.1,later⟩,last⟩

/-- Two registers, the program counter and another. Code at 0x100 has tracing info, with an inlined level or without. -/
def exampleTarget (inlined : Bool) (saved : RegisterDefinition) : Target where
  defs := [⟨0,8,false,0⟩,⟨8,8,false,1⟩]
  pc := some ⟨0,8,false,0⟩
  contextReadReg d := if d.offset = 0 then some [0,1,0,0,0,0,0,0] else some [5,0,0,0,0,0,0,0]
  tracingInfo ip := if ip = 0x100 ∨ ip = 0xff then
      some (some ⟨0,[(some ⟨0,8,false,0⟩,1),(some saved,2)],if inlined then [⟨9,9⟩] else []⟩)
    else some none
  evaluate e _ := if e = 0 then some [0x1000] else if e = 1 then some [0x200] else some [7]
  crawl frame := if frame.frame = 0 then some ⟨0x2000,true,some fun i => if i < 8 then some 3 else none⟩ else none

def missing (pc : Bool) (info fp : Nat → Bool) (saved : Nat → Nat → Bool) (crawl : Nat → Option (Option Crawled)) : Misses :=
  { Misses.none with pc, info, fp, saved, crawl }

end Retries

end Tcf.StackTrace
