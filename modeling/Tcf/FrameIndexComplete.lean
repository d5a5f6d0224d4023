import Tcf.FrameKept

/-! When the search index over a section of frame info is all or nothing. -/
namespace Tcf.Frames

open Dwarf

abbrev KeepsIndex {α : Type} (call : Lookup α) : Prop := Keeps World.index call

theorem setPos_index (s : FrameSection) (pos : Nat) : KeepsIndex (setPos s pos) := setPos_keeps s pos

theorem enterSection_index (s : FrameSection) (offset : Nat) : KeepsIndex (enterSection s offset) := enterSection_keeps s offset

@[simp] theorem modifyRules_index (f : StackFrameRules → StackFrameRules) : KeepsIndex (modifyRules f) := keeps_modify fun _ => rfl

section Entries

variable (s : FrameSection) (fuel : Nat) (text : Option Nat)

@[simp] theorem readLength_index : KeepsIndex (readLength s) := by
  unfold readLength
  exact keeps_bind (by simp) fun length => keeps_ite (by simp) (by simp)

@[simp] theorem readAugmentation_index (letters : List UInt8) : KeepsIndex (readAugmentation s text letters) := by
  induction letters with
  | nil => simp [readAugmentation]
  | cons letter later ih =>
    unfold readAugmentation
    refine keeps_ite (keeps_bind (by simp) fun _ => ih) ?_
    refine keeps_ite ?_ (keeps_ite (keeps_bind (by simp) fun encoding => keeps_bind (by simp) fun _ => ih) ih)
    refine keeps_bind (by simp) fun encoding => ?_
    refine keeps_bind (by simp) fun addrPos => ?_
    refine keeps_bind keeps_get fun w => ?_
    exact keeps_bind (trap_keeps (by simp) (by simp)) fun _ => ih

@[simp] theorem readEhData_index (aug : Option (List UInt8)) : KeepsIndex (readEhData s aug) := keeps_ite (by simp) (by simp)

@[simp] theorem readAugmentationData_index (aug : Option (List UInt8)) : KeepsIndex (readAugmentationData s text aug) := by
  unfold readAugmentationData
  split
  · refine keeps_bind (by simp) fun augLength => ?_
    refine keeps_bind (by simp) fun augPos => ?_
    exact keeps_bind (by simp) fun _ => by simp
  · simp

@[simp] theorem readCieHeader_index : KeepsIndex (readCieHeader s text) := by
  unfold readCieHeader
  refine keeps_bind (by simp) fun version => keeps_ite (by simp) ?_
  refine keeps_bind (by simp) fun aug => ?_
  refine keeps_bind (by simp) fun _ => ?_
  refine keeps_bind (by simp) fun _ => ?_
  refine keeps_bind (keeps_ite (by simp) (by simp)) fun addressSize => ?_
  refine keeps_bind (keeps_ite (by simp) (by simp)) fun segmentSize => keeps_ite (by simp) ?_
  refine keeps_bind (by simp) fun codeAlignment => ?_
  refine keeps_bind (by simp) fun dataAlignment => ?_
  refine keeps_bind (by simp) fun returnAddressRegister => ?_
  exact keeps_bind (by simp) fun _ => by simp

@[simp] theorem execUntil_index (stop rounds : Nat) : KeepsIndex (execUntil s text stop rounds) := by
  induction rounds with
  | zero => simp [execUntil]
  | succ rounds ih => exact keeps_bind (by simp) fun pos => keeps_ite (keeps_bind (by simp) fun _ => ih) (by simp)

@[simp] theorem execCie_index (cieEnd : Nat) : KeepsIndex (execCie s fuel text cieEnd) := by
  unfold execCie
  exact keeps_bind (keeps_modify fun _ => rfl) fun _ => keeps_bind (by simp) fun _ => keeps_modify fun _ => rfl

@[simp] theorem readFrameCie_index (pos : Nat) : KeepsIndex (readFrameCie s fuel text pos) := by
  unfold readFrameCie
  refine keeps_bind (by simp) fun saved => ?_
  refine keeps_bind (by simp) fun _ => keeps_ite (by simp) ?_
  refine keeps_bind (by simp) fun _ => ?_
  refine keeps_bind (by simp) fun length => ?_
  refine keeps_bind (by simp) fun start => ?_
  refine keeps_bind (by simp) fun _ => ?_
  refine keeps_bind (by simp) fun _ => ?_
  exact keeps_bind (by simp) fun _ => by simp

@[simp] theorem readCieRef_index (dwarf64 : Bool) : KeepsIndex (readCieRef s dwarf64) := by
  unfold readCieRef
  exact keeps_bind (keeps_ite (by simp) (by simp)) fun ref => by simp

@[simp] theorem enterCie_index (refPos ref : Nat) : KeepsIndex (enterCie s fuel text refPos ref) := by
  unfold enterCie
  exact keeps_bind keeps_get fun w => keeps_ite (by simp) (by simp)

@[simp] theorem skipAugmentation_index (aug : Option (List UInt8)) : KeepsIndex (skipAugmentation s aug) := by
  unfold skipAugmentation
  split
  · exact keeps_bind (by simp) fun length => by simp
  · simp

@[simp] theorem readFrameRow_index (ip fdePos : Nat) : KeepsIndex (readFrameRow s fuel text ip fdePos) := by
  unfold readFrameRow
  refine keeps_bind (by simp) fun _ => ?_
  refine keeps_bind (by simp) fun length => ?_
  refine keeps_bind (by simp) fun refPos => ?_
  refine keeps_bind (by simp) fun ref => keeps_ite (by simp) ?_
  refine keeps_bind (by simp) fun _ => ?_
  refine keeps_bind keeps_get fun w => ?_
  refine keeps_bind (by simp) fun addr => ?_
  refine keeps_bind (by simp) fun range => keeps_ite ?_ (by simp)
  refine keeps_bind (by simp) fun _ => ?_
  exact keeps_bind (by simp) fun location0 => keeps_bind keeps_get fun w => by simp

@[simp] theorem readHead_index : KeepsIndex (readHead s fuel text) := by
  unfold readHead
  refine keeps_bind (by simp) fun fdePos => ?_
  refine keeps_bind (by simp) fun length => keeps_ite (by simp) ?_
  refine keeps_bind (by simp) fun refPos => keeps_ite ?_ ?_
  · exact keeps_ite (keeps_bind (by simp) fun _ => by simp) (by simp)
  · refine keeps_bind (by simp) fun ref => ?_
    exact keeps_bind (keeps_ite (by simp) (by simp)) fun _ => by simp

end Entries

section Runs

variable (s : FrameSection)

/-- A call comes back, with a result or with an exception. -/
def Returns {α : Type} : EStateM.Result Stop World α → Prop
  | .ok _ _ => True
  | .error stop _ => stop.raised = true

/-- A lookup builds the index, and comes to the end of that. -/
def Completes (fuel rounds : Nat) (text : Option Nat) (w : World) : Prop :=
  w.index.mFrameInfoRanges = none ∧ ∃ w', ensureIndex s fuel rounds text w = .ok () w'

def unbuilt : FrameInfoIndex := ⟨none,false⟩

/-- What lookups in the section come to, and that a build of its index has come to its end. What is done in other sections changes the rest of the world. -/
inductive Reaches : Prop → World → Prop where
  | start (w : World) (empty : w.index = unbuilt) : Reaches False w
  | elsewhere {finished : Prop} {w : World} (w' : World) (before : Reaches finished w) (same : w'.index = w.index) : Reaches finished w'
  | lookup {finished : Prop} {w : World} (before : Reaches finished w) (fuel rounds : Nat) (text : Option TextSection) (ip : Nat)
    (returns : Returns (readFrameInfoSection s fuel rounds text ip w)) :
    Reaches (finished ∨ Completes s fuel rounds (text.map TextSection.addr) w) (leftWorld (readFrameInfoSection s fuel rounds text ip w))

/-- What a build from the beginning leaves when it comes to its end, sorted. -/
structure CompleteIndex (index : FrameInfoIndex) : Prop where
  built : ∃ fuel rounds text w w', w.index = unbuilt ∧ createSearchIndex s fuel rounds text w = .ok () w' ∧ w'.index = index
  sorted : (index.mFrameInfoRanges.getD []).Pairwise fun x y => (cmpFrameInfoRanges x y).isLE

/-- No lookup comes to the search before a build has come to its end, and none over anything but the complete index. -/
def AllOrNothing : Prop := ∀ finished w, Reaches s finished w → ∀ fuel rounds text w', ensureIndex s fuel rounds text w = .ok () w' →
  (finished ∨ Completes s fuel rounds text w) ∧ CompleteIndex s w'.index

/-- The places between the entries of the section, and whether an FDE is before them. -/
inductive Passes (fuel : Nat) (text : Option Nat) : Bool → World → Prop where
  | start {w0 w : World} (empty : w0.index = unbuilt) (rules : w0.rules = startRules) (enter : enterSection s 0 w0 = .ok () w) : Passes fuel text false w
  | again {b : Bool} {w w' : World} (before : Passes fuel text b w) (inside : w.dio.pos < s.data.length)
    (head : readHead s fuel text w = .ok .again w') : Passes fuel text b w'
  | cie {b : Bool} {w w1 w2 : World} {fdePos fdeEnd : Nat} (before : Passes fuel text b w) (inside : w.dio.pos < s.data.length)
    (head : readHead s fuel text w = .ok (.entry fdePos fdeEnd false) w1) (jump : setPos s fdeEnd w1 = .ok () w2) : Passes fuel text b w2
  | fde {b : Bool} {w w1 w2 w3 : World} {fdePos fdeEnd : Nat} (before : Passes fuel text b w) (inside : w.dio.pos < s.data.length)
    (head : readHead s fuel text w = .ok (.entry fdePos fdeEnd true) w1) (add : addRange s text fdePos w1 = .ok () w2)
    (jump : setPos s fdeEnd w2 = .ok () w3) : Passes fuel text true w3

/-- An entry raises an exception when an FDE is before it, or is an FDE with a CIE that can be read but an address range that cannot. -/
inductive Fragile : Prop where
  | behind {fuel : Nat} {text : Option Nat} {w w' : World} {stop : Stop} (passes : Passes s fuel text true w) (inside : w.dio.pos < s.data.length)
    (head : readHead s fuel text w = .error stop w') (raised : stop.raised = true)
  | range {fuel : Nat} {text : Option Nat} {b : Bool} {w w1 w2 : World} {fdePos fdeEnd : Nat} {stop : Stop} (passes : Passes s fuel text b w)
    (inside : w.dio.pos < s.data.length) (head : readHead s fuel text w = .ok (.entry fdePos fdeEnd true) w1)
    (add : addRange s text fdePos w1 = .error stop w2) (raised : stop.raised = true)

end Runs

section Reserving

variable {α β γ δ : Type} {s : FrameSection} {fuel rounds : Nat} {text : Option Nat} {w w' : World}

abbrev published (w : World) : Bool := w.index.mFrameInfoRanges.isSome

theorem fillRange_published (f : FrameInfoRange → FrameInfoRange) : Keeps published (fillRange f) :=
  keeps_modify fun w => by simp [published]

theorem fillSection_published (sec : Option Nat) : Keeps published (fillSection sec) := by
  cases sec with
  | none => exact keeps_pure _
  | some sec => exact keeps_bind (fillRange_published _) fun _ => keeps_modify fun _ => rfl

theorem readRange_published (fdePos : Nat) : Keeps published (readRange s text fdePos) := by
  have pointer (encoding known) : Keeps published (readFrameDataPointer s encoding text known 0) := by
    have index : KeepsIndex (readFrameDataPointer s encoding text known 0) := readFrameDataPointer_keeps s encoding text known 0
    exact index.of fun index => index.mFrameInfoRanges.isSome
  unfold readRange
  refine keeps_bind keeps_get fun w => ?_
  refine keeps_bind (pointer _ _) fun addr => ?_
  refine keeps_bind (fillRange_published _) fun _ => ?_
  refine keeps_bind (pointer _ _) fun size => ?_
  refine keeps_bind (fillRange_published _) fun _ => ?_
  exact keeps_bind (fillSection_published _) fun _ => fillRange_published _

/-- From the beginning of an entry on, the array is there. -/
theorem addRange_published (s : FrameSection) (text : Option Nat) (fdePos : Nat) (w : World) :
    published (leftWorld (addRange s text fdePos w)) = true := readRange_published fdePos (reserved w)

/-- The end of an entry is inside of the section. -/
theorem readHead_end {fdePos fdeEnd : Nat} {fde : Bool} (head : readHead s fuel text w = .ok (.entry fdePos fdeEnd fde) w') :
    fdeEnd ≤ s.data.length := by
  unfold readHead at head
  obtain ⟨pos,w1,-,head⟩ := bind_inv head
  obtain ⟨length,w2,-,head⟩ := bind_inv head
  dsimp only at head
  split at head
  · cases head
  · obtain ⟨refPos,w3,-,head⟩ := bind_inv head
    split at head
    · split at head
      · obtain ⟨_,w4,-,head⟩ := bind_inv head
        cases head
      · cases head
    · next inside =>
      obtain ⟨ref,w4,-,head⟩ := bind_inv head
      obtain ⟨_,w5,-,head⟩ := bind_inv head
      cases head
      omega

theorem setPos_inside {pos : Nat} (inside : pos ≤ s.data.length) (w : World) : ∃ w', setPos s pos w = .ok () w' :=
  ⟨_,by rw [setPos,if_neg (by omega)]⟩

/-- The array is there when an FDE has been read, and nothing is before that. -/
theorem Passes.index {b : Bool} (passes : Passes s fuel text b w) : (b = true → published w = true) ∧ (b = false → w.index = unbuilt) := by
  induction passes with
  | start empty _ enter =>
    refine ⟨fun nothing => (by cases nothing),fun _ => ?_⟩
    rw [(enterSection_index s 0).ok enter,empty]
  | again _ _ head ih =>
    rw [published,(readHead_index s fuel text).ok head]
    exact ih
  | cie _ _ head jump ih =>
    rw [published,(setPos_index s _).ok jump,(readHead_index s fuel text).ok head]
    exact ih
  | @fde _ _ w1 _ _ fdePos _ _ _ _ add jump _ =>
    have there := addRange_published s text fdePos w1
    rw [add] at there
    rw [published,(setPos_index s _).ok jump]
    exact ⟨fun _ => there,fun nothing => by cases nothing⟩

theorem indexLoop_end (outside : ¬w.dio.pos < s.data.length) : indexLoop s fuel text (rounds + 1) w = .ok () w := by
  simp only [indexLoop,bind,EStateM.bind,getPos,liftRead,dioGetPos]
  rw [if_neg outside]
  rfl

/-- A round inside of the section -/
def indexRound (s : FrameSection) (fuel : Nat) (text : Option Nat) (rounds : Nat) : Lookup Unit := do
  let head ← readHead s fuel text
  match head with
  | .again => indexLoop s fuel text rounds
  | .entry fdePos fdeEnd fde => do
    (if fde then addRange s text fdePos else pure () : Lookup Unit)
    setPos s fdeEnd
    indexLoop s fuel text rounds

theorem indexLoop_round (inside : w.dio.pos < s.data.length) :
    indexLoop s fuel text (rounds + 1) w = indexRound s fuel text rounds w := by
  simp only [indexLoop,bind,EStateM.bind,getPos,liftRead,dioGetPos]
  rw [if_pos inside]
  rfl

theorem indexRound_again {w1 : World} (head : readHead s fuel text w = .ok .again w1) :
    indexRound s fuel text rounds w = indexLoop s fuel text rounds w1 := by
  rw [indexRound,bind_ok head]

theorem indexRound_cie {w1 w2 : World} {fdePos fdeEnd : Nat} (head : readHead s fuel text w = .ok (.entry fdePos fdeEnd false) w1)
    (jump : setPos s fdeEnd w1 = .ok () w2) : indexRound s fuel text rounds w = indexLoop s fuel text rounds w2 := by
  rw [indexRound,bind_ok head]
  exact bind_ok jump

theorem indexRound_fde {w1 w2 w3 : World} {fdePos fdeEnd : Nat} (head : readHead s fuel text w = .ok (.entry fdePos fdeEnd true) w1)
    (add : addRange s text fdePos w1 = .ok () w2) (jump : setPos s fdeEnd w2 = .ok () w3) :
    indexRound s fuel text rounds w = indexLoop s fuel text rounds w3 := by
  rw [indexRound,bind_ok head]
  show ((addRange s text fdePos >>= fun _ => setPos s fdeEnd >>= fun _ => indexLoop s fuel text rounds) : Lookup Unit) w1 = _
  rw [bind_ok add,bind_ok jump]

/-- A loop that comes to its end comes to it between two entries. -/
theorem indexLoop_ok {b : Bool} (passes : Passes s fuel text b w) (run : indexLoop s fuel text rounds w = .ok () w') :
    ∃ b', Passes s fuel text b' w' := by
  induction rounds generalizing b w with
  | zero => cases run
  | succ rounds ih =>
    by_cases inside : w.dio.pos < s.data.length
    · rw [indexLoop_round inside] at run
      obtain ⟨head,w1,read,rest⟩ := bind_inv run
      cases head with
      | again => exact ih (passes.again inside read) rest
      | entry fdePos fdeEnd fde =>
        cases fde with
        | false =>
          obtain ⟨w2,jump⟩ := setPos_inside (readHead_end read) w1
          rw [indexRound_cie read jump] at run
          exact ih (passes.cie inside read jump) run
        | true =>
          obtain ⟨_,w2,add,rest⟩ := bind_inv rest
          obtain ⟨_,w3,jump,rest⟩ := bind_inv rest
          exact ih (passes.fde inside read add jump) rest
    · rw [indexLoop_end inside] at run
      cases run
      exact ⟨b,passes⟩

/-- An exception in the loop leaves no array, or the section is fragile. -/
theorem indexLoop_raised {b : Bool} {stop : Stop} (passes : Passes s fuel text b w) (run : indexLoop s fuel text rounds w = .error stop w')
    (raised : stop.raised = true) : w'.index = unbuilt ∨ Fragile s := by
  induction rounds generalizing b w with
  | zero =>
    cases run
    cases raised
  | succ rounds ih =>
    by_cases inside : w.dio.pos < s.data.length
    · rw [indexLoop_round inside] at run
      rcases bind_raised run with first | ⟨head,w1,read,rest⟩
      · cases b with
        | true => exact .inr (.behind passes inside first raised)
        | false =>
          left
          rw [(readHead_index s fuel text).error first]
          exact passes.index.2 rfl
      cases head with
      | again => exact ih (passes.again inside read) rest
      | entry fdePos fdeEnd fde =>
        cases fde with
        | false =>
          obtain ⟨w2,jump⟩ := setPos_inside (readHead_end read) w1
          rw [indexRound_cie read jump] at run
          exact ih (passes.cie inside read jump) run
        | true =>
          rcases bind_raised rest with add | ⟨_,w2,add,rest⟩
          · exact .inr (.range passes inside read add raised)
          obtain ⟨w3,jump⟩ := setPos_inside (readHead_end read) w2
          rw [bind_ok jump] at rest
          exact ih (passes.fde inside read add jump) rest
    · rw [indexLoop_end inside] at run
      cases run

/-- A place between entries is one that a build comes to, after some rounds. -/
theorem Passes.comes {b : Bool} (passes : Passes s fuel text b w) :
    ∃ w0 w1 k, w0.index = unbuilt ∧ w0.rules = startRules ∧ enterSection s 0 w0 = .ok () w1 ∧
      ∀ rounds, indexLoop s fuel text (rounds + k) w1 = indexLoop s fuel text rounds w := by
  induction passes with
  | @start w0 w empty rules enter => exact ⟨w0,w,0,empty,rules,enter,fun rounds => rfl⟩
  | again _ inside head ih =>
    obtain ⟨w0,w1,k,empty,rules,enter,same⟩ := ih
    refine ⟨w0,w1,k + 1,empty,rules,enter,fun rounds => ?_⟩
    rw [← Nat.add_assoc,Nat.add_right_comm,same,indexLoop_round inside,indexRound_again head]
  | cie _ inside head jump ih =>
    obtain ⟨w0,w1,k,empty,rules,enter,same⟩ := ih
    refine ⟨w0,w1,k + 1,empty,rules,enter,fun rounds => ?_⟩
    rw [← Nat.add_assoc,Nat.add_right_comm,same,indexLoop_round inside,indexRound_cie head jump]
  | fde _ inside head add jump ih =>
    obtain ⟨w0,w1,k,empty,rules,enter,same⟩ := ih
    refine ⟨w0,w1,k + 1,empty,rules,enter,fun rounds => ?_⟩
    rw [← Nat.add_assoc,Nat.add_right_comm,same,indexLoop_round inside,indexRound_fde head add jump]

/-- A fragile section raises an exception in a build, and leaves an array behind. -/
theorem Fragile.raises (fragile : Fragile s) : ∃ fuel rounds text w0 w' stop, w0.index = unbuilt ∧ w0.rules = startRules ∧ stop.raised = true ∧
    createSearchIndex s fuel rounds text w0 = .error stop w' ∧ published w' = true := by
  rcases fragile with ⟨passes,inside,head,raised⟩ | ⟨passes,inside,head,add,raised⟩
  · rename_i fuel text w w' stop
    obtain ⟨w0,w1,k,empty,rules,enter,same⟩ := passes.comes
    refine ⟨fuel,1 + k,text,w0,w',stop,empty,rules,raised,?_,?_⟩
    · rw [createSearchIndex,bind_ok enter]
      refine bind_error ?_
      rw [same,indexLoop_round inside]
      exact bind_error head
    · rw [published,(readHead_index s fuel text).error head]
      exact passes.index.1 rfl
  · rename_i fuel text b w w1 w2 fdePos fdeEnd stop
    obtain ⟨w0,w1',k,empty,rules,enter,same⟩ := passes.comes
    refine ⟨fuel,1 + k,text,w0,w2,stop,empty,rules,raised,?_,?_⟩
    · rw [createSearchIndex,bind_ok enter]
      refine bind_error ?_
      rw [same,indexLoop_round inside,indexRound,bind_ok head]
      exact bind_error add
    · have there := addRange_published s text fdePos w1
      rwa [add] at there

end Reserving

section Lookups

variable {s : FrameSection} {fuel rounds : Nat} {text : Option Nat} {w w' : World}

theorem sorts_ranges : Sorting.Sorts cmpFrameInfoRanges := (Sorting.sorts_compare FrameInfoRange.mAddr).after FrameInfoRange.mSection

/-- What `createSearchIndex` does with the array behind the loop -/
def sortIndex (w : World) : World := { w with index.mFrameInfoRanges := w.index.mFrameInfoRanges.map sortRanges }

theorem createSearchIndex_ok (run : createSearchIndex s fuel rounds text w = .ok () w') :
    ∃ w1 w2, enterSection s 0 w = .ok () w1 ∧ indexLoop s fuel text rounds w1 = .ok () w2 ∧ w' = sortIndex w2 := by
  obtain ⟨_,w1,enter,run⟩ := bind_inv run
  obtain ⟨_,w2,loop,run⟩ := bind_inv run
  cases run
  exact ⟨w1,w2,enter,loop,rfl⟩

theorem createSearchIndex_raised {stop : Stop} (run : createSearchIndex s fuel rounds text w = .error stop w') (raised : stop.raised = true) :
    ∃ w1, enterSection s 0 w = .ok () w1 ∧ indexLoop s fuel text rounds w1 = .error stop w' := by
  rcases bind_raised run with first | ⟨_,w1,enter,run⟩
  · unfold enterSection at first
    split at first
    · cases first
    · cases first
      cases raised
  rcases bind_raised run with loop | ⟨_,w2,_,run⟩
  · exact ⟨w1,enter,loop⟩
  · cases run

theorem sorted_index (w : World) :
    ((sortIndex w).index.mFrameInfoRanges.getD []).Pairwise fun x y => (cmpFrameInfoRanges x y).isLE := by
  cases array : w.index.mFrameInfoRanges with
  | none => simp [sortIndex,array]
  | some ranges =>
    simp only [sortIndex,array,Option.map_some,Option.getD_some]
    exact sorts_ranges.sorted ranges

/-- A build from nothing: the complete index, which is nothing again when there is no FDE. -/
theorem createSearchIndex_complete (empty : w.index = unbuilt) (rules : w.rules = startRules)
    (run : createSearchIndex s fuel rounds text w = .ok () w') : CompleteIndex s w'.index ∧ (w'.index = unbuilt ∨ published w' = true) := by
  obtain ⟨w1,w2,enter,loop,rfl⟩ := createSearchIndex_ok run
  obtain ⟨b,passes⟩ := indexLoop_ok (.start empty rules enter) loop
  refine ⟨⟨⟨fuel,rounds,text,w,_,empty,run,rfl⟩,sorted_index w2⟩,?_⟩
  cases b with
  | false =>
    left
    have before := passes.index.2 rfl
    simp [sortIndex,before,unbuilt]
  | true =>
    right
    have there := passes.index.1 rfl
    simpa [published,sortIndex] using there

def startOver (w : World) : World := { w with rules := startRules }

theorem ensureIndex_eq : ensureIndex s fuel rounds text w =
    (if w.index.mFrameInfoRanges = none then createSearchIndex s fuel rounds text else pure () : Lookup Unit) (startOver w) := rfl

theorem ensureIndex_build (empty : w.index.mFrameInfoRanges = none) :
    ensureIndex s fuel rounds text w = createSearchIndex s fuel rounds text (startOver w) := by
  rw [ensureIndex_eq,if_pos empty]

theorem ensureIndex_built (there : published w = true) : ensureIndex s fuel rounds text w = .ok () (startOver w) := by
  have built : w.index.mFrameInfoRanges ≠ none := by
    intro nothing
    simp [published,nothing] at there
  rw [ensureIndex_eq,if_neg built]
  rfl

/-- Behind the index, a lookup leaves it as it is. -/
theorem readFrameInfoSection_index {text : Option TextSection} {ip : Nat} :
    (leftWorld (readFrameInfoSection s fuel rounds text ip w)).index = (leftWorld (ensureIndex s fuel rounds (text.map TextSection.addr) w)).index := by
  unfold readFrameInfoSection
  cases run : ensureIndex s fuel rounds (text.map TextSection.addr) w with
  | error stop w' =>
    rw [bind_error run]
    rfl
  | ok a w' =>
    rw [bind_ok run]
    refine keeps_bind keeps_get (fun w => ?_) w'
    dsimp only
    split
    · exact keeps_pure _
    · exact keeps_bind (readFrameRow_index _ _ _ _ _) fun _ => keeps_pure _

end Lookups

section AllOrNothing

variable {s : FrameSection} {fuel rounds : Nat} {text : Option Nat} {w w' : World}

/-- What is true of the index in every state that lookups come to. -/
def Sound (s : FrameSection) (finished : Prop) (index : FrameInfoIndex) : Prop :=
  index = unbuilt ∨ (finished ∧ CompleteIndex s index ∧ index.mFrameInfoRanges.isSome = true)

theorem Sound.step {finished : Prop} (robust : ¬Fragile s) (sound : Sound s finished w.index)
    (returns : Returns (ensureIndex s fuel rounds text w)) :
    Sound s (finished ∨ Completes s fuel rounds text w) (leftWorld (ensureIndex s fuel rounds text w)).index := by
  rcases sound with empty | ⟨done,complete,there⟩
  · have build : ensureIndex s fuel rounds text w = createSearchIndex s fuel rounds text (startOver w) :=
      ensureIndex_build (by rw [empty]; rfl)
    cases run : ensureIndex s fuel rounds text w with
    | ok a w' =>
      rw [build] at run
      obtain ⟨complete,built⟩ := createSearchIndex_complete (w := startOver w) empty rfl run
      rcases built with built | there
      · exact .inl built
      · exact .inr ⟨.inr ⟨by rw [empty]; rfl,w',by rw [build,run]⟩,complete,there⟩
    | error stop w' =>
      rw [run] at returns
      rw [build] at run
      obtain ⟨w1,enter,loop⟩ := createSearchIndex_raised run returns
      left
      rcases indexLoop_raised (.start (show (startOver w).index = unbuilt from empty) rfl enter) loop returns with nothing | fragile
      · exact nothing
      · exact absurd fragile robust
  · rw [ensureIndex_built there]
    exact .inr ⟨.inl done,complete,there⟩

/-- A lookup that comes back has come back from the index. -/
theorem readFrameInfoSection_returns {text : Option TextSection} {ip : Nat} (returns : Returns (readFrameInfoSection s fuel rounds text ip w)) :
    Returns (ensureIndex s fuel rounds (text.map TextSection.addr) w) := by
  unfold readFrameInfoSection at returns
  cases run : ensureIndex s fuel rounds (text.map TextSection.addr) w with
  | ok a w' => trivial
  | error stop w' =>
    rw [bind_error run] at returns
    exact returns

theorem Reaches.sound {finished : Prop} (robust : ¬Fragile s) (reaches : Reaches s finished w) : Sound s finished w.index := by
  induction reaches with
  | start w empty => exact .inl empty
  | elsewhere w' _ same ih =>
    rw [same]
    exact ih
  | lookup _ fuel rounds text ip returns ih =>
    rw [readFrameInfoSection_index]
    exact ih.step robust (readFrameInfoSection_returns returns)

/-- A build that raises an exception leaves no array. -/
theorem AllOrNothing.none_left {stop : Stop} (all : AllOrNothing s) (empty : w.index = unbuilt)
    (build : ensureIndex s fuel rounds text w = .error stop w') (raised : stop.raised = true) : published w' = false := by
  let textSection : Option TextSection := text.map fun addr => ⟨0,addr⟩
  have address : textSection.map TextSection.addr = text := by cases text <;> rfl
  have lookup : readFrameInfoSection s fuel rounds textSection 0 w = .error stop w' := by
    unfold readFrameInfoSection
    rw [address]
    exact bind_error build
  have reaches := (Reaches.start (s := s) w empty).lookup fuel rounds textSection 0 (by rw [lookup]; exact raised)
  rw [lookup,address] at reaches
  rw [← Bool.not_eq_true]
  intro there
  rcases (all _ w' reaches fuel rounds text _ (ensureIndex_built there)).1 with (nothing | ⟨_,w1,complete⟩) | ⟨nothing,_⟩
  · exact nothing
  · rw [build] at complete
    cases complete
  · rw [published,nothing] at there
    cases there

/-- The index is all or nothing exactly when no entry raises an exception behind an FDE, or in the address range of one. -/
theorem all_or_nothing_iff (s : FrameSection) : AllOrNothing s ↔ ¬Fragile s := by
  constructor
  · intro all fragile
    obtain ⟨fuel,rounds,text,w0,w',stop,empty,rules,raised,run,there⟩ := fragile.raises
    have same : startOver w0 = w0 := by rw [startOver,← rules]
    have build : ensureIndex s fuel rounds text w0 = .error stop w' := by
      rw [ensureIndex_build (by rw [empty]; rfl),same,run]
    rw [all.none_left empty build raised] at there
    cases there
  · intro robust finished w reaches fuel rounds text w' run
    have returns : Returns (ensureIndex s fuel rounds text w) := by
      rw [run]
      trivial
    have sound := (reaches.sound robust).step robust returns
    rw [run] at sound
    rcases reaches.sound robust with empty | ⟨done,complete,there⟩
    · refine ⟨.inr ⟨by rw [empty]; rfl,w',run⟩,?_⟩
      rw [ensureIndex_build (by rw [empty]; rfl)] at run
      exact (createSearchIndex_complete (w := startOver w) empty rfl run).1
    · rw [ensureIndex_built there] at run
      cases run
      exact ⟨.inl done,complete⟩

/-- A CIE, FDEs for 0x2000 and 0x1000, and an entry with an invalid length -/
def halfSection : FrameSection where
  data := [9,0,0,0,0xff,0xff,0xff,0xff,1,0,1,1,0,
    20,0,0,0,0,0,0,0,0,0x20,0,0,0,0,0,0,0x10,0,0,0,0,0,0,0,
    20,0,0,0,0,0,0,0,0,0x10,0,0,0,0,0,0,0x10,0,0,0,0,0,0,0,
    0xf0,0,0,0]
  addr := 0
  alignment := 1
  ehFrame := false
  elf64 := true
  bigEndian := false
  machine := .x8664
  sections := []
  relocate := fun _ _ value => some (value,none)

def startWorld : World := ⟨⟨0,[]⟩,startRules,noRegisters,noRegisters,[],unbuilt⟩

def answer {α : Type} : EStateM.Result Stop World α → Except Stop α
  | .ok a _ => .ok a
  | .error stop _ => .error stop

theorem answer_error {α : Type} {result : EStateM.Result Stop World α} {stop : Stop} (same : answer result = .error stop) :
    result = .error stop (leftWorld result) := by
  cases result with
  | ok a w => cases same
  | error stop' w =>
    cases same
    rfl

/-- The world behind a first build -/
def halfWorld : World := leftWorld (ensureIndex halfSection 9 9 none startWorld)

theorem half_build : answer (ensureIndex halfSection 9 9 none startWorld) = .error (.failure (.invDwarf "Invalid length in FDE")) ∧
    published halfWorld = true := by decide +kernel

/-- The next lookup searches what the first one has left, and does not find the FDE of the address. -/
theorem half_index_searched : ¬AllOrNothing halfSection ∧ answer (readFrameInfoSection halfSection 9 9 none 0x2005 halfWorld) = .ok none := by
  refine ⟨fun all => ?_,by decide +kernel⟩
  have nothing := all.none_left rfl (answer_error half_build.1) rfl
  rw [← halfWorld,half_build.2] at nothing
  cases nothing

end AllOrNothing

end Tcf.Frames
