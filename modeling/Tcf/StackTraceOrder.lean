import Tcf.StackTraceRetries
import Mathlib.Logic.Relation

/-! Traces of one stack without cache misses, to some depths one after another: the frames are those of a single trace. -/
namespace Tcf.StackTrace

variable {t : Target} {m : Misses} {s s' a b : Stack} {frame down : StackFrame} {i n : Nat}

section Contents

/-- What `read_reg_bytes` sees of the frames. -/
def contents (s : Stack) : List (Bool × Option RegisterData) := s.frames.map fun f => (f.isTopFrame,f.regs)

theorem contents_length (s : Stack) : (contents s).length = s.frames.length := List.length_map _

theorem contents_setFrame {new : StackFrame} (here : s.frames[i]? = some frame) (top : new.isTopFrame = frame.isTopFrame)
    (regs : new.regs = frame.regs) : contents (s.setFrame i new) = contents s := by
  unfold contents Stack.setFrame
  rw [List.map_set]
  apply List.ext_getElem?
  intro j
  by_cases at_ : i = j
  · subst at_
    have inside := (List.getElem?_eq_some_iff.mp here).1
    rw [List.getElem?_set_self (by rwa [List.length_map]),List.getElem?_map,here,Option.map_some,top,regs]
  · rw [List.getElem?_set_ne at_]

theorem prefix_setFrame {new : StackFrame} (grown : contents s <+: contents s') (here : s'.frames[i]? = some frame)
    (top : new.isTopFrame = frame.isTopFrame) (regs : new.regs = frame.regs) : contents s <+: contents (s'.setFrame i new) := by
  rwa [contents_setFrame here top regs]

theorem contents_addFrame (s : Stack) (down : StackFrame) : contents s <+: contents (addFrame s down) := by
  unfold contents addFrame
  rw [List.map_append]
  exact List.prefix_append _ _

theorem inlineFrames_contents (t : Target) (m : Misses) (fp : Address) (subs : List InlinedSubroutine) (s : Stack) :
    contents s <+: contents (inlineFrames t m fp subs s) := by
  induction subs generalizing s with
  | nil => exact List.prefix_rfl
  | cons sub rest ih =>
    unfold inlineFrames
    split
    · exact List.prefix_rfl
    · rename_i prev last
      have named : contents s <+: contents (s.setFrame (s.frames.length - 1) { prev with funcId := some sub.funcId }) :=
        prefix_setFrame List.prefix_rfl last rfl rfl
      refine List.IsPrefix.trans ?_ (ih _)
      refine List.IsPrefix.trans ?_ (contents_addFrame _ _)
      exact named

theorem walkFrame_contents (t : Target) (m : Misses) (info : StackTracingInfo) (here : s.frames[i]? = some frame) :
    contents s <+: contents (walkFrame t m s i frame info).1 := by
  unfold walkFrame
  split
  · exact prefix_setFrame List.prefix_rfl here rfl rfl
  · split
    · rename_i fp _
      have grown : contents s <+: contents (if info.subs = [] then s.setFrame i { frame with fp }
          else inlineFrames t m fp info.subs.reverse (s.setFrame i { frame with fp, inlined := info.subs.length })) := by
        split
        · exact prefix_setFrame List.prefix_rfl here rfl rfl
        · exact (prefix_setFrame List.prefix_rfl here (by rfl) (by rfl)).trans (inlineFrames_contents ..)
      generalize (if info.subs = [] then s.setFrame i { frame with fp }
          else inlineFrames t m fp info.subs.reverse (s.setFrame i { frame with fp, inlined := info.subs.length })) = next at grown
      simp only
      split
      · exact grown
      · rename_i frame' got
        split
        · exact prefix_setFrame grown got rfl rfl
        · exact prefix_setFrame grown got rfl rfl
    · exact prefix_setFrame List.prefix_rfl here rfl rfl

theorem getNextStackFrame_contents (t : Target) (m : Misses) (here : s.frames[i]? = some frame) :
    contents s <+: contents (getNextStackFrame t m s i frame).1 := by
  unfold getNextStackFrame
  split
  · exact List.prefix_rfl
  · split
    · exact List.prefix_rfl
    · split
      · exact List.prefix_rfl
      · exact List.prefix_rfl
      · exact walkFrame_contents t m _ here

theorem appendFrame_contents (t : Target) (m : Misses) (s : Stack) (frame down : StackFrame) :
    contents s <+: contents (appendFrame t m s frame down).1 := by
  unfold appendFrame
  split
  · exact List.prefix_rfl
  · split
    · simp only
      split
      · exact List.prefix_rfl
      · exact contents_addFrame _ _
    · exact contents_addFrame _ _

/-- A turn leaves the frames as they are, and may add others. -/
theorem traceFrame_contents (t : Target) (m : Misses) (s : Stack) : contents s <+: contents (traceFrame t m s).1 := by
  unfold traceFrame
  simp only
  split
  · exact List.prefix_rfl
  · rename_i frame here
    have grown := getNextStackFrame_contents t m here
    generalize getNextStackFrame t m s (s.frames.length - 1) frame = next at grown
    obtain ⟨s₁,down,ok⟩ := next
    simp only at grown ⊢
    split
    · exact grown
    · split
      · exact grown
      · rename_i frame' got
        split
        · exact grown.trans (appendFrame_contents ..)
        · generalize crawlStackFrame t m (s.frames.length - 1) frame' = crawl
          obtain ⟨crawled,missed⟩ := crawl
          simp only
          split
          · split
            · exact grown
            · exact grown
          · refine List.IsPrefix.trans ?_ (appendFrame_contents ..)
            exact prefix_setFrame grown got rfl rfl

end Contents

section Order

/-- One turn of a trace without misses; the first one adds the top frame. -/
def Turn (t : Target) (a b : Stack) : Prop :=
  a.complete = false ∧ a.missed = false ∧ b = if a.frames = [] then start a else (traceFrame t .none a).1

theorem Turn.unique (t : Target) : Relator.RightUnique (Turn t) := fun _ _ _ first second => first.2.2.trans second.2.2.symm

theorem Turn.contents (turn : Turn t a b) : contents a <+: contents b := by
  obtain ⟨-,-,rfl⟩ := turn
  split
  · rename_i empty
    unfold StackTrace.contents
    rw [empty]
    exact List.nil_prefix
  · exact traceFrame_contents ..

/-- Turns one after another. -/
abbrev Traced (t : Target) : Stack → Stack → Prop := Relation.ReflTransGen (Turn t)

theorem Traced.contents (traced : Traced t a b) : contents a <+: contents b := by
  induction traced with
  | refl => exact List.prefix_rfl
  | tail _ turn ih => exact ih.trans turn.contents

theorem Traced.of_complete (traced : Traced t a b) (complete : a.complete = true) : b = a := by
  rcases Relation.ReflTransGen.cases_head traced with same | ⟨c,turn,-⟩
  · exact same.symm
  · rw [turn.1] at complete
    cases complete

/-- A trace that has some frames, or all there are. -/
def Settled (n : Nat) (s : Stack) : Prop := s.complete = true ∨ n ≤ s.frames.length

/-- Traces of one stack that have a frame, or all there are, agree on it. -/
theorem settled_contents (first : Traced t s a) (second : Traced t s b) (settled : Settled n a) (settled' : Settled n b) (less : i < n) :
    (contents a)[i]? = (contents b)[i]? := by
  have ordered : ∀ {a b : Stack}, Traced t a b → Settled n a → (contents a)[i]? = (contents b)[i]? := by
    intro a b traced settled
    rcases settled with complete | long
    · rw [traced.of_complete complete]
    · obtain ⟨more,eq⟩ := traced.contents
      have inside : i < (contents a).length := by
        rw [contents_length]
        exact Nat.lt_of_lt_of_le less long
      rw [← eq,List.getElem?_append_left inside]
  rcases Relation.ReflTransGen.total_of_right_unique (Turn.unique t) first second with onward | back
  · exact ordered onward settled
  · exact (ordered back settled').symm

theorem traceFrames_traced {maxFrames : Nat} (nonempty : s.frames ≠ []) (missed : s.missed = false) (incomplete : s.complete = false) :
    Traced t s (traceFrames t .none maxFrames n s) := by
  induction n generalizing s with
  | zero => exact .refl
  | succ n ih =>
    by_cases lt : s.frames.length < maxFrames
    · have turn : Turn t s (traceFrame t .none s).1 := ⟨incomplete,missed,(if_neg nonempty).symm⟩
      obtain ⟨still,-⟩ := traceFrame_none (t := t) nonempty missed
      rw [traceFrames_step lt]
      split
      · rename_i goes
        obtain ⟨grown,-,next⟩ := traceFrame_grown nonempty goes
        exact .head turn (ih next.nonempty still (grown.complete.trans incomplete))
      · exact .single turn
    · rw [traceFrames_done (not_lt.mp lt)]

theorem start_nonempty (s : Stack) : (start s).frames ≠ [] := by
  unfold start
  split
  · exact List.append_ne_nil_of_right_ne_nil _ (List.cons_ne_nil _ _)
  · assumption

/-- `create_stack_trace` makes turns until there are enough frames, and one more. -/
theorem createStackTrace_traced (missed : s.missed = false) (maxFrames : Nat) :
    Traced t s (createStackTrace t .none maxFrames s).1 ∧ Settled (maxFrames + 1) (createStackTrace t .none maxFrames s).1 ∧
      (createStackTrace t .none maxFrames s).1.missed = false := by
  have self : { s with missed := false } = s := by rw [← missed]
  by_cases wants : s.complete = false ∧ s.frames.length < maxFrames + 1
  · obtain ⟨complete,still⟩ := start_fields s
    have final := traceFrames_final (t := t) (start_nonempty s) (still.trans missed) (Nat.le_add_left (maxFrames + 1) _)
    have traced : Traced t (start s) (traceFrames t .none (maxFrames + 1) (maxFrames + 1) (start s)) :=
      traceFrames_traced (start_nonempty s) (still.trans missed) (complete.trans wants.1)
    rw [createStackTrace_run wants,self]
    refine ⟨?_,final.2,final.1⟩
    by_cases empty : s.frames = []
    · exact .head ⟨wants.1,missed,(if_pos empty).symm⟩ traced
    · have same : start s = s := if_neg empty
      rwa [same] at traced ⊢
  · rw [createStackTrace_done wants,self]
    refine ⟨.refl,?_,missed⟩
    by_cases complete : s.complete = true
    · exact Or.inl complete
    · exact Or.inr (Nat.le_of_not_lt fun short => wants ⟨Bool.eq_false_iff.mpr complete,short⟩)

end Order

end Tcf.StackTrace
