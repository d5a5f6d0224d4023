import Mathlib.Data.List.Basic

/-! The memory map of a target in the cache of the proxy, and the copies that are made of it. -/
namespace Tcf.ProxyMemoryMap

abbrev Text := List UInt8

structure Attribute (σ : Type) where
  node : σ
  name : σ
  value : σ
  deriving DecidableEq, Repr

/-- Strings are pointers, or what these point to. -/
structure MemoryRegion (σ : Type) where
  addr : UInt64
  size : UInt64
  fileOffs : UInt64
  fileSize : UInt64
  bss : Int
  dev : Nat
  ino : Nat
  fileName : Option σ
  sectName : Option σ
  flags : UInt32
  query : Option σ
  id : Option σ
  attrs : List (Attribute σ)
  channel : Option Nat
  deriving DecidableEq, Repr

namespace MemoryRegion

def map (f : σ → τ) (r : MemoryRegion σ) : MemoryRegion τ where
  addr := r.addr
  size := r.size
  fileOffs := r.fileOffs
  fileSize := r.fileSize
  bss := r.bss
  dev := r.dev
  ino := r.ino
  fileName := r.fileName.map f
  sectName := r.sectName.map f
  flags := r.flags
  query := r.query.map f
  id := r.id.map f
  attrs := r.attrs.map fun x => ⟨f x.node,f x.name,f x.value⟩
  channel := r.channel

/-- A region of zeros. -/
def blank : MemoryRegion σ := ⟨0,0,0,0,0,0,0,none,none,0,none,none,[],none⟩

/-- The blocks that belong to a region. -/
def blocks (r : MemoryRegion σ) : List σ :=
  r.fileName.toList ++ r.sectName.toList ++ r.query.toList ++ r.id.toList ++ r.attrs.flatMap fun x => [x.node,x.name,x.value]

@[simp] theorem map_blank (f : σ → τ) : (blank : MemoryRegion σ).map f = blank := rfl
@[simp] theorem blocks_blank : (blank : MemoryRegion σ).blocks = [] := rfl

/-- Nothing else looks like a region of zeros. -/
theorem map_eq_blank {f : σ → τ} {r : MemoryRegion σ} (same : r.map f = blank) : r = blank := by
  obtain ⟨addr,size,fileOffs,fileSize,bss,dev,ino,fileName,sectName,flags,query,id,attrs,channel⟩ := r
  simpa [map,blank] using same

end MemoryRegion

/-- Allocated blocks and what they hold. -/
structure Heap where
  block : Nat → Option Text
  next : Nat

namespace Heap

def alloc (h : Heap) (text : Option Text) : Heap × Nat :=
  ({ block := fun p => if p = h.next then text else h.block p, next := h.next + 1 },h.next)

def strdup (h : Heap) (p : Nat) : Heap × Nat := h.alloc (h.block p)

def free (h : Heap) (ps : List Nat) : Heap := { h with block := fun p => if p ∈ ps then none else h.block p }

end Heap

/-- `if (x->s) y->s = loc_strdup(x->s)` -/
def dupText (h : Heap) (x y : Option Nat) : Heap × Option Nat :=
  match x with
  | none => (h,y)
  | some p => ((h.strdup p).1,some (h.strdup p).2)

def dupAttrs (h : Heap) : List (Attribute Nat) → Heap × List (Attribute Nat)
  | [] => (h,[])
  | ax :: rest =>
    let (h,node) := h.alloc (some [])
    let (h,name) := h.strdup ax.name
    let (h,value) := h.strdup ax.value
    let (h,others) := dupAttrs h rest
    (h,⟨node,name,value⟩ :: others)

/-- Strings of `x` are duplicated for `y`. -/
def dupRegion (h : Heap) (x y : MemoryRegion Nat) : Heap × MemoryRegion Nat :=
  let (h,fileName) := dupText h x.fileName y.fileName
  let (h,sectName) := dupText h x.sectName y.sectName
  let (h,query) := dupText h x.query y.query
  let (h,id) := dupText h x.id y.id
  let (h,attrs) := if x.attrs = [] then (h,y.attrs) else dupAttrs h x.attrs
  (h,{ y with fileName, sectName, query, id, attrs })

def dupRegions (h : Heap) : List (MemoryRegion Nat) → List (MemoryRegion Nat) → Heap × List (MemoryRegion Nat)
  | x :: xs, y :: ys =>
    let (h,y) := dupRegion h x y
    let (h,ys) := dupRegions h xs ys
    (h,y :: ys)
  | _, ys => (h,ys)

/-- `cache` is `target_map`; `copies` are the maps of clients. -/
structure State where
  heap : Heap
  cache : List (MemoryRegion Nat)
  copies : List (List (MemoryRegion Nat))

inductive Call where
  | contextGetMemoryMap
  | memoryMapGet
  | clear (copy : Nat)
  deriving DecidableEq, Repr

namespace State

/-- `context_get_memory_map`, when the map is in the cache. -/
def contextGetMemoryMap (s : State) : State × List (MemoryRegion Nat) :=
  -- the block copy, and `memset` of what has been copied
  let cache := s.cache.map fun _ => MemoryRegion.blank
  let (heap,regions) := dupRegions s.heap cache s.cache
  ({ heap, cache, copies := s.copies ++ [regions] },regions)

/-- `context_clear_memory_map` of a copy. -/
def clearCopy (s : State) (copy : Nat) : State :=
  { s with
    heap := s.heap.free (((s.copies[copy]?).getD []).flatMap MemoryRegion.blocks)
    copies := s.copies.set copy [] }

/-- A map as its reader sees it; a string may be gone. -/
def view (s : State) (regions : List (MemoryRegion Nat)) : List (MemoryRegion (Option Text)) :=
  regions.map fun r => r.map s.heap.block

def step (s : State) : Call → State × Option (List (MemoryRegion (Option Text)))
  | .contextGetMemoryMap => (s.contextGetMemoryMap.1,some (s.contextGetMemoryMap.1.view s.contextGetMemoryMap.2))
  | .memoryMapGet => (s,some (s.view s.cache))
  | .clear copy => (s.clearCopy copy,none)

def after (s : State) (calls : List Call) : State := calls.foldl (fun s call => (s.step call).1) s

def answers (s : State) : List Call → List (List (MemoryRegion (Option Text)))
  | [] => []
  | call :: rest => (s.step call).2.toList ++ (s.step call).1.answers rest

end State

def Call.reads : Call → Bool
  | .clear _ => false
  | _ => true

/-- The regions of a map, all strings there. -/
def received (map : List (MemoryRegion Text)) : List (MemoryRegion (Option Text)) := map.map fun r => r.map some

/-- No copy has a block of the cache. -/
def Apart (s : State) : Prop :=
  ∀ copy ∈ s.copies, ∀ r ∈ copy, ∀ p ∈ r.blocks, ∀ r' ∈ s.cache, p ∉ r'.blocks

section Runs

variable {s : State} {n : Nat} {map : List (MemoryRegion Text)}

theorem dupRegion_blank (h : Heap) (y : MemoryRegion Nat) : dupRegion h .blank y = (h,y) := rfl

/-- The strings to be duplicated are already gone from the cache. -/
theorem dupRegions_blank (h : Heap) (ys : List (MemoryRegion Nat)) : dupRegions h (ys.map fun _ => .blank) ys = (h,ys) := by
  induction ys with
  | nil => rfl
  | cons y ys ih => simp only [List.map_cons,dupRegions,dupRegion_blank,ih]

theorem contextGetMemoryMap_eq (s : State) :
    s.contextGetMemoryMap = ({ s with cache := s.cache.map fun _ => .blank, copies := s.copies ++ [s.cache] },s.cache) := by
  simp only [State.contextGetMemoryMap,dupRegions_blank]

/-- Nothing is left in the cache but zeros. -/
def Blanked (n : Nat) (s : State) : Prop := s.cache = List.replicate n .blank

theorem copied_blanked (s : State) : Blanked s.cache.length (s.step .contextGetMemoryMap).1 := by
  simp only [State.step,contextGetMemoryMap_eq,Blanked,List.map_const']

theorem step_length (s : State) (call : Call) : (s.step call).1.cache.length = s.cache.length := by
  cases call with
  | contextGetMemoryMap => simp only [State.step,contextGetMemoryMap_eq,List.length_map]
  | memoryMapGet => rfl
  | clear copy => rfl

theorem Blanked.step (blanked : Blanked n s) (call : Call) : Blanked n (s.step call).1 := by
  cases call with
  | contextGetMemoryMap =>
    have again := copied_blanked s
    rwa [blanked,List.length_replicate] at again
  | memoryMapGet => exact blanked
  | clear copy => exact blanked

theorem Blanked.answer (blanked : Blanked n s) {call : Call} {answer : List (MemoryRegion (Option Text))}
    (answered : (s.step call).2 = some answer) : answer = List.replicate n .blank := by
  cases call with
  | contextGetMemoryMap =>
    simp only [State.step,contextGetMemoryMap_eq,Option.some.injEq] at answered
    rw [← answered,blanked,State.view,List.map_replicate,MemoryRegion.map_blank]
  | memoryMapGet =>
    simp only [State.step,Option.some.injEq] at answered
    rw [← answered,blanked,State.view,List.map_replicate,MemoryRegion.map_blank]
  | clear copy => cases answered

theorem Blanked.answers (blanked : Blanked n s) (calls : List Call) :
    ∀ answer ∈ s.answers calls, answer = List.replicate n .blank := by
  induction calls generalizing s with
  | nil => exact fun _ member => absurd member List.not_mem_nil
  | cons call rest ih =>
    intro answer member
    rcases List.mem_append.mp member with head | tail
    · exact blanked.answer (Option.mem_toList.mp head)
    · exact ih (blanked.step call) answer tail

/-- A call that reads is answered. -/
theorem answers_reads {call : Call} {calls : List Call} (member : call ∈ calls) (reads : call.reads = true) :
    ∃ answer, answer ∈ s.answers calls := by
  induction calls generalizing s with
  | nil => cases member
  | cons first rest ih =>
    rcases List.mem_cons.mp member with rfl | later
    · cases call with
      | clear copy => cases reads
      | contextGetMemoryMap => exact ⟨_,List.mem_append_left _ (Option.mem_toList.mpr rfl)⟩
      | memoryMapGet => exact ⟨_,List.mem_append_left _ (Option.mem_toList.mpr rfl)⟩
    · obtain ⟨answer,found⟩ := ih (s := (s.step first).1) later
      exact ⟨answer,List.mem_append_right _ found⟩

theorem answers_append (before rest : List Call) : s.answers (before ++ rest) = s.answers before ++ (s.after before).answers rest := by
  induction before generalizing s with
  | nil => rfl
  | cons call before ih => simp only [List.cons_append,State.answers,ih,List.append_assoc,State.after,List.foldl_cons]

theorem after_length (s : State) (calls : List Call) : (s.after calls).cache.length = s.cache.length := by
  induction calls generalizing s with
  | nil => rfl
  | cons call rest ih => exact (ih (s.step call).1).trans (step_length s call)

/-- Before the first copy there is nothing to clear. -/
theorem step_quiet (none_ : s.copies = []) {call : Call} (other : call ≠ .contextGetMemoryMap) : (s.step call).1 = s := by
  cases call with
  | contextGetMemoryMap => exact absurd rfl other
  | memoryMapGet => rfl
  | clear copy =>
    obtain ⟨⟨block,next⟩,cache,copies⟩ := s
    cases none_
    simp [State.step,State.clearCopy,Heap.free]

/-- Either no copy has been made, or nothing is left in the cache. -/
theorem step_apart {call : Call} (holds : s.copies = [] ∨ Blanked n s) (length : s.cache.length = n) :
    (s.step call).1.copies = [] ∨ Blanked n (s.step call).1 := by
  rcases holds with none_ | blanked
  · by_cases copy : call = .contextGetMemoryMap
    · subst copy
      exact .inr (length ▸ copied_blanked s)
    · rw [step_quiet none_ copy]
      exact .inl none_
  · exact .inr (blanked.step call)

theorem after_apart (none_ : s.copies = []) (calls : List Call) : Apart (s.after calls) := by
  have run : ∀ (calls : List Call) (now : State), now.cache.length = s.cache.length →
      (now.copies = [] ∨ Blanked s.cache.length now) → (now.after calls).copies = [] ∨ Blanked s.cache.length (now.after calls) := by
    intro calls
    induction calls with
    | nil => exact fun _ _ holds => holds
    | cons call rest ih => exact fun now length holds => ih _ ((step_length now call).trans length) (step_apart holds length)
  intro copy member r _ p _ r' cached
  rcases run calls s rfl (.inl none_) with empty | blanked
  · rw [empty] at member
    cases member
  · rw [blanked] at cached
    rw [(List.mem_replicate.mp cached).2]
    exact List.not_mem_nil

/-- By induction on the calls, of which the first that copies is the last that reads. -/
theorem answers_received (none_ : s.copies = []) (cached : s.view s.cache = received map) {calls : List Call}
    (last : ∀ before rest, calls = before ++ .contextGetMemoryMap :: rest → ∀ call ∈ rest, call.reads = false) :
    ∀ answer ∈ s.answers calls, answer = received map := by
  induction calls with
  | nil => exact fun _ member => absurd member List.not_mem_nil
  | cons call rest ih =>
    intro answer member
    by_cases copy : call = .contextGetMemoryMap
    · subst copy
      rcases List.mem_append.mp member with head | tail
      · simp only [State.step,contextGetMemoryMap_eq,Option.toList_some,List.mem_singleton] at head
        rw [head,← cached]
        rfl
      · exfalso
        have silent : ∀ (rest : List Call) (now : State), (∀ call ∈ rest, call.reads = false) → now.answers rest = [] := by
          intro rest
          induction rest with
          | nil => exact fun _ _ => rfl
          | cons call rest ih =>
            intro now quiet
            cases call with
            | clear copy => exact ih _ fun call member => quiet call (List.mem_cons_of_mem _ member)
            | contextGetMemoryMap => cases quiet _ List.mem_cons_self
            | memoryMapGet => cases quiet _ List.mem_cons_self
        rw [silent rest _ (last [] rest rfl)] at tail
        cases tail
    · have later := ih fun before others split => last (call :: before) others (by rw [split]; rfl)
      rcases List.mem_append.mp member with head | tail
      · cases call with
        | contextGetMemoryMap => exact absurd rfl copy
        | memoryMapGet =>
          simp only [State.step,Option.toList_some,List.mem_singleton] at head
          rw [head,cached]
        | clear copy => cases head
      · rw [step_quiet none_ copy] at tail
        exact later answer tail

theorem received_blank (blank : ∀ r ∈ map, r = .blank) : received map = List.replicate map.length .blank := by
  rw [List.eq_replicate_of_mem blank]
  simp only [received,List.map_replicate,MemoryRegion.map_blank,List.length_replicate]

end Runs

/-- In every run every call returns the map that was received, and no copy shares a block with the cache, exactly if the
map has nothing but zeros or no call reads it after the first that copies it. -/
theorem reads_agree_iff (s : State) (map : List (MemoryRegion Text)) (none_ : s.copies = []) (cached : s.view s.cache = received map)
    (calls : List Call) :
    ((∀ answer ∈ s.answers calls, answer = received map) ∧ ∀ before, before <+: calls → Apart (s.after before)) ↔
      (∀ r ∈ map, r = .blank) ∨
        ∀ before rest, calls = before ++ .contextGetMemoryMap :: rest → ∀ call ∈ rest, call.reads = false := by
  have length : s.cache.length = map.length := by
    simpa [State.view,received] using congrArg List.length cached
  constructor
  · rintro ⟨agree,-⟩
    by_contra neither
    obtain ⟨other,broken⟩ := not_or.mp neither
    apply other
    simp only [not_forall,Bool.not_eq_false] at broken
    obtain ⟨before,rest,split,call,member,reads⟩ := broken
    have blanked := copied_blanked (s.after before)
    rw [after_length,length] at blanked
    obtain ⟨answer,answered⟩ := answers_reads (s := ((s.after before).step .contextGetMemoryMap).1) member reads
    have zeros := blanked.answers rest answer answered
    have whole := agree answer (by
      rw [split,answers_append]
      exact List.mem_append_right _ (List.mem_append_right _ answered))
    intro r inside
    apply MemoryRegion.map_eq_blank (f := some)
    have mapped : r.map some ∈ received map := List.mem_map_of_mem inside
    rw [← whole,zeros] at mapped
    exact (List.mem_replicate.mp mapped).2
  · intro condition
    refine ⟨?_,fun before _ => after_apart none_ before⟩
    rcases condition with blank | last
    · have zeros : Blanked map.length s := by
        rw [received_blank blank] at cached
        apply List.eq_replicate_iff.mpr ⟨length,_⟩
        intro r member
        apply MemoryRegion.map_eq_blank (f := s.heap.block)
        have viewed : r.map s.heap.block ∈ s.view s.cache := List.mem_map_of_mem member
        rw [cached] at viewed
        exact (List.mem_replicate.mp viewed).2
      rw [received_blank blank]
      exact zeros.answers calls
    · exact answers_received none_ cached last

section Examples

/-- One region of a file, whose name is in block 1. -/
def exampleState : State := ⟨⟨fun p => if p = 1 then some [0x66] else none,2⟩,
  [{ (.blank : MemoryRegion Nat) with size := 16, fileName := some 1 }],[]⟩

def exampleMap : List (MemoryRegion Text) := [{ (.blank : MemoryRegion Text) with size := 16, fileName := some [0x66] }]

def exampleCalls : List Call := [.memoryMapGet,.contextGetMemoryMap]

theorem reads_agree_once :
    ((∀ answer ∈ exampleState.answers exampleCalls, answer = received exampleMap) ∧
      ∀ before, before <+: exampleCalls → Apart (exampleState.after before)) ↔
      (∀ r ∈ exampleMap, r = .blank) ∨ ∀ before rest, exampleCalls = before ++ .contextGetMemoryMap :: rest →
        ∀ call ∈ rest, call.reads = false :=
  reads_agree_iff exampleState exampleMap rfl (by decide) exampleCalls

/-- The second copy has no size and no file. -/
theorem second_copy_blank :
    exampleState.answers [.contextGetMemoryMap,.contextGetMemoryMap] = [received exampleMap,[.blank]] ∧ received exampleMap ≠ [.blank] := by
  decide

end Examples

end Tcf.ProxyMemoryMap
