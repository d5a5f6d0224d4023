import Tcf.ProfilerSst
import Mathlib.Data.List.Count
import Mathlib.Algebra.Order.BigOperators.Group.List

/-! Samples are conserved: each is counted once, or in flight, and what a read writes tells the counts. -/
namespace Tcf.ProfilerSst

open Buckets

variable {prf : ProfilerSST}

def ProfilerSample.key (s : ProfilerSample) : Key := (s.pc,s.frames)

def framesOf (stk : Option SampleStackTrace) : List Address := (stk.map SampleStackTrace.pc).getD []

def keys (prf : ProfilerSST) : List Key := prf.counted.map Prod.snd

/-- Numbers in the data of a profiler. -/
def numbers (prf : ProfilerSST) : Nat :=
  ((entries psampleHashSize prf.psampleHash).map fun s => 3 + s.frames.length).sum

/-- Stack traces are in the buckets of their contents, once. -/
structure Traces (prf : ProfilerSST) : Prop where
  placed : Placed straceIndex SampleStackTrace.pc prf.straceHash
  same : ∀ g h, ∀ a ∈ prf.straceHash g, ∀ b ∈ prf.straceHash h, a.address = b.address → a = b
  old : ∀ h, ∀ a ∈ prf.straceHash h, a.address < prf.allocated ∧ a.pc ≠ []

/-- What a sample refers to is there. -/
def Refers (prf : ProfilerSST) (stk : Option SampleStackTrace) : Prop := ∀ a ∈ stk, a ∈ prf.straceHash (straceIndex a.pc)

/-- The arrays of samples tell how often each key was counted, as far as 32 bits go. -/
structure Tallies (prf : ProfilerSST) : Prop where
  placed : Placed (fun key : Key => psampleIndex key.1) ProfilerSample.key prf.psampleHash
  refers : ∀ h, ∀ s ∈ prf.psampleHash h, Refers prf s.stk
  counts : ∀ h, ∀ s ∈ prf.psampleHash h, s.cnt = (keys prf).count s.key % 2^32
  counted : ∀ k ∈ keys prf, ∃ s ∈ prf.psampleHash (psampleIndex k.1), s.key = k
  listed : ∀ h, ∀ s ∈ prf.psampleHash h, s.key ∈ keys prf
  total : prf.psampleCnt = numbers prf % 2^32

variable {pc : Address} {stk : Option SampleStackTrace} {s : ProfilerSample}

/-- A key of the profiler, by address or by contents. -/
theorem same_iff (traces : Traces prf)
    (one : Refers prf s.stk) (two : Refers prf stk) : SameSample pc stk s ↔ s.key = (pc,framesOf stk) := by
  obtain ⟨pc',stk',cnt⟩ := s
  simp only [SameSample,ProfilerSample.key,ProfilerSample.frames,framesOf,Prod.mk.injEq]
  refine and_congr_right fun _ => ?_
  rcases stk' with _ | a <;> rcases stk with _ | b
  · simp
  · have some_ := (traces.old _ b (two b rfl)).2
    simp [Ne.symm some_]
  · have some_ := (traces.old _ a (one a rfl)).2
    simp [some_]
  · simp only [Option.map_some,Option.some.injEq,Option.getD_some]
    constructor
    · exact fun address => congrArg SampleStackTrace.pc (traces.same _ _ a (one a rfl) b (two b rfl) address)
    · exact fun contents => congrArg SampleStackTrace.address (traces.placed.unique (one a rfl) (two b rfl) contents)

/-- A stack trace is found, or made. -/
theorem findStackTrace_spec (traces : Traces prf) (buf : List Address) :
    ∃ straceHash allocated stk, findStackTrace prf buf = ({ prf with straceHash, allocated },stk) ∧ framesOf stk = buf ∧
      Traces { prf with straceHash, allocated } ∧ Refers { prf with straceHash, allocated } stk ∧
      ∀ h, ∀ a ∈ prf.straceHash h, a ∈ straceHash h := by
  by_cases empty : buf = []
  · exact ⟨prf.straceHash,prf.allocated,none,by simp [findStackTrace,empty],empty.symm,traces,nofun,fun _ _ => id⟩
  cases found : (prf.straceHash (straceIndex buf)).find? fun stk => stk.pc = buf with
  | some stk =>
    have inside := List.mem_of_find?_eq_some found
    have contents : stk.pc = buf := by simpa using List.find?_some found
    refine ⟨prf.straceHash,prf.allocated,some stk,by simp [findStackTrace,empty,found],contents,traces,?_,fun _ _ => id⟩
    rintro _ ⟨⟩
    exact contents ▸ inside
  | none =>
    let stk : SampleStackTrace := ⟨prf.allocated,buf⟩
    let table := Function.update prf.straceHash (straceIndex buf) (stk :: prf.straceHash (straceIndex buf))
    have new : ∀ b ∈ prf.straceHash (straceIndex stk.pc), b.pc ≠ stk.pc := fun b inside => by
      simpa using List.find?_eq_none.mp found b inside
    have keeps : ∀ h, ∀ a ∈ prf.straceHash h, a ∈ table h := fun h a inside => by
      by_cases here : h = straceIndex buf
      · subst here
        simp [table,inside]
      · simpa [table,here] using inside
    have cases_ : ∀ h, ∀ a ∈ table h, a = stk ∨ a ∈ prf.straceHash h := fun h a inside => by
      by_cases here : h = straceIndex buf
      · subst here
        simpa [table] using inside
      · exact .inr (by simpa [table,here] using inside)
    refine ⟨table,prf.allocated + 1,some stk,by simp [findStackTrace,empty,found,table,stk],rfl,⟨?_,?_,?_⟩,?_,keeps⟩
    · exact traces.placed.add new (.refl _)
    · intro g h a first b second address
      rcases cases_ g a first with rfl | first <;> rcases cases_ h b second with rfl | second
      · rfl
      · exact absurd address.symm (traces.old h b second).1.ne
      · exact absurd address (traces.old g a first).1.ne
      · exact traces.same g h a first b second address
    · intro h a inside
      rcases cases_ h a inside with rfl | inside
      · exact ⟨Nat.lt_succ_self _,empty⟩
      · exact ⟨Nat.lt_succ_of_lt (traces.old h a inside).1,(traces.old h a inside).2⟩
    · rintro _ ⟨⟩
      simp [table,stk]

theorem countSample_some {a a' : List ProfilerSample}
    (found : countSample pc stk a = some a') : ∃ before s after, a = before ++ s :: after ∧ SameSample pc stk s ∧
      a' = before ++ { s with cnt := (s.cnt + 1) % 2^32 } :: after := by
  induction a generalizing a' with
  | nil => cases found
  | cons s rest ih =>
    simp only [countSample] at found
    split at found
    · next same =>
      cases found
      exact ⟨[],s,rest,rfl,same,rfl⟩
    · obtain ⟨rest',later,rfl⟩ := Option.map_eq_some_iff.mp found
      obtain ⟨before,other,after,rfl,same,rfl⟩ := ih later
      exact ⟨s :: before,other,after,rfl,same,rfl⟩

theorem countSample_none {a : List ProfilerSample}
    (missing : countSample pc stk a = none) : ∀ s ∈ a, ¬SameSample pc stk s := by
  induction a with
  | nil => nofun
  | cons s rest ih =>
    simp only [countSample] at missing
    split at missing
    · cases missing
    · next other => exact List.forall_mem_cons.mpr ⟨other,ih (Option.map_eq_none_iff.mp missing)⟩

theorem psampleIndex_less (pc : Address) : psampleIndex pc < psampleHashSize := Nat.mod_lt _ (by decide)

/-- One sample of a key more: its entry is new or changed, and all others stay. -/
theorem Tallies.count (tallies : Tallies prf) {table : Nat → List ProfilerSample} {psampleCnt : Nat} (f : Flight)
    (placed : Placed (fun key : Key => psampleIndex key.1) ProfilerSample.key table) (here : s ∈ table (psampleIndex s.pc))
    (refers : Refers prf s.stk) (cnt : s.cnt = ((keys prf).count s.key + 1) % 2^32)
    (others : ∀ h, ∀ t, t.key ≠ s.key → (t ∈ table h ↔ t ∈ prf.psampleHash h))
    (total : psampleCnt = ((entries psampleHashSize table).map fun s => 3 + s.frames.length).sum % 2^32) :
    Tallies { prf with psampleHash := table, psampleCnt, counted := prf.counted ++ [(f,s.key)] } := by
  have more : ∀ k : Key, (keys prf ++ [s.key]).count k = (keys prf).count k + if k = s.key then 1 else 0 := by
    intro k
    rw [List.count_append]
    by_cases same : k = s.key
    · subst same
      simp
    · simp [same,Ne.symm same]
  have whole : keys { prf with psampleHash := table, psampleCnt, counted := prf.counted ++ [(f,s.key)] } = keys prf ++ [s.key] := by
    simp [keys]
  have old : ∀ h, ∀ t ∈ table h, t = s ∨ (t.key ≠ s.key ∧ t ∈ prf.psampleHash h) := by
    intro h t inside
    by_cases same : t.key = s.key
    · exact .inl (placed.unique inside here same)
    · exact .inr ⟨same,(others h t same).mp inside⟩
  refine ⟨placed,fun h t inside => ?_,fun h t inside => ?_,fun k inside => ?_,fun h t inside => ?_,total⟩
  · rcases old h t inside with rfl | ⟨_,before⟩
    · exact refers
    · exact tallies.refers h t before
  · rw [whole,more]
    rcases old h t inside with rfl | ⟨apart,before⟩
    · simpa using cnt
    · simpa [apart] using tallies.counts h t before
  · rw [whole,List.mem_append,List.mem_singleton] at inside
    by_cases same : k = s.key
    · subst same
      exact ⟨s,here,rfl⟩
    · obtain ⟨t,before,key⟩ := tallies.counted k (inside.resolve_right same)
      exact ⟨t,(others _ t (key ▸ same)).mpr before,key⟩
  · rw [whole]
    rcases old h t inside with rfl | ⟨_,before⟩
    · simp
    · simp [tallies.listed h t before]

/-- A sample counted under its key. -/
theorem addToSampleArray_tallies (traces : Traces prf) (tallies : Tallies prf) (refers : Refers prf stk)
    (f : Flight) (pc : Address) :
    ∃ psampleHash psampleCnt, addToSampleArray prf pc stk = { prf with psampleHash, psampleCnt } ∧
      Tallies { prf with psampleHash, psampleCnt, counted := prf.counted ++ [(f,pc,framesOf stk)] } := by
  have sameKey : ∀ {s : ProfilerSample}, Refers prf s.stk → (SameSample pc stk s ↔ s.key = (pc,framesOf stk)) :=
    fun one => same_iff traces one refers
  let h := psampleIndex pc
  cases found : countSample pc stk (prf.psampleHash h) with
  | some a =>
    obtain ⟨before,s,after,bucket,same,rfl⟩ := countSample_some found
    let s' : ProfilerSample := { s with cnt := (s.cnt + 1) % 2^32 }
    have inside : s ∈ prf.psampleHash h := by simp [bucket]
    have key : s.key = (pc,framesOf stk) := (sameKey (tallies.refers h s inside)).mp same
    have keys_ : (before ++ s' :: after).map ProfilerSample.key = (prf.psampleHash h).map ProfilerSample.key := by
      rw [bucket,List.map_append,List.map_append]
      rfl
    have home : ∀ t ∈ before ++ s' :: after, psampleIndex t.key.1 = h := fun t member => by
      have listed : t.key ∈ (prf.psampleHash h).map ProfilerSample.key := keys_ ▸ List.mem_map_of_mem member
      obtain ⟨u,there,same⟩ := List.mem_map.mp listed
      exact same ▸ tallies.placed.home h u there
    have run : addToSampleArray prf pc stk = { prf with psampleHash := Function.update prf.psampleHash h (before ++ s' :: after) } := by
      simp only [addToSampleArray]
      rw [show countSample pc stk (prf.psampleHash (psampleIndex pc)) = _ from found]
    refine ⟨_,prf.psampleCnt,run,?_⟩
    rw [← key]
    refine tallies.count (s := s') f (tallies.placed.update home (keys_ ▸ tallies.placed.once h)) ?_ (tallies.refers h s inside) ?_
      (fun g t apart => ?_) ?_
    · simp [show s'.pc = pc from same.1,h]
    · change (s.cnt + 1) % 2^32 = ((keys prf).count s.key + 1) % 2^32
      rw [tallies.counts h s inside,Nat.mod_add_mod]
    · by_cases there : g = h
      · subst there
        have not_s : t ≠ s := fun is => apart (is ▸ rfl)
        have not_s' : t ≠ s' := fun is => apart (is ▸ rfl)
        simp [bucket,not_s,not_s']
      · simp [there]
    · have sum := sum_update prf.psampleHash (fun s : ProfilerSample => 3 + s.frames.length) (psampleIndex_less pc)
        (before ++ s' :: after)
      have weight : (before ++ s' :: after).map (fun s : ProfilerSample => 3 + s.frames.length) =
          (prf.psampleHash h).map fun s : ProfilerSample => 3 + s.frames.length := by
        rw [bucket,List.map_append,List.map_append]
        rfl
      rw [weight] at sum
      rw [tallies.total,numbers]
      exact congrArg (· % 2^32) (Nat.add_right_cancel sum).symm
  | none =>
    let s : ProfilerSample := ⟨pc,stk,1⟩
    have new : ∀ t ∈ prf.psampleHash h, t.key ≠ s.key := fun t inside same =>
      countSample_none found t inside ((sameKey (tallies.refers h t inside)).mpr same)
    have none_ : (keys prf).count s.key = 0 := by
      refine List.count_eq_zero.mpr fun inside => ?_
      obtain ⟨t,there,same⟩ := tallies.counted _ inside
      exact new t there same
    have run : addToSampleArray prf pc stk = { prf with
        psampleHash := Function.update prf.psampleHash h (prf.psampleHash h ++ [s])
        psampleCnt := (prf.psampleCnt + 3 + (stk.map fun stk => stk.pc.length).getD 0) % 2^32 } := by
      simp only [addToSampleArray]
      rw [show countSample pc stk (prf.psampleHash (psampleIndex pc)) = _ from found]
    refine ⟨_,_,run,?_⟩
    have placed := tallies.placed.add (a := s) new (List.perm_append_singleton ..)
    refine tallies.count (s := s) f placed (by simp [s,h]) refers (by rw [none_]; rfl) (fun g t apart => ?_) ?_
    · by_cases there : g = h
      · subst there
        have not_s : t ≠ s := fun is => apart (is ▸ rfl)
        simp [s,show t ≠ ⟨pc,stk,1⟩ from not_s]
      · simp [there]
    · have sum := sum_update prf.psampleHash (fun s : ProfilerSample => 3 + s.frames.length)
        (show h < psampleHashSize from psampleIndex_less pc) (prf.psampleHash h ++ [s])
      have length : (stk.map fun stk => stk.pc.length).getD 0 = s.frames.length := by cases stk <;> rfl
      rw [List.map_append,List.sum_append] at sum
      simp only [List.map_cons,List.map_nil,List.sum_cons,List.sum_nil] at sum
      rw [tallies.total,length,numbers]
      omega

/-- The program counter that a sample is due to be counted under. -/
def Flight.due (f : Flight) : Address := f.stop.getD f.pc

/-- Samples of a profiler in use: each is counted once, or in flight. -/
structure Conserved (sampled : Nat) (prf : ProfilerSST) : Prop where
  enabled : 0 < prf.frameCnt
  alone : prf.waiting.length ≤ 1
  conserved : prf.taken.Perm (prf.counted.map (fun c => c.1.number) ++ (prf.posted ++ prf.waiting).map Flight.number)
  once : prf.taken.Nodup
  known : ∀ n ∈ prf.taken, n < sampled
  due : ∀ c ∈ prf.counted, c.2.1 = c.1.due
  traces : Traces prf
  tallies : Tallies prf

/-- A profiler stays until its last event. -/
structure Sound (sampled : Nat) (prf : ProfilerSST) : Prop where
  lock : prf.lock = prf.posted.length
  live : prf.disposed = false → Conserved sampled prf

theorem Traces.frame (traces : Traces prf) {q : ProfilerSST} (strace : q.straceHash = prf.straceHash) (allocated : q.allocated = prf.allocated) :
    Traces q :=
  ⟨strace ▸ traces.placed,strace ▸ traces.same,allocated ▸ strace ▸ traces.old⟩

theorem Tallies.frame (tallies : Tallies prf) {q : ProfilerSST} (strace : ∀ h, ∀ a ∈ prf.straceHash h, a ∈ q.straceHash h)
    (psample : q.psampleHash = prf.psampleHash) (cnt : q.psampleCnt = prf.psampleCnt) (counted : q.counted = prf.counted) : Tallies q := by
  have keys_ : keys q = keys prf := by rw [keys,counted,keys]
  have numbers_ : numbers q = numbers prf := by rw [numbers,psample,numbers]
  refine ⟨psample ▸ tallies.placed,fun h s inside a refers => ?_,fun h s inside => ?_,fun k inside => ?_,fun h s inside => ?_,?_⟩
  · exact strace _ a (tallies.refers h s (psample ▸ inside) a refers)
  · rw [keys_]
    exact tallies.counts h s (psample ▸ inside)
  · rw [psample]
    exact tallies.counted k (keys_ ▸ inside)
  · rw [keys_]
    exact tallies.listed h s (psample ▸ inside)
  · rw [cnt,numbers_]
    exact tallies.total

/-- A sample counted; nothing else of the profiler changes. -/
theorem addCounted_spec (traces : Traces prf) (tallies : Tallies prf) (f : Flight) (buf : List Address) :
    ∃ psampleHash psampleCnt straceHash allocated, addCounted prf f buf =
        { prf with psampleHash, psampleCnt, straceHash, allocated, counted := prf.counted ++ [(f,prf.pc,buf)] } ∧
      Traces (addCounted prf f buf) ∧ Tallies (addCounted prf f buf) := by
  obtain ⟨straceHash,allocated,stk,found,frames,traces',refers,keeps⟩ := findStackTrace_spec traces buf
  have tallies' : Tallies { prf with straceHash, allocated } := tallies.frame keeps rfl rfl rfl
  obtain ⟨psampleHash,psampleCnt,added,tallied⟩ := addToSampleArray_tallies traces' tallies' refers f prf.pc
  have whole : addCounted prf f buf =
      { prf with psampleHash, psampleCnt, straceHash, allocated, counted := prf.counted ++ [(f,prf.pc,buf)] } := by
    simp only [addCounted,found]
    rw [added]
  refine ⟨psampleHash,psampleCnt,straceHash,allocated,whole,?_,?_⟩
  · rw [whole]
    exact traces'.frame rfl rfl
  · rw [whole]
    rw [frames] at tallied
    exact tallied

variable {sampled : Nat}

theorem Conserved.setPc (conserved : Conserved sampled prf) (pc : Address) : Conserved sampled { prf with pc } :=
  ⟨conserved.enabled,conserved.alone,conserved.conserved,conserved.once,conserved.known,conserved.due,
    conserved.traces.frame rfl rfl,conserved.tallies.frame (fun _ _ => id) rfl rfl rfl⟩

theorem freeBuffers_conserved (sound : Conserved sampled prf) : Conserved sampled (freeBuffers prf) := by
  have parts := sound.conserved.nodup_iff.mp sound.once
  refine ⟨sound.enabled,sound.alone,.refl _,(List.nodup_append.mp parts).2.1,fun n inside => ?_,nofun,⟨placed_empty,nofun,nofun⟩,
    ⟨placed_empty,nofun,nofun,nofun,nofun,?_⟩⟩
  · exact sound.known n (sound.conserved.mem_iff.mpr (List.mem_append_right _ inside))
  · have none_ : (entries psampleHashSize fun _ => ([] : List ProfilerSample)) = [] := List.flatMap_eq_nil_iff.mpr fun _ _ => rfl
    change 0 = _ % 2^32
    rw [numbers,show (freeBuffers prf).psampleHash = fun _ => [] from rfl,none_]
    rfl

theorem sample_sound (sound : Sound sampled prf) (inUse : prf.disposed = false) (pc : Address) :
    Sound (sampled + 1) (sample sampled pc prf) := by
  obtain ⟨lock,live⟩ := sound
  obtain ⟨enabled,alone,conserved,once,known,due,traces,tallies⟩ := live inUse
  have new : sampled ∉ prf.taken := fun inside => absurd (known _ inside) (Nat.lt_irrefl _)
  have once' : (prf.taken ++ [sampled]).Nodup := List.nodup_append.mpr ⟨once,List.nodup_singleton _,by
    rintro a inside b single rfl
    exact new (List.mem_singleton.mp single ▸ inside)⟩
  have known' : ∀ n ∈ prf.taken ++ [sampled], n < sampled + 1 := fun n inside => by
    rcases List.mem_append.mp inside with old | single
    · exact Nat.lt_succ_of_lt (known n old)
    · rw [List.mem_singleton.mp single]
      exact Nat.lt_succ_self _
  let q : ProfilerSST := { prf with taken := prf.taken ++ [sampled] }
  by_cases flat : prf.frameCnt ≤ 1
  · have run : sample sampled pc prf = { addToSampleArray q pc none with counted := prf.counted ++ [(⟨sampled,pc,none⟩,pc,[])] } := by
      simp [sample,flat,enabled,q]
    have tallies' : Tallies q := tallies.frame (fun _ _ => id) rfl rfl rfl
    obtain ⟨psampleHash,psampleCnt,added,tallied⟩ :=
      addToSampleArray_tallies (traces.frame rfl rfl : Traces q) tallies' (nofun : Refers q none) ⟨sampled,pc,none⟩ pc
    rw [run,added]
    refine ⟨lock,fun _ => ⟨enabled,alone,?_,once',known',?_,traces.frame rfl rfl,tallied⟩⟩
    · refine List.perm_iff_count.mpr fun n => ?_
      have before := conserved.count_eq n
      simp only [q,List.map_append,List.count_append,List.map_cons,List.map_nil] at before ⊢
      omega
    · intro c inside
      rcases List.mem_append.mp inside with old | single
      · exact due c old
      · rw [List.mem_singleton.mp single]
        rfl
  · have run : sample sampled pc prf = addSample ⟨sampled,pc,none⟩ { q with pc } := by simp [sample,flat,q]
    rw [run]
    refine ⟨by simp [addSample,q,lock],fun _ => ⟨enabled,alone,?_,once',known',due,traces.frame rfl rfl,
      tallies.frame (fun _ _ => id) rfl rfl rfl⟩⟩
    refine List.perm_iff_count.mpr fun n => ?_
    have before := conserved.count_eq n
    simp only [addSample,q,List.map_append,List.count_append,List.map_cons,List.map_nil] at before ⊢
    omega

/-- The stop that was asked for: the sample is posted again, with the program counter at the stop. -/
theorem eventContextStopped_sound (sound : Sound sampled prf) (pc : Address) : Sound sampled (eventContextStopped pc prf) := by
  cases waits : prf.waiting with
  | nil => simpa [eventContextStopped,waits] using sound
  | cons f rest =>
    have run : eventContextStopped pc prf = addSample { f with stop := some pc } { prf with waiting := [] } := by
      simp [eventContextStopped,waits]
    rw [run]
    refine ⟨by simp [addSample,sound.lock],fun inUse => ?_⟩
    obtain ⟨enabled,alone,conserved,once,known,due,traces,tallies⟩ := sound.live inUse
    have last : rest = [] := by
      rw [waits] at alone
      exact List.eq_nil_of_length_eq_zero (by simpa using alone)
    refine ⟨enabled,Nat.zero_le _,?_,once,known,due,traces.frame rfl rfl,tallies.frame (fun _ _ => id) rfl rfl rfl⟩
    rw [waits,last] at conserved
    simpa [addSample] using conserved

/-- A condition on a sample event: no earlier sample waits for a stop, and what is counted is counted under the program counter due. -/
def InTurn (thread : Thread) (f : Flight) (prf : ProfilerSST) : Prop :=
  prf.waiting = [] ∧ (prf.frameCnt > 1 → thread.stopped = true → thread.pc = f.due) ∧ (prf.frameCnt ≤ 1 → prf.pc = f.due)

instance (thread : Thread) (f : Flight) (prf : ProfilerSST) : Decidable (InTurn thread f prf) :=
  inferInstanceAs (Decidable (prf.waiting = [] ∧ _ ∧ _))

/-- A flight that lands: counted, or waiting for a stop. -/
theorem landed {f : Flight} {posted : List Flight} (inside : f ∈ posted) :
    ∃ rest, posted.eraseP (fun other => other.number = f.number) = rest ∧ rest.length + 1 = posted.length ∧
      ((posted.map Flight.number).Perm (f.number :: rest.map Flight.number)) := by
  obtain ⟨other,before,after,_,same,split,erased⟩ :=
    List.exists_of_eraseP (p := fun other : Flight => decide (other.number = f.number)) inside (by simp)
  refine ⟨before ++ after,erased,by simp [split]; omega,?_⟩
  rw [split]
  simp only [List.map_append,List.map_cons,of_decide_eq_true same]
  exact List.perm_middle

/-- The end of a client whose sample is counted. -/
theorem counted_sound (lock : prf.lock = prf.posted.length) (conserved : Conserved sampled prf) {f : Flight} (posted : f ∈ prf.posted)
    (due : prf.pc = f.due) (buf : List Address) :
    Sound sampled { addCounted prf f buf with
      lock := (addCounted prf f buf).lock - 1
      posted := (addCounted prf f buf).posted.eraseP fun other => other.number = f.number } := by
  obtain ⟨enabled,alone,whole,once,known,before,traces,tallies⟩ := conserved
  obtain ⟨psampleHash,psampleCnt,straceHash,allocated,run,traces',tallies'⟩ := addCounted_spec traces tallies f buf
  obtain ⟨rest,erased,length,perm⟩ := landed posted
  rw [run] at traces' tallies' ⊢
  simp only [erased]
  refine ⟨by simp only [lock]; omega,fun _ => ⟨enabled,alone,?_,once,known,?_,traces'.frame rfl rfl,
    tallies'.frame (fun _ _ => id) rfl rfl rfl⟩⟩
  · refine List.perm_iff_count.mpr fun n => ?_
    have before := whole.count_eq n
    have here := perm.count_eq n
    simp only [List.map_append,List.count_append,List.map_cons,List.map_nil,List.count_cons,List.count_nil] at before here ⊢
    omega
  · intro c inside
    rcases List.mem_append.mp inside with old | single
    · exact before c old
    · rw [List.mem_singleton.mp single]
      exact due

theorem attempt_cases (thread : Thread) (frames : List Address) (f : Flight) (prf : ProfilerSST) :
    (prf.frameCnt > 1 ∧ thread.stopped = true ∧
        attempt thread frames f prf = ({ prf with pc := thread.pc },frames.take (prf.frameCnt - 1))) ∨
      (prf.frameCnt > 1 ∧ thread.stopped = false ∧ attempt thread frames f prf = ({ prf with waiting := prf.waiting ++ [f] },[])) ∨
      (prf.frameCnt ≤ 1 ∧ attempt thread frames f prf = (prf,[])) := by
  by_cases deep : prf.frameCnt > 1
  · cases stopped : thread.stopped <;> simp [attempt,deep,stopped]
  · exact .inr (.inr ⟨Nat.le_of_not_lt deep,if_neg deep⟩)

/-- A client of a profiler that is disposed. -/
theorem addSampleCacheClient_disposed (thread : Thread) (frames : List Address) (f : Flight) (gone : prf.disposed = true) :
    (addSampleCacheClient thread frames f prf).disposed = true ∧ (addSampleCacheClient thread frames f prf).lock = prf.lock - 1 ∧
      (addSampleCacheClient thread frames f prf).posted = prf.posted.eraseP fun other => other.number = f.number := by
  obtain ⟨_,_,tried⟩ | ⟨_,_,tried⟩ | ⟨_,tried⟩ := attempt_cases thread frames f prf
  all_goals simp [addSampleCacheClient,tried,gone]

theorem runClient_sound (sound : Sound sampled prf) {threads : Nat → Thread} {number : Nat} (frames : List Address)
    (inTurn : prf.disposed = false → ∀ f ∈ prf.posted, f.number = number → InTurn (threads prf.ctx) f prf) :
    Sound sampled (runClient threads number frames prf) := by
  cases found : prf.posted.find? fun f => f.number = number with
  | none => simpa [runClient,found] using sound
  | some f =>
    have run : runClient threads number frames prf = addSampleCacheClient (threads prf.ctx) frames f prf := by simp [runClient,found]
    have posted := List.mem_of_find?_eq_some found
    have mine : f.number = number := by simpa using List.find?_some found
    obtain ⟨rest,erased,length,perm⟩ := landed posted
    have less : prf.lock - 1 = rest.length := by
      rw [sound.lock]
      omega
    rw [run]
    cases inUse : prf.disposed with
    | true =>
      obtain ⟨gone,lock,left⟩ := addSampleCacheClient_disposed (threads prf.ctx) frames f inUse
      refine ⟨by rw [lock,left,erased,less],fun live => ?_⟩
      rw [gone] at live
      cases live
    | false =>
      obtain ⟨idle,stopped,flat⟩ := inTurn inUse f posted mine
      have conserved := sound.live inUse
      have turn : prf.disposed = false ∧ prf.waiting = [] := ⟨inUse,idle⟩
      obtain ⟨deep,still,tried⟩ | ⟨deep,runs,tried⟩ | ⟨shallow,tried⟩ := attempt_cases (threads prf.ctx) frames f prf
      · have conserved' := conserved.setPc (threads prf.ctx).pc
        simp only [addSampleCacheClient,tried,if_pos turn]
        exact @counted_sound { prf with pc := (threads prf.ctx).pc } _ sound.lock conserved' f posted (stopped deep still) _
      · obtain ⟨enabled,alone,whole,once,known,due,traces,tallies⟩ := conserved
        have waits : ¬prf.waiting ++ [f] = [] := by simp
        simp only [addSampleCacheClient,tried,waits,and_false,if_false,erased]
        refine ⟨less,fun _ => ⟨enabled,by simp [idle],?_,once,known,due,traces.frame rfl rfl,tallies.frame (fun _ _ => id) rfl rfl rfl⟩⟩
        refine List.perm_iff_count.mpr fun n => ?_
        have before := whole.count_eq n
        have here := perm.count_eq n
        simp only [List.map_append,List.count_append,List.map_cons,List.map_nil,List.count_cons,List.count_nil] at before here ⊢
        omega
      · simp only [addSampleCacheClient,tried,if_pos turn]
        exact counted_sound sound.lock conserved posted (flat shallow) _

/-- A record of the data. -/
structure Record where
  cnt : Nat
  depth : Nat
  key : Nat × List Nat
  deriving DecidableEq, Repr

def readNum (size : Nat) (data : List UInt8) : Option (Nat × List UInt8) :=
  if size ≤ data.length then some (ByteNumbers.littleValue (data.take size),data.drop size) else none

def readNums (size : Nat) : Nat → List UInt8 → Option (List Nat × List UInt8)
  | 0, data => some ([],data)
  | n+1, data => do
    let (v,data) ← readNum size data
    let (rest,data) ← readNums size n data
    some (v :: rest,data)

def readRecord (size : Nat) (data : List UInt8) : Option (Record × List UInt8) := do
  let (cnt,data) ← readNum size data
  let (depth,data) ← readNum size data
  let (pc,data) ← readNum size data
  let (frames,data) ← readNums size (depth - 1) data
  some (⟨cnt,depth,pc,frames⟩,data)

/-- The records that a number of bytes split into. -/
def splitRecords (size : Nat) : Nat → List UInt8 → Option (List Record)
  | _, [] => some []
  | 0, _ => none
  | fuel+1, data => do
    let (record,data) ← readRecord size data
    let rest ← splitRecords size fuel data
    some (record :: rest)

variable {size : Nat}

theorem readNum_addNum {v : Nat} (fits : v < 256^size) (rest : List UInt8) : readNum size (addNum size v ++ rest) = some (v,rest) := by
  have length := ByteNumbers.littleBytes_length size v
  simp [readNum,addNum,length,ByteNumbers.littleValue_littleBytes fits]

theorem readNums_addNum {values : List Nat} (fits : ∀ v ∈ values, v < 256^size) (rest : List UInt8) :
    readNums size values.length (values.flatMap (addNum size) ++ rest) = some (values,rest) := by
  induction values with
  | nil => rfl
  | cons v values ih =>
    simp only [List.length_cons,readNums,List.flatMap_cons,List.append_assoc,readNum_addNum (fits v List.mem_cons_self)]
    simp [ih fun other inside => fits other (List.mem_cons_of_mem _ inside)]

def toRecord (s : ProfilerSample) : Record := ⟨s.cnt,1 + s.frames.length,s.pc.toNat,s.frames.map UInt64.toNat⟩

/-- All numbers of a sample fit in the bytes of an address. -/
def Fits (size : Nat) (s : ProfilerSample) : Prop :=
  s.cnt < 256^size ∧ 1 + s.frames.length < 256^size ∧ s.pc.toNat < 256^size ∧ ∀ pc ∈ s.frames, pc.toNat < 256^size

instance (size : Nat) : DecidablePred (Fits size) := fun s =>
  have : Decidable (∀ pc ∈ s.frames, pc.toNat < 256^size) :=
    List.decidableBAll (fun pc : Address => pc.toNat < 256^size) s.frames
  inferInstanceAs (Decidable (s.cnt < 256^size ∧ 1 + s.frames.length < 256^size ∧ s.pc.toNat < 256^size ∧ ∀ pc ∈ s.frames, pc.toNat < 256^size))

theorem readRecord_sampleData (fits : Fits size s) (rest : List UInt8) :
    readRecord size (sampleData size s ++ rest) = some (toRecord s,rest) := by
  obtain ⟨cnt,depth,pc,frames⟩ := fits
  have all : ∀ v ∈ s.frames.map UInt64.toNat, v < 256^size := by simpa using frames
  have nums := readNums_addNum all rest
  rw [List.length_map,List.flatMap_map] at nums
  have depth_ : 1 + s.frames.length - 1 = s.frames.length := by omega
  simp [readRecord,sampleData,readNum_addNum cnt,readNum_addNum depth,readNum_addNum pc,depth_,nums,toRecord]

theorem splitRecords_data (positive : 0 < size) {samples : List ProfilerSample} (fits : ∀ s ∈ samples, Fits size s) {fuel : Nat}
    (enough : samples.length ≤ fuel) : splitRecords size fuel (samples.flatMap (sampleData size)) = some (samples.map toRecord) := by
  induction samples generalizing fuel with
  | nil => cases fuel <;> rfl
  | cons s rest ih =>
    obtain ⟨fuel,rfl⟩ : ∃ n, fuel = n + 1 := ⟨fuel - 1,by simp at enough; omega⟩
    have some_ : ∃ byte more, sampleData size s ++ rest.flatMap (sampleData size) = byte :: more := by
      cases data : sampleData size s ++ rest.flatMap (sampleData size) with
      | nil =>
        have length := congrArg List.length data
        simp [sampleData,addNum,ByteNumbers.littleBytes_length] at length
        omega
      | cons byte more => exact ⟨byte,more,rfl⟩
    obtain ⟨byte,more,data⟩ := some_
    have one := readRecord_sampleData (fits s List.mem_cons_self) (rest.flatMap (sampleData size))
    have others := ih (fun other inside => fits other (List.mem_cons_of_mem _ inside)) (show rest.length ≤ fuel by simpa using enough)
    rw [List.flatMap_cons,data,splitRecords,← data,one]
    · simp [others]
    · nofun

theorem sampleData_length (size : Nat) (s : ProfilerSample) : (sampleData size s).length = (3 + s.frames.length) * size := by
  have frames : (s.frames.flatMap fun pc => addNum size pc.toNat).length = s.frames.length * size := by
    simp [List.length_flatMap,addNum,ByteNumbers.littleBytes_length]
  have number : ∀ v, (addNum size v).length = size := ByteNumbers.littleBytes_length size
  simp only [sampleData,List.length_append,frames,number]
  ring

theorem length_le_data (positive : 0 < size) (samples : List ProfilerSample) :
    samples.length ≤ (samples.flatMap (sampleData size)).length := by
  induction samples with
  | nil => exact Nat.zero_le _
  | cons s rest ih =>
    have some_ : 1 ≤ (3 + s.frames.length) * size := Nat.mul_pos (by omega) positive
    simp only [List.length_cons,List.flatMap_cons,List.length_append,sampleData_length]
    omega

theorem data_length (size : Nat) (samples : List ProfilerSample) :
    (samples.flatMap (sampleData size)).length = (samples.map fun s => 3 + s.frames.length).sum * size := by
  induction samples with
  | nil => simp
  | cons s rest ih => simp [ih,sampleData_length,Nat.add_mul]

def Key.numbers (k : Key) : Nat × List Nat := (k.1.toNat,k.2.map UInt64.toNat)

theorem Key.numbers_injective : Function.Injective Key.numbers := by
  rintro ⟨a,as⟩ ⟨b,bs⟩ same
  obtain ⟨one,rest⟩ := Prod.mk.inj same
  have some_ : Function.Injective UInt64.toNat := fun _ _ => UInt64.toNat.inj
  exact Prod.ext (some_ one) (List.map_injective_iff.mpr some_ rest)

/-- Records with distinct keys, and the counts of those. -/
structure Tells (counted : List (Flight × Key)) (records : List Record) : Prop where
  distinct : (records.map Record.key).Nodup
  depth : ∀ r ∈ records, r.depth = 1 + r.key.2.length
  counts : ∀ r ∈ records, r.cnt = (counted.map fun c => c.2.numbers).count r.key
  whole : ∀ c ∈ counted, ∃ r ∈ records, r.key = c.2.numbers

/-- The samples at a read are counted once, or pending, and the data is their counts. -/
structure Reading.Good (r : Reading) : Prop where
  conserved : r.taken.Perm (r.counted.map (fun c => c.1.number) ++ r.pending.map Flight.number)
  once : r.taken.Nodup
  due : ∀ c ∈ r.counted, c.2.1 = c.1.due
  data : (r.counted = [] ∧ r.block = none) ∨ ∃ block records, r.block = some block ∧ block.data.length = block.announced ∧
    splitRecords block.addrSize block.data.length block.data = some records ∧ Tells r.counted records

/-- What was counted can be told: the PC register is known, and the numbers are not too large. -/
def Readable (prf : ProfilerSST) : Option Nat → Prop
  | none => prf.counted = []
  | some size => prf.counted = [] ∨ (0 < size ∧ size ≤ 8 ∧ prf.counted.length < 2^32 ∧ numbers prf < 2^32 ∧
      ∀ s ∈ entries psampleHashSize prf.psampleHash, Fits size s)

instance (prf : ProfilerSST) : DecidablePred (Readable prf)
  | none => inferInstanceAs (Decidable (prf.counted = []))
  | some size => inferInstanceAs (Decidable (prf.counted = [] ∨ (0 < size ∧ size ≤ 8 ∧ prf.counted.length < 2^32 ∧
      numbers prf < 2^32 ∧ ∀ s ∈ entries psampleHashSize prf.psampleHash, Fits size s)))

theorem toRecord_key (s : ProfilerSample) : (toRecord s).key = s.key.numbers := rfl

theorem nothing_counted (tallies : Tallies prf) (empty : prf.counted = []) : prf.psampleCnt = 0 := by
  have none_ : entries psampleHashSize prf.psampleHash = [] := by
    refine List.eq_nil_iff_forall_not_mem.mpr fun s inside => ?_
    obtain ⟨h,_,there⟩ := mem_entries.mp inside
    have listed := tallies.listed h s there
    simp [keys,empty] at listed
  rw [tallies.total,numbers,none_]
  rfl

/-- The records of all samples. -/
theorem records_tell (tallies : Tallies prf) (few : prf.counted.length < 2^32) :
    Tells prf.counted ((entries psampleHashSize prf.psampleHash).map toRecord) := by
  have counted : (prf.counted.map fun c => c.2.numbers) = (keys prf).map Key.numbers := by simp [keys]
  refine ⟨?_,?_,?_,?_⟩
  · have once := (tallies.placed.nodup psampleHashSize).map Key.numbers_injective
    simpa [Function.comp_def,toRecord_key] using once
  · intro r inside
    obtain ⟨s,_,rfl⟩ := List.mem_map.mp inside
    simp [toRecord]
  · intro r inside
    obtain ⟨s,member,rfl⟩ := List.mem_map.mp inside
    obtain ⟨h,_,there⟩ := mem_entries.mp member
    have less : (keys prf).count s.key < 2^32 := Nat.lt_of_le_of_lt List.count_le_length (by simpa [keys] using few)
    rw [counted,toRecord_key,List.count_map_of_injective _ _ Key.numbers_injective]
    exact (tallies.counts h s there).trans (Nat.mod_eq_of_lt less)
  · intro c inside
    obtain ⟨s,there,same⟩ := tallies.counted c.2 (List.mem_map_of_mem inside)
    exact ⟨toRecord s,List.mem_map_of_mem (mem_entries.mpr ⟨_,psampleIndex_less _,there⟩),by rw [toRecord_key,same]⟩

theorem read_good (conserved : Conserved sampled prf) {pcDef : Option Nat} (readable : Readable prf pcDef) :
    Reading.Good ⟨block prf pcDef,prf.taken,prf.counted,prf.posted ++ prf.waiting⟩ := by
  obtain ⟨enabled,alone,whole,once,known,due,traces,tallies⟩ := conserved
  refine ⟨whole,once,due,?_⟩
  by_cases empty : prf.counted = []
  · left
    have zero := nothing_counted tallies empty
    exact ⟨empty,by cases pcDef <;> simp [block,zero]⟩
  · right
    cases pcDef with
    | none => exact absurd readable empty
    | some size =>
      obtain ⟨positive,_,few,small,fits⟩ := readable.resolve_left empty
      have total : prf.psampleCnt = numbers prf := tallies.total.trans (Nat.mod_eq_of_lt small)
      have some_ : 0 < prf.psampleCnt := by
        obtain ⟨c,rest,cons⟩ := List.exists_cons_of_ne_nil empty
        obtain ⟨s,there,_⟩ := tallies.counted c.2 (List.mem_map_of_mem (cons ▸ List.mem_cons_self))
        have inside : 3 + s.frames.length ∈ (entries psampleHashSize prf.psampleHash).map fun s => 3 + s.frames.length :=
          List.mem_map_of_mem (mem_entries.mpr ⟨_,psampleIndex_less _,there⟩)
        have less : 3 + s.frames.length ≤ numbers prf := List.single_le_sum (fun _ _ => Nat.zero_le _) _ inside
        omega
      have tell := records_tell tallies few
      have written : block prf (some size) =
        some ⟨size,prf.psampleCnt * size,(entries psampleHashSize prf.psampleHash).flatMap (sampleData size)⟩ := if_pos some_
      rw [numbers] at total
      rw [written]
      generalize entries psampleHashSize prf.psampleHash = samples at fits tell total ⊢
      have announced : (samples.flatMap (sampleData size)).length = prf.psampleCnt * size := by rw [data_length,total]
      exact ⟨_,_,rfl,announced,splitRecords_data positive fits (length_le_data positive samples),tell⟩

section Runs

variable {s : State}

structure Holds (s : State) : Prop where
  profilers : ∀ prf ∈ s.profilers, Sound s.sampled prf
  readings : ∀ r ∈ s.readings, r.Good

/-- Samples are counted in their turn, and reads tell what was counted. -/
def Orderly (s : State) : Event → Prop
  | .run address number _ => ∀ prf ∈ s.profilers, prf.address = address → prf.disposed = false →
      ∀ f ∈ prf.posted, f.number = number → InTurn (s.threads prf.ctx) f prf
  | .read channel ctx pcDef => ∀ prf ∈ s.profilers, configured channel ctx prf → Readable prf pcDef
  | _ => True

instance (s : State) : ∀ e, Decidable (Orderly s e)
  | .run address number _ => inferInstanceAs (Decidable (∀ prf ∈ s.profilers, prf.address = address → prf.disposed = false →
      ∀ f ∈ prf.posted, f.number = number → InTurn (s.threads prf.ctx) f prf))
  | .read channel ctx pcDef => inferInstanceAs (Decidable (∀ prf ∈ s.profilers, configured channel ctx prf → Readable prf pcDef))
  | .sample _ _ | .miss _ _ _ | .stopped _ _ | .started _ | .registers _ _ | .configure _ _ _ | .dispose _ _ | .reset _ =>
    inferInstanceAs (Decidable True)

theorem each_sound {which : ProfilerSST → Prop} [DecidablePred which] {f : ProfilerSST → ProfilerSST} {sampled' : Nat}
    (old : ∀ prf ∈ s.profilers, ¬which prf → Sound sampled' prf) (new : ∀ prf ∈ s.profilers, which prf → Sound sampled' (f prf)) :
    ∀ prf ∈ (s.each which f).profilers, Sound sampled' prf := by
  intro prf inside
  obtain ⟨before,listed,rfl⟩ := List.mem_map.mp (List.mem_of_mem_filter inside)
  split
  · next chosen => exact new before listed chosen
  · next other => exact old before listed other

variable {sampled : Nat} {prf : ProfilerSST}

theorem Sound.later (sound : Sound sampled prf) : Sound (sampled + 1) prf :=
  ⟨sound.lock,fun inUse =>
    { sound.live inUse with known := fun n inside => Nat.lt_succ_of_lt ((sound.live inUse).known n inside) }⟩

theorem Holds.each (holds : Holds s) {which : ProfilerSST → Prop} [DecidablePred which] {f : ProfilerSST → ProfilerSST}
    (new : ∀ prf ∈ s.profilers, which prf → Sound s.sampled (f prf)) : Holds (s.each which f) :=
  ⟨each_sound (fun prf inside _ => holds.profilers prf inside) new,holds.readings⟩

theorem freeBuffers_sound (sound : Sound sampled prf) : Sound sampled (freeBuffers prf) :=
  ⟨sound.lock,fun inUse => freeBuffers_conserved (sound.live inUse)⟩

theorem dispose_sound (sound : Sound sampled prf) : Sound sampled (dispose prf) :=
  ⟨sound.lock,fun inUse => absurd inUse (by simp [dispose])⟩

theorem create_sound (sampled address channel ctx : Nat) {frameCnt : Nat} (positive : 0 < frameCnt) :
    Sound sampled (create address channel ctx frameCnt) := by
  refine ⟨rfl,fun _ => ⟨positive,Nat.zero_le _,.refl _,List.nodup_nil,nofun,nofun,⟨placed_empty,nofun,nofun⟩,
    ⟨placed_empty,nofun,nofun,nofun,nofun,?_⟩⟩⟩
  have none_ : (entries psampleHashSize fun _ => ([] : List ProfilerSample)) = [] := List.flatMap_eq_nil_iff.mpr fun _ _ => rfl
  change 0 = _ % 2^32
  rw [numbers,show (create address channel ctx frameCnt).psampleHash = fun _ => [] from rfl,none_]
  rfl

theorem profilerConfigure_holds (holds : Holds s) (channel ctx frameCnt : Nat) : Holds (profilerConfigure s channel ctx frameCnt) := by
  unfold profilerConfigure
  split
  · next positive =>
    split
    · refine holds.each fun prf inside chosen => ⟨(holds.profilers prf inside).lock,fun inUse => ?_⟩
      have free := freeBuffers_conserved ((holds.profilers prf inside).live inUse)
      exact ⟨positive,free.alone,free.conserved,free.once,free.known,free.due,free.traces.frame rfl rfl,
        free.tallies.frame (fun _ _ => id) rfl rfl rfl⟩
    · refine ⟨fun prf inside => ?_,holds.readings⟩
      rcases List.mem_append.mp inside with old | single
      · exact holds.profilers prf old
      · rw [List.mem_singleton.mp single]
        exact create_sound _ _ _ _ positive
  · exact holds.each fun prf inside _ => dispose_sound (holds.profilers prf inside)

theorem profilerRead_holds (holds : Holds s) {channel ctx : Nat} {pcDef : Option Nat}
    (readable : ∀ prf ∈ s.profilers, configured channel ctx prf → Readable prf pcDef) :
    ∃ next, profilerRead s channel ctx pcDef = .ok next ∧ Holds next := by
  have small : ∀ prf ∈ s.profilers, configured channel ctx prf → prf.psampleCnt > 0 → ∀ size ∈ pcDef, size ≤ 8 := by
    rintro prf inside chosen some_ size ⟨⟩
    rcases readable prf inside chosen with empty | ⟨_,small,_⟩
    · exact absurd (nothing_counted ((holds.profilers prf inside).live chosen.1).tallies empty) some_.ne'
    · exact small
  refine ⟨_,(Code.require_bind_true small _).trans rfl,?_⟩
  have free : Holds (s.each (configured channel ctx) freeBuffers) :=
    holds.each fun prf inside _ => freeBuffers_sound (holds.profilers prf inside)
  refine ⟨free.profilers,fun r inside => ?_⟩
  rcases List.mem_append.mp inside with old | new
  · exact holds.readings r old
  · obtain ⟨prf,listed,rfl⟩ := List.mem_map.mp new
    have chosen : configured channel ctx prf := by simpa using (List.mem_filter.mp listed).2
    have inside := List.mem_of_mem_filter listed
    exact read_good ((holds.profilers prf inside).live chosen.1) (readable prf inside chosen)

theorem step_holds {e : Event} (holds : Holds s) (orderly : Orderly s e) : ∃ next, step s e = .ok next ∧ Holds next := by
  have sound := holds.profilers
  cases e with
  | sample ctx pc =>
    have sampled : ∀ prf ∈ (s.each (ofContext ctx) (sample s.sampled pc)).profilers, Sound (s.sampled + 1) prf :=
      each_sound (fun prf inside _ => (sound prf inside).later) fun prf inside chosen => sample_sound (sound prf inside) chosen.1 pc
    exact ⟨_,rfl,sampled,holds.readings⟩
  | run address number frames =>
    refine ⟨_,rfl,holds.each fun prf inside chosen => runClient_sound (sound prf inside) frames ?_⟩
    exact orderly prf inside chosen.1
  | miss address number pc =>
    refine ⟨_,rfl,holds.each fun prf inside _ => ?_⟩
    split
    · exact ⟨(sound prf inside).lock,fun inUse => ((sound prf inside).live inUse).setPc pc⟩
    · exact sound prf inside
  | stopped ctx pc =>
    have threads : Holds (s.setThread ctx ⟨true,pc⟩) := ⟨holds.profilers,holds.readings⟩
    exact ⟨_,rfl,threads.each fun prf inside _ => eventContextStopped_sound (sound prf inside) pc⟩
  | started ctx => exact ⟨_,rfl,holds.profilers,holds.readings⟩
  | registers ctx pc => exact ⟨_,rfl,holds.profilers,holds.readings⟩
  | configure channel ctx frameCnt => exact ⟨_,rfl,profilerConfigure_holds holds channel ctx frameCnt⟩
  | dispose channel ctx => exact ⟨_,rfl,holds.each fun prf inside _ => dispose_sound (sound prf inside)⟩
  | reset ctx => exact ⟨_,rfl,holds.each fun prf inside _ => freeBuffers_sound (sound prf inside)⟩
  | read channel ctx pcDef => exact profilerRead_holds holds orderly

/-- In a run where each sample event has its turn, and what was counted can be told at each read, what reads return is right, and
each sample of a profiler in use is counted once, or in flight. -/
theorem samples_conserved (events : List Event) (meets : process.Meets Orderly .initial events) :
    (∃ final, process.exec .initial events = .ok final ∧ (∀ r ∈ final.readings, r.Good) ∧
      ∀ prf ∈ final.profilers, prf.disposed = false → prf.taken.Nodup ∧ (∀ c ∈ prf.counted, c.2.1 = c.1.due) ∧
        prf.taken.Perm (prf.counted.map (fun c => c.1.number) ++ (prf.posted ++ prf.waiting).map Flight.number)) ∨
      process.exec .initial events = .error .stuck := by
  have start : Holds .initial := ⟨nofun,nofun⟩
  rcases process.exec_returns Holds (fun s e holds _ => step_holds holds) start meets with ⟨final,run,holds⟩ | none_
  · refine .inl ⟨final,run,holds.readings,fun prf inside inUse => ?_⟩
    have conserved := (holds.profilers prf inside).live inUse
    exact ⟨conserved.once,conserved.due,conserved.conserved⟩
  · exact .inr none_

/-- A thread stopped for its sample, one that was stopped, and the same key twice. -/
theorem samples_conserved_example :
    (∃ final, process.exec .initial
        [.configure 1 7 3,.sample 7 0x100,.run 0 0 [],.stopped 7 0x110,.miss 0 0 0,.run 0 0 [0x20,0x30,0x40],.sample 7 0x110,
          .run 0 1 [0x20,0x30],.started 7,.sample 7 0x120,.read 1 7 (some 8)] = .ok final ∧ (∀ r ∈ final.readings, r.Good) ∧
      ∀ prf ∈ final.profilers, prf.disposed = false → prf.taken.Nodup ∧ (∀ c ∈ prf.counted, c.2.1 = c.1.due) ∧
        prf.taken.Perm (prf.counted.map (fun c => c.1.number) ++ (prf.posted ++ prf.waiting).map Flight.number)) ∨
      process.exec .initial
        [.configure 1 7 3,.sample 7 0x100,.run 0 0 [],.stopped 7 0x110,.miss 0 0 0,.run 0 0 [0x20,0x30,0x40],.sample 7 0x110,
          .run 0 1 [0x20,0x30],.started 7,.sample 7 0x120,.read 1 7 (some 8)] = .error .stuck :=
  samples_conserved _ (by decide +kernel)

/-- Two samples of a running thread ask for one stop; one of them is counted, the other is neither counted nor in flight. -/
theorem samples_merged :
    ∃ final, process.exec .initial
        [.configure 1 7 3,.sample 7 0x100,.sample 7 0x200,.run 0 0 [],.run 0 1 [],.stopped 7 0x300,.run 0 0 [],.read 1 7 (some 2)] = .ok final ∧
      (∀ r ∈ final.readings, r.taken = [0,1] ∧ r.counted.map (fun c => c.1.number) = [0] ∧ r.pending = [] ∧
        r.block = some ⟨2,6,[1,0,1,0,0,3]⟩) ∧ final.readings.length = 1 := by
  decide +kernel

end Runs

end Tcf.ProfilerSst
