import Tcf.FileSystem
import Mathlib.Data.List.Nodup
import Mathlib.Data.List.Perm.Subperm
import Mathlib.Data.List.Pairwise

/-! Commands are answered once, on their own channel; requests of a record are done in order; descriptors are closed once. -/
namespace Tcf.FileSystem

variable {s : State} {h : OpenFileInfo} {req : Request}

/-- Numbers of the requests in the queues. -/
def pending (infos : List OpenFileInfo) : List Nat := infos.flatMap fun h => h.reqs.map Request.number

def held (h : OpenFileInfo) : List Descriptor := fileDescriptors h.file ++ dirDescriptors h.dir

/-- What the end of an abandoned request closes. -/
def releases (req : Request) : List Descriptor :=
  match req.type with
  | .read | .write | .seekRead | .seekWrite | .fstat | .fSetStat | .close => fileDescriptors req.fd
  | .readDir | .closeDir => dirDescriptors req.dir
  | .open_ | .openDir | .lstat | .stat | .setStat | .remove | .roots => []

/-- The queue of a record: its first request is posted, and the others wait in the order of their commands. -/
structure InfoSound (h : OpenFileInfo) : Prop where
  posted : h.postedReq = h.reqs.head?.map Request.number
  order : h.arrived = h.executed ++ h.reqs.map Request.number
  own : ∀ req ∈ h.reqs, req.channel = h.channel
  tail : ∀ req ∈ h.reqs.tail, Serialized req.type
  one : h.file = none ∨ h.dir = none
  fd : ∀ req ∈ h.reqs, req.fd = none ∨ req.fd = h.file
  dir : ∀ req ∈ h.reqs, req.dir = none ∨ req.dir = h.dir
  onPath : ∀ req ∈ h.reqs, OnPath req.type → h.file = none ∧ h.dir = none

def repliesTo (s : State) (channel : Nat) : List Nat := (s.replies.filter fun r => r.channel = channel).map Reply.number

def commandsOf (s : State) (channel : Nat) : List Nat := (s.commands.filter fun c => c.2 = channel).map Prod.fst

def pendingOf (s : State) (channel : Nat) : List Nat := pending (s.infos.filter fun h => h.channel = channel)

structure Sound (s : State) : Prop where
  infos : ∀ h ∈ s.infos, InfoSound h
  handles : (s.infos.map OpenFileInfo.handle).Nodup
  channels : ∀ h ∈ s.infos, h.channel ∉ s.gone
  numbers : (pending s.infos ++ s.abandoned.map Request.number).Nodup
  known : ∀ n ∈ pending s.infos ++ s.abandoned.map Request.number, n < s.commands.length
  commands : s.commands.map Prod.fst = List.range s.commands.length
  answered : ∀ channel, channel ∉ s.gone → (commandsOf s channel).Perm (repliesTo s channel ++ pendingOf s channel)
  replies : ∀ r ∈ s.replies, (r.number,r.channel) ∈ s.commands
  descriptors : s.opened.Perm (s.closed ++ (s.infos.flatMap held ++ s.abandoned.flatMap releases))
  once : s.opened.Nodup

@[simp] theorem pending_append (a b : List OpenFileInfo) : pending (a ++ b) = pending a ++ pending b := List.flatMap_append

@[simp] theorem pending_cons (h : OpenFileInfo) (rest : List OpenFileInfo) :
    pending (h :: rest) = h.reqs.map Request.number ++ pending rest := rfl

@[simp] theorem pending_nil : pending [] = [] := rfl

/-- Records of one channel are replaced, with its commands, replies and descriptors. -/
structure Change (s : State) (channel : Nat) (before old new after : List OpenFileInfo) (cs : List (Nat × Nat)) (rs : List Reply)
    (opened closed : List Descriptor) : Prop where
  isOpen : channel ∉ s.gone
  split : s.infos = before ++ old ++ after
  ofOld : ∀ h ∈ old, h.channel = channel
  ofNew : ∀ h ∈ new, h.channel = channel
  sound : ∀ h ∈ new, InfoSound h
  handles : ((before ++ new ++ after).map OpenFileInfo.handle).Nodup
  command : cs = [] ∨ cs = [(s.commands.length,channel)]
  replies : ∀ r ∈ rs, r.channel = channel
  counted : (cs.map Prod.fst ++ pending old).Perm (rs.map Reply.number ++ pending new)
  descriptors : (opened ++ old.flatMap held).Perm (closed ++ new.flatMap held)
  once : (s.opened ++ opened).Nodup

theorem nodup_snoc {α : Type} {l : List α} {a : α} (once : l.Nodup) (new : a ∉ l) : (l ++ [a]).Nodup := by
  rw [← List.concat_eq_append]
  exact once.concat new

theorem filter_all {α : Type} {p : α → Bool} {l : List α} (all : ∀ a ∈ l, p a = true) : l.filter p = l := List.filter_eq_self.mpr all

theorem filter_none {α : Type} {p : α → Bool} {l : List α} (none_ : ∀ a ∈ l, p a = false) : l.filter p = [] :=
  List.filter_eq_nil_iff.mpr fun a inside => by simp [none_ a inside]

theorem Sound.change (sound : Sound s) {channel : Nat} {before old new after : List OpenFileInfo} {cs : List (Nat × Nat)} {rs : List Reply}
    {opened closed : List Descriptor} (change : Change s channel before old new after cs rs opened closed) (handleCnt : Nat) :
    Sound { s with
      handleCnt
      infos := before ++ new ++ after
      commands := s.commands ++ cs
      replies := s.replies ++ rs
      opened := s.opened ++ opened
      closed := s.closed ++ closed } := by
  obtain ⟨isOpen,split,ofOld,ofNew,news,handles,command,replies,counted,descriptors,once⟩ := change
  obtain ⟨infos₀,_,channels₀,numbers₀,known₀,commands₀,answered₀,replies₀,descriptors₀,_⟩ := sound
  have inside : ∀ h ∈ before ++ new ++ after, h ∈ new ∨ h ∈ s.infos := by
    intro h member
    rw [split]
    simp only [List.mem_append] at member ⊢
    tauto
  have ofChannel : ∀ p ∈ cs, p.2 = channel := by
    rcases command with rfl | rfl <;> simp
  have fresh : ∀ n ∈ cs.map Prod.fst, n = s.commands.length := by
    rcases command with rfl | rfl <;> simp
  have csNodup : (cs.map Prod.fst).Nodup := by
    rcases command with rfl | rfl <;> simp
  have tally : ∀ n, (cs.map Prod.fst).count n + (pending old).count n = (rs.map Reply.number).count n + (pending new).count n := by
    intro n
    simpa [List.count_append] using counted.count_eq n
  have whole : pending s.infos = pending before ++ pending old ++ pending after := by rw [split,pending_append,pending_append]
  refine ⟨fun h member => ?_,handles,fun h member => ?_,?_,fun n member => ?_,?_,fun c notGone => ?_,fun r member => ?_,?_,once⟩
  · exact (inside h member).elim (news h) (infos₀ h)
  · exact (inside h member).elim (fun new => ofNew h new ▸ isOpen) (channels₀ h)
  · refine List.nodup_iff_count_le_one.mpr fun n => ?_
    have few := List.nodup_iff_count_le_one.mp numbers₀ n
    have one := List.nodup_iff_count_le_one.mp csNodup n
    have here := tally n
    simp only [whole,pending_append,List.count_append] at few ⊢
    by_cases added : n ∈ cs.map Prod.fst
    · have absent : (pending s.infos ++ s.abandoned.map Request.number).count n = 0 :=
        List.count_eq_zero.mpr fun member => absurd (known₀ n member) (by rw [fresh n added]; exact Nat.lt_irrefl _)
      simp only [whole,List.count_append] at absent
      omega
    · have absent := List.count_eq_zero.mpr added
      omega
  · have more : n ∈ pending s.infos ++ s.abandoned.map Request.number ∨ n ∈ cs.map Prod.fst := by
      simp only [whole,pending_append,List.mem_append] at member ⊢
      have here : n ∈ pending new → n ∈ cs.map Prod.fst ∨ n ∈ pending old := fun new =>
        List.mem_append.mp (counted.mem_iff.mpr (List.mem_append_right _ new))
      tauto
    rw [List.length_append]
    rcases more with old | added
    · have less := known₀ n old
      omega
    · have some_ : 0 < cs.length := by simpa using List.length_pos_of_mem added
      have same := fresh n added
      omega
  · rcases command with rfl | rfl
    · simpa using commands₀
    · simp [commands₀,List.range_succ]
  · have before_ := answered₀ c notGone
    refine List.perm_iff_count.mpr fun n => ?_
    have here := tally n
    have there := before_.count_eq n
    by_cases same : c = channel
    · subst same
      have cs_ : cs.filter (fun p => p.2 = c) = cs := filter_all fun p member => by simp [ofChannel p member]
      have rs_ : rs.filter (fun r => r.channel = c) = rs := filter_all fun r member => by simp [replies r member]
      have old_ : old.filter (fun h => h.channel = c) = old := filter_all fun h member => by simp [ofOld h member]
      have new_ : new.filter (fun h => h.channel = c) = new := filter_all fun h member => by simp [ofNew h member]
      simp only [commandsOf,repliesTo,pendingOf,split,List.filter_append,List.map_append,List.count_append,pending_append,cs_,rs_,old_,
        new_] at there ⊢
      omega
    · have apart : channel ≠ c := Ne.symm same
      have cs_ : cs.filter (fun p => p.2 = c) = [] := filter_none fun p member => by simp [ofChannel p member,apart]
      have rs_ : rs.filter (fun r => r.channel = c) = [] := filter_none fun r member => by simp [replies r member,apart]
      have old_ : old.filter (fun h => h.channel = c) = [] := filter_none fun h member => by simp [ofOld h member,apart]
      have new_ : new.filter (fun h => h.channel = c) = [] := filter_none fun h member => by simp [ofNew h member,apart]
      simp only [commandsOf,repliesTo,pendingOf,split,List.filter_append,List.map_append,List.count_append,pending_append,cs_,rs_,old_,
        new_,List.map_nil,List.count_nil,pending_nil] at there ⊢
      omega
  · rcases List.mem_append.mp member with old | new
    · exact List.mem_append_left _ (replies₀ r old)
    · have number : r.number ∈ cs.map Prod.fst ∨ r.number ∈ pending old :=
        List.mem_append.mp (counted.mem_iff.mpr (List.mem_append_left _ (List.mem_map_of_mem new)))
      rw [replies r new,List.mem_append]
      rcases number with added | waits
      · right
        rcases command with rfl | rfl
        · cases added
        · simpa using added
      · left
        have queued : r.number ∈ pendingOf s channel := by
          have old_ : old.filter (fun h => h.channel = channel) = old := filter_all fun h member => by simp [ofOld h member]
          simp only [pendingOf,split,List.filter_append,pending_append,old_,List.mem_append]
          exact .inl (.inr waits)
        obtain ⟨⟨n,c⟩,listed,same⟩ := List.mem_map.mp ((answered₀ channel isOpen).mem_iff.mpr (List.mem_append_right _ queued))
        obtain ⟨known,mine⟩ := List.mem_filter.mp listed
        simp only [decide_eq_true_eq] at mine same
        exact same ▸ mine ▸ known
  · refine List.perm_iff_count.mpr fun d => ?_
    have here := descriptors.count_eq d
    have there := descriptors₀.count_eq d
    simp only [split,List.flatMap_append,List.count_append] at here there ⊢
    omega

section Commands

theorem createIoRequest_sound (sound : InfoSound h) (own : req.channel = h.channel) (place : h.reqs = [] ∨ Serialized req.type)
    (fd : req.fd = none ∨ req.fd = h.file) (dir : req.dir = none ∨ req.dir = h.dir)
    (onPath : OnPath req.type → h.file = none ∧ h.dir = none) :
    InfoSound (createIoRequest h req) ∧ (createIoRequest h req).reqs = h.reqs ++ [req] := by
  obtain ⟨posted₀,order₀,own₀,tail₀,one₀,fd₀,dir₀,onPath₀⟩ := sound
  obtain ⟨postedReq,made,first⟩ : ∃ postedReq, createIoRequest h req =
      { h with reqs := h.reqs ++ [req], arrived := h.arrived ++ [req.number], postedReq } ∧
        postedReq = (h.reqs ++ [req]).head?.map Request.number := by
    simp only [createIoRequest,postIoRequest]
    split
    · exact ⟨_,rfl,rfl⟩
    · next busy =>
      refine ⟨_,rfl,?_⟩
      cases queue : h.reqs with
      | nil => simp [posted₀,queue] at busy
      | cons first rest => simp [posted₀,queue]
  have all : ∀ {p : Request → Prop}, (∀ r ∈ h.reqs, p r) → p req → ∀ r ∈ h.reqs ++ [req], p r := fun old new r member =>
    (List.mem_append.mp member).elim (old r) fun last => List.mem_singleton.mp last ▸ new
  rw [made]
  refine ⟨⟨first,?_,all own₀ own,?_,one₀,all fd₀ fd,all dir₀ dir,all onPath₀ onPath⟩,rfl⟩
  · simp [order₀]
  · intro r member
    cases queue : h.reqs with
    | nil => simp [queue] at member
    | cons first rest =>
      simp only [queue,List.cons_append,List.tail_cons,List.mem_append,List.mem_singleton] at member
      rcases member with old | rfl
      · exact tail₀ r (by simp [queue,old])
      · exact place.resolve_left (by simp [queue])

/-- There is always another number, unless all are taken. -/
theorem newHandle_spec (few : s.infos.length < 2^64) : ∃ n, newHandle s = some n ∧ n ∉ s.infos.map OpenFileInfo.handle := by
  cases found : newHandle s with
  | some n => exact ⟨n,rfl,by simpa using List.find?_some found⟩
  | none =>
    have taken : (List.range (s.infos.length + 1)).map (fun i => (s.handleCnt + i) % 2^64) ⊆ s.infos.map OpenFileInfo.handle :=
      fun n member => by simpa using List.find?_eq_none.mp found n member
    have distinct : ((List.range (s.infos.length + 1)).map fun i => (s.handleCnt + i) % 2^64).Nodup := by
      refine List.Nodup.map_on (fun i first j second same => ?_) List.nodup_range
      have less := List.mem_range.mp first
      have less' := List.mem_range.mp second
      omega
    have long := (distinct.subperm taken).length_le
    simp only [List.length_map,List.length_range] at long
    omega

theorem commandPath_sound (sound : Sound s) {channel : Nat} (isOpen : channel ∉ s.gone) (few : s.infos.length < 2^64) (type : ReqType) :
    ∃ next, commandPath { s with commands := s.commands ++ [(s.commands.length,channel)] } s.commands.length channel type = .ok next ∧
      Sound next := by
  obtain ⟨handle,found,fresh⟩ := newHandle_spec few
  let h : OpenFileInfo := ⟨handle,channel,none,none,[],none,[],[]⟩
  let req : Request := ⟨s.commands.length,channel,type,none,none,0⟩
  have empty : InfoSound h := ⟨rfl,rfl,nofun,nofun,.inl rfl,nofun,nofun,nofun⟩
  obtain ⟨made,reqs⟩ := @createIoRequest_sound h req empty rfl (.inl rfl) (.inl rfl) (.inl rfl) fun _ => ⟨rfl,rfl⟩
  have found' : newHandle { s with commands := s.commands ++ [(s.commands.length,channel)] } = some handle := found
  have change : Change s channel [] [] [createIoRequest h req] s.infos [(s.commands.length,channel)] [] [] [] := by
    refine ⟨isOpen,rfl,nofun,?_,?_,?_,.inr rfl,nofun,?_,?_,?_⟩
    · simp [h,createIoRequest,postIoRequest]
    · simpa using made
    · have distinct := List.nodup_cons.mpr ⟨fresh,sound.handles⟩
      simpa [createIoRequest,postIoRequest,h] using distinct
    · simp [reqs,h,req]
    · simp [held,createIoRequest,postIoRequest,h,fileDescriptors,dirDescriptors]
    · simpa using sound.once
  refine ⟨_,by simp only [commandPath,found']; rfl,?_⟩
  have next := sound.change change ((handle + 1) % 2^64)
  simp only [List.nil_append,List.append_nil] at next
  exact next

theorem reply_sound (sound : Sound s) {channel : Nat} (isOpen : channel ∉ s.gone) {r : Reply} (mine : r.channel = channel)
    (number : r.number = s.commands.length) {files : List Descriptor} (fresh : (s.opened ++ files).Nodup) :
    Sound { s with
      commands := s.commands ++ [(s.commands.length,channel)]
      replies := s.replies ++ [r]
      opened := s.opened ++ files
      closed := s.closed ++ files } := by
  have change : Change s channel s.infos [] [] [] [(s.commands.length,channel)] [r] files files := by
    refine ⟨isOpen,by simp,nofun,nofun,nofun,by simpa using sound.handles,.inr rfl,by simpa using mine,?_,.refl _,fresh⟩
    simp [number]
  simpa using sound.change change s.handleCnt

/-- A record where it is in the ring. -/
theorem split_info (sound : Sound s) (member : h ∈ s.infos) : ∃ before after, s.infos = before ++ [h] ++ after ∧
    (∀ other ∈ before ++ after, other.handle ≠ h.handle) := by
  obtain ⟨before,after,split⟩ := List.append_of_mem member
  have distinct := sound.handles
  rw [split,List.map_append,List.map_cons,List.nodup_middle] at distinct
  refine ⟨before,after,by simp [split],fun other inside same => (List.nodup_cons.mp distinct).1 ?_⟩
  rw [← List.map_append]
  exact same ▸ List.mem_map_of_mem inside

theorem setInfo_split {before after : List OpenFileInfo} {h' : OpenFileInfo} (split : s.infos = before ++ [h] ++ after)
    (others : ∀ other ∈ before ++ after, other.handle ≠ h.handle) (same : h'.handle = h.handle) :
    s.setInfo h' = { s with infos := before ++ [h'] ++ after } := by
  have keep : ∀ l : List OpenFileInfo, (∀ other ∈ l, other.handle ≠ h.handle) →
      l.map (fun other => if other.handle = h'.handle then h' else other) = l := fun l apart => by
    refine (List.map_congr_left fun other inside => ?_).trans (List.map_id l)
    simp [same,apart other inside]
  have first := keep before fun other inside => others other (List.mem_append_left _ inside)
  have last := keep after fun other inside => others other (List.mem_append_right _ inside)
  have here : (if h.handle = h'.handle then h' else h) = h' := if_pos same.symm
  rw [State.setInfo,split]
  simp only [List.map_append,first,last,List.map_cons,List.map_nil,here]

theorem delete_split {before after : List OpenFileInfo} {h' : OpenFileInfo} (split : s.infos = before ++ [h] ++ after)
    (others : ∀ other ∈ before ++ after, other.handle ≠ h.handle) (same : h'.handle = h.handle) (empty : h'.reqs = []) :
    deleteOpenFileInfo s h' = .ok { s with infos := before ++ [] ++ after } := by
  have keep : ∀ l : List OpenFileInfo, (∀ other ∈ l, other.handle ≠ h.handle) → l.filter (fun other => other.handle ≠ h'.handle) = l :=
    fun l apart => filter_all fun other inside => by simp [same,apart other inside]
  have first := keep before fun other inside => others other (List.mem_append_left _ inside)
  have last := keep after fun other inside => others other (List.mem_append_right _ inside)
  have here : [h].filter (fun other => other.handle ≠ h'.handle) = [] := by simp [same]
  simp only [deleteOpenFileInfo,require_true empty,Code.ok_bind,split,List.filter_append,first,last,here,Code.pure_eq]

theorem handles_split (sound : Sound s) {before after : List OpenFileInfo} {h' : OpenFileInfo} (split : s.infos = before ++ [h] ++ after)
    (same : h'.handle = h.handle) : ((before ++ [h'] ++ after).map OpenFileInfo.handle).Nodup := by
  have distinct := sound.handles
  rw [split] at distinct
  simpa [same] using distinct

theorem request_spec {number channel : Nat} {c : Command} (made : request number channel h c = some req) :
    req.number = number ∧ req.channel = channel ∧ Serialized req.type ∧ ¬OnPath req.type ∧ (req.fd = none ∨ req.fd = h.file) ∧
      (req.dir = none ∨ req.dir = h.dir) := by
  have ofOffset : ∀ {offset : Int} {a b : ReqType}, Serialized a → Serialized b → ¬OnPath a → ¬OnPath b →
      Serialized (if offset ≥ 0 then a else b) ∧ ¬OnPath (if offset ≥ 0 then a else b) := by
    intro offset a b sa sb pa pb
    split
    · exact ⟨sa,pa⟩
    · exact ⟨sb,pb⟩
  cases c with
  | onPath type => cases made
  | atOnce err files => cases made
  | close id =>
    simp only [request] at made
    split at made <;> cases made <;> simp [Serialized,OnPath]
  | read name offset len =>
    cases made
    obtain ⟨serialized,apart⟩ := @ofOffset offset .seekRead .read trivial trivial id id
    exact ⟨rfl,rfl,serialized,apart,.inr rfl,.inl rfl⟩
  | write name offset len =>
    cases made
    obtain ⟨serialized,apart⟩ := @ofOffset offset .seekWrite .write trivial trivial id id
    exact ⟨rfl,rfl,serialized,apart,.inr rfl,.inl rfl⟩
  | fstat id => cases made; simp [Serialized,OnPath]
  | fSetStat id => cases made; simp [Serialized,OnPath]
  | readDir id =>
    simp only [request] at made
    split at made <;> cases made
    simp [Serialized,OnPath]

/-- A request for a record of the channel goes to the end of its queue. -/
theorem queued_sound (sound : Sound s) {channel : Nat} (member : h ∈ s.infos) (mine : h.channel = channel) {c : Command}
    (made : request s.commands.length channel h c = some req) :
    Sound ({ s with commands := s.commands ++ [(s.commands.length,channel)] }.setInfo (createIoRequest h req)) := by
  obtain ⟨number,own,serialized,apart,fd,dir⟩ := request_spec made
  obtain ⟨before,after,split,others⟩ := split_info sound member
  obtain ⟨queued,reqs⟩ := createIoRequest_sound (sound.infos h member) (own.trans mine.symm) (.inr serialized) fd dir fun path =>
    absurd path apart
  have kept : (createIoRequest h req).handle = h.handle ∧ (createIoRequest h req).channel = h.channel ∧
      held (createIoRequest h req) = held h := by
    simp only [createIoRequest,postIoRequest]
    split <;> exact ⟨rfl,rfl,rfl⟩
  have change : Change s channel before [h] [createIoRequest h req] after [(s.commands.length,channel)] [] [] [] := by
    refine ⟨mine ▸ sound.channels h member,split,?_,?_,?_,handles_split sound split kept.1,.inr rfl,nofun,?_,?_,?_⟩
    · simpa using mine
    · simpa [kept.2.1] using mine
    · simpa using queued
    · simpa [reqs,number] using (List.perm_append_singleton s.commands.length (h.reqs.map Request.number)).symm
    · simp [kept.2.2]
    · simpa using sound.once
  have set := setInfo_split (s := { s with commands := s.commands ++ [(s.commands.length,channel)] }) split others kept.1
  rw [set]
  simpa using sound.change change s.handleCnt

end Commands

section Completions

/-- What one end of a request does to its record, its replies and descriptors. -/
structure Ends (s : State) (h : OpenFileInfo) (rest : List Request) (number : Nat) (new : List OpenFileInfo) (rs : List Reply)
    (opened closed : List Descriptor) : Prop where
  short : new = [] ∨ ∃ h', new = [h'] ∧ h'.handle = h.handle ∧ h'.channel = h.channel ∧ InfoSound h'
  replies : ∀ r ∈ rs, r.channel = h.channel
  numbers : (number :: rest.map Request.number).Perm (rs.map Reply.number ++ pending new)
  descriptors : (opened ++ held h).Perm (closed ++ new.flatMap held)
  once : (s.opened ++ opened).Nodup

theorem terminateReplies_spec {c : Nat} {reqs : List Request} (serialized : ∀ req ∈ reqs, Serialized req.type) :
    ∃ rs, terminateReplies s c reqs = .ok { s with replies := s.replies ++ rs } ∧ (∀ r ∈ rs, r.channel = c) ∧
      rs.map Reply.number = reqs.map Request.number := by
  induction reqs generalizing s with
  | nil => exact ⟨[],by simp [terminateReplies],nofun,rfl⟩
  | cons req rest ih =>
    let r : Reply := ⟨c,req.number,some req.type,ebadf,none,0,false⟩
    obtain ⟨rs,run,mine,numbers⟩ := ih (s := s.reply r) fun other inside => serialized other (List.mem_cons_of_mem _ inside)
    refine ⟨r :: rs,?_,List.forall_mem_cons.mpr ⟨rfl,mine⟩,by simp [r,numbers]⟩
    simp only [terminateReplies,require_true (serialized req List.mem_cons_self),Code.ok_bind]
    rw [run]
    simp [State.reply,r]

theorem answer_number (h : OpenFileInfo) (req : Request) (done : Completion) :
    (answer h req done).number = req.number ∧ (answer h req done).channel = h.channel := by
  unfold answer
  split <;> try split
  all_goals exact ⟨rfl,rfl⟩

theorem Sound.ends (sound : Sound s) {before after : List OpenFileInfo} {req : Request} {rest : List Request}
    (split : s.infos = before ++ [h] ++ after) (queue : h.reqs = req :: rest) {new : List OpenFileInfo} {rs : List Reply} {opened closed : List Descriptor}
    (ends : Ends s h rest req.number new rs opened closed) :
    Sound { s with
      infos := before ++ new ++ after
      replies := s.replies ++ rs
      opened := s.opened ++ opened
      closed := s.closed ++ closed } := by
  have member : h ∈ s.infos := by simp [split]
  have handles : ((before ++ new ++ after).map OpenFileInfo.handle).Nodup := by
    rcases ends.short with rfl | ⟨h',rfl,same,_⟩
    · have distinct := sound.handles
      rw [split] at distinct
      refine distinct.sublist (List.Sublist.map _ ?_)
      simp
    · exact handles_split sound split same
  have change : Change s h.channel before [h] new after [] rs opened closed := by
    refine ⟨sound.channels h member,split,by simp,fun h' inside => ?_,fun h' inside => ?_,handles,.inl rfl,ends.replies,?_,?_,ends.once⟩
    · rcases ends.short with rfl | ⟨_,rfl,_,same,_⟩
      · cases inside
      · exact List.mem_singleton.mp inside ▸ same
    · rcases ends.short with rfl | ⟨_,rfl,_,_,sound⟩
      · cases inside
      · exact List.mem_singleton.mp inside ▸ sound
    · simpa [queue] using ends.numbers
    · simpa using ends.descriptors
  simpa using sound.change change s.handleCnt

theorem serialized_apart {type : ReqType} (serialized : Serialized type) : ¬OnPath type := by
  cases type <;> simp_all [Serialized,OnPath]

/-- A record whose posted request came to its end. -/
def popped (h : OpenFileInfo) (rest : List Request) (number : Nat) : OpenFileInfo :=
  { h with reqs := rest, postedReq := none, executed := h.executed ++ [number] }

theorem popped_sound (sound : InfoSound h) {rest : List Request} (queue : h.reqs = req :: rest) {file dir : Option Nat}
    (keeps : (file = h.file ∧ dir = h.dir) ∨ (h.file = none ∧ h.dir = none ∧ (file = none ∨ dir = none))) :
    InfoSound (postIoRequest { popped h rest req.number with file, dir }) := by
  obtain ⟨posted,order,own,tail,one,fds,dirs,_⟩ := sound
  have inside : ∀ r ∈ rest, r ∈ h.reqs := fun r member => queue ▸ List.mem_cons_of_mem _ member
  have serialized : ∀ r ∈ rest, Serialized r.type := fun r member => tail r (by simp [queue,member])
  have made : postIoRequest { popped h rest req.number with file, dir } =
      { popped h rest req.number with file, dir, postedReq := rest.head?.map Request.number } := by
    simp [postIoRequest,popped]
  rw [made]
  refine ⟨rfl,?_,fun r member => own r (inside r member),fun r member => serialized r (List.mem_of_mem_tail member),?_,
    fun r member => ?_,fun r member => ?_,fun r member path => absurd path (serialized_apart (serialized r member))⟩
  · simp [popped,order,queue]
  · rcases keeps with ⟨rfl,rfl⟩ | ⟨_,_,either⟩
    · exact one
    · exact either
  · rcases keeps with ⟨rfl,rfl⟩ | ⟨none_,_,_⟩
    · exact fds r (inside r member)
    · exact .inl ((fds r (inside r member)).elim id fun same => same.trans none_)
  · rcases keeps with ⟨rfl,rfl⟩ | ⟨_,none_,_⟩
    · exact dirs r (inside r member)
    · exact .inl ((dirs r (inside r member)).elim id fun same => same.trans none_)

variable {rest : List Request} {r : Reply}

/-- The record stays, and its next request is posted. -/
theorem goOn_sound (sound : Sound s) (member : h ∈ s.infos) (queue : h.reqs = req :: rest) (number : r.number = req.number)
    (channel : r.channel = h.channel) {file dir : Option Nat}
    (keeps : (file = h.file ∧ dir = h.dir) ∨ (h.file = none ∧ h.dir = none ∧ (file = none ∨ dir = none))) {opened : List Descriptor}
    (descriptors : (opened ++ held h).Perm (fileDescriptors file ++ dirDescriptors dir)) (once : (s.opened ++ opened).Nodup) :
    Sound ({ s with replies := s.replies ++ [r], opened := s.opened ++ opened }.setInfo
      (postIoRequest { popped h rest req.number with file, dir })) := by
  obtain ⟨before,after,split,others⟩ := split_info sound member
  have next := popped_sound (sound.infos h member) queue keeps
  have kept : postIoRequest { popped h rest req.number with file, dir } =
      { popped h rest req.number with file, dir, postedReq := rest.head?.map Request.number } := by simp [postIoRequest,popped]
  rw [kept] at next ⊢
  let state : State := { s with replies := s.replies ++ [r], opened := s.opened ++ opened }
  have set : state.setInfo { popped h rest req.number with file, dir, postedReq := rest.head?.map Request.number } = _ :=
    setInfo_split split others rfl
  rw [set]
  have ends : Ends s h rest req.number [{ popped h rest req.number with file, dir, postedReq := rest.head?.map Request.number }] [r]
      opened [] := by
    refine ⟨.inr ⟨_,rfl,rfl,rfl,next⟩,by simpa using channel,?_,?_,once⟩
    · simp [number,popped]
    · simpa [held] using descriptors
  simpa using sound.ends split queue ends

/-- The record goes, with errors for all requests that wait. -/
theorem terminate_sound (sound : Sound s) (member : h ∈ s.infos) (queue : h.reqs = req :: rest) (number : r.number = req.number)
    (channel : r.channel = h.channel) {closed : List Descriptor} (descriptors : (held h).Perm closed) :
    ∃ next, terminateOpenFileInfo { s with replies := s.replies ++ [r], closed := s.closed ++ closed } (popped h rest req.number) =
      .ok next ∧ Sound next := by
  obtain ⟨before,after,split,others⟩ := split_info sound member
  have serialized : ∀ r ∈ rest, Serialized r.type := fun r inside => (sound.infos h member).tail r (by simp [queue,inside])
  obtain ⟨rs,run,mine,numbers⟩ := terminateReplies_spec (s := { s with replies := s.replies ++ [r], closed := s.closed ++ closed })
    (c := h.channel) serialized
  let state : State := { s with replies := s.replies ++ [r] ++ rs, closed := s.closed ++ closed }
  have gone : deleteOpenFileInfo state { popped h rest req.number with reqs := [] } = _ := delete_split split others rfl rfl
  refine ⟨{ s with infos := before ++ [] ++ after, replies := s.replies ++ ([r] ++ rs), closed := s.closed ++ closed },?_,?_⟩
  · simp only [terminateOpenFileInfo]
    rw [Code.require_bind_true (show (popped h rest req.number).postedReq = none from rfl),
      show (popped h rest req.number).channel = h.channel from rfl,show (popped h rest req.number).reqs = rest from rfl,run]
    exact gone.trans (by simp [state])
  · have ends : Ends s h rest req.number [] ([r] ++ rs) [] closed := by
      refine ⟨.inl rfl,List.forall_mem_cons.mpr ⟨channel,mine⟩,?_,by simpa using descriptors,by simpa using sound.once⟩
      simp [number,numbers]
    simpa using sound.ends split queue ends

/-- The record of a request that is alone in it goes. -/
theorem remove_sound (sound : Sound s) (member : h ∈ s.infos) (queue : h.reqs = [req]) (number : r.number = req.number)
    (channel : r.channel = h.channel) (none_ : held h = []) :
    ∃ next, deleteOpenFileInfo { s with replies := s.replies ++ [r] } (popped h [] req.number) = .ok next ∧ Sound next := by
  obtain ⟨before,after,split,others⟩ := split_info sound member
  have gone : deleteOpenFileInfo { s with replies := s.replies ++ [r] } (popped h [] req.number) = _ := delete_split split others rfl rfl
  refine ⟨_,gone,?_⟩
  have ends : Ends s h [] req.number [] [r] [] [] := by
    refine ⟨.inl rfl,by simpa using channel,by simp [number],by simp [none_],by simpa using sound.once⟩
  simpa using sound.ends split queue ends

/-- Types of requests whose record is for them alone. -/
def Alone : ReqType → Prop
  | .stat | .lstat | .setStat | .remove | .roots => True
  | _ => False

instance : DecidablePred Alone
  | .stat | .lstat | .setStat | .remove | .roots => isTrue trivial
  | .open_ | .openDir | .read | .seekRead | .write | .seekWrite | .fstat | .fSetStat | .close | .closeDir | .readDir => isFalse id

theorem doneWith_sound (sound : Sound s) (member : h ∈ s.infos) (queue : h.reqs = req :: rest) {done : Completion}
    (possible : Possible s req done) (alone : Alone req.type → rest = []) :
    ∃ next, doneWith s (popped h rest req.number) req done = .ok next ∧ Sound next := by
  obtain ⟨opens,opensDir,closes,closesDir⟩ := possible
  have info := sound.infos h member
  have here : req ∈ h.reqs := queue ▸ List.mem_cons_self
  have number := (answer_number (popped h rest req.number) req done).1
  have channel : (answer (popped h rest req.number) req done).channel = h.channel := (answer_number ..).2
  have goOn : Sound ((s.reply (answer (popped h rest req.number) req done)).setInfo (postIoRequest (popped h rest req.number))) := by
    have on := goOn_sound sound member queue number channel (.inl ⟨rfl,rfl⟩) (show ([] ++ held h).Perm _ by simp [held])
      (by simpa using sound.once)
    rw [List.append_nil] at on
    exact on
  have empty : OnPath req.type → held h = [] := fun path => by
    obtain ⟨file,dir⟩ := info.onPath req here path
    simp [held,file,dir,fileDescriptors,dirDescriptors]
  have fails : OnPath req.type → ∃ next, terminateOpenFileInfo (s.reply (answer (popped h rest req.number) req done))
      (popped h rest req.number) = .ok next ∧ Sound next := fun path => by
    have ended := terminate_sound sound member queue number channel (show (held h).Perm [] by rw [empty path])
    rw [List.append_nil] at ended
    exact ended
  cases type : req.type with
  | read | seekRead | write | seekWrite | fstat | fSetStat | readDir =>
    all_goals exact ⟨_,by simp only [doneWith,type]; rfl,goOn⟩
  | stat | lstat | setStat | remove | roots =>
    all_goals
      obtain ⟨next,run,ended⟩ := remove_sound sound member (alone (by rw [type]; trivial) ▸ queue) number channel (empty (by rw [type]; trivial))
      exact ⟨next,by simp only [doneWith,type]; exact alone (by rw [type]; trivial) ▸ run,ended⟩
  | close =>
    by_cases error : done.error = 0
    · have file : ∃ fd, req.fd = some fd := Option.ne_none_iff_exists'.mp fun none_ => closes type none_ error
      obtain ⟨fd,some_⟩ := file
      have same : h.file = some fd := ((info.fd req here).resolve_left (by simp [some_])).symm.trans some_
      have noDir : h.dir = none := info.one.resolve_left (by simp [same])
      obtain ⟨next,run,ended⟩ := terminate_sound sound member queue number channel
        (show (held h).Perm (fileDescriptors req.fd) by simp [held,same,noDir,some_,dirDescriptors])
      exact ⟨next,by simp only [doneWith,type,if_pos error]; exact run,ended⟩
    · exact ⟨_,by simp only [doneWith,type,if_neg error]; rfl,goOn⟩
  | closeDir =>
    by_cases error : done.error = 0
    · have dir : ∃ fd, req.dir = some fd := Option.ne_none_iff_exists'.mp fun none_ => closesDir type none_ error
      obtain ⟨fd,some_⟩ := dir
      have same : h.dir = some fd := ((info.dir req here).resolve_left (by simp [some_])).symm.trans some_
      have noFile : h.file = none := info.one.resolve_right (by simp [same])
      obtain ⟨next,run,ended⟩ := terminate_sound sound member queue number channel
        (show (held h).Perm (dirDescriptors req.dir) by simp [held,same,noFile,some_,fileDescriptors])
      exact ⟨next,by simp only [doneWith,type,if_pos error]; exact run,ended⟩
    · exact ⟨_,by simp only [doneWith,type,if_neg error]; rfl,goOn⟩
  | open_ =>
    by_cases error : done.error = 0
    · obtain ⟨file,dir⟩ := info.onPath req here (by rw [type]; trivial)
      have on := goOn_sound sound member queue number channel (.inr ⟨file,dir,.inr dir⟩)
        (show ([Descriptor.file done.rval] ++ held h).Perm (fileDescriptors (some done.rval) ++ dirDescriptors h.dir) by
          simp [held,file,dir,fileDescriptors,dirDescriptors])
        (nodup_snoc sound.once (opens type error))
      exact ⟨_,by simp only [doneWith,type,if_neg (not_not.mpr error)]; rfl,on⟩
    · obtain ⟨next,run,ended⟩ := fails (by rw [type]; trivial)
      exact ⟨next,by simp only [doneWith,type,if_pos error]; exact run,ended⟩
  | openDir =>
    by_cases error : done.error = 0
    · obtain ⟨file,dir⟩ := info.onPath req here (by rw [type]; trivial)
      have on := goOn_sound sound member queue number channel (.inr ⟨file,dir,.inl file⟩)
        (show ([Descriptor.dir done.rval] ++ held h).Perm (fileDescriptors h.file ++ dirDescriptors (some done.rval)) by
          simp [held,file,dir,fileDescriptors,dirDescriptors])
        (nodup_snoc sound.once (opensDir type error))
      exact ⟨_,by simp only [doneWith,type,if_neg (not_not.mpr error)]; rfl,on⟩
    · obtain ⟨next,run,ended⟩ := fails (by rw [type]; trivial)
      exact ⟨next,by simp only [doneWith,type,if_pos error]; exact run,ended⟩

end Completions

section Abandoned

/-- The end of an abandoned request that closes what it held. -/
theorem doneAbandoned_sound (sound : Sound s) (member : req ∈ s.abandoned) {done : Completion} (possible : Possible s req done)
    (closes : (req.type = .close ∨ req.type = .closeDir) → done.error ≠ 0 → releases req = []) : Sound (doneAbandoned s req done) := by
  obtain ⟨opens,opensDir,_,_⟩ := possible
  have perm := List.perm_cons_erase member
  have frame : ∀ {opened closed : List Descriptor}, (opened ++ releases req).Perm closed → (s.opened ++ opened).Nodup →
      Sound { s with abandoned := s.abandoned.erase req, opened := s.opened ++ opened, closed := s.closed ++ closed } := by
    intro opened closed descriptors once
    obtain ⟨infos,handles,channels,numbers,known,commands,answered,replies,all,_⟩ := sound
    have less : (s.abandoned.erase req).Sublist s.abandoned := List.erase_sublist
    refine ⟨infos,handles,channels,?_,fun n inside => known n ?_,commands,answered,replies,?_,once⟩
    · exact numbers.sublist (List.Sublist.append_left (less.map _) _)
    · exact (List.Sublist.append_left (less.map _) _).subset inside
    · refine List.perm_iff_count.mpr fun d => ?_
      have here := descriptors.count_eq d
      have there := all.count_eq d
      have split := (perm.flatMap_right releases).count_eq d
      simp only [List.flatMap_cons,List.count_append] at here there split ⊢
      omega
  have still : releases req = [] → Sound { s with abandoned := s.abandoned.erase req } := fun none_ => by
    have framed := @frame [] [] (by simp [none_]) (by simpa using sound.once)
    simpa using framed
  have closing : Sound { s with abandoned := s.abandoned.erase req, closed := s.closed ++ releases req } := by
    have framed := @frame [] (releases req) (.refl _) (by simpa using sound.once)
    simpa using framed
  cases type : req.type with
  | stat | lstat | setStat | remove | roots =>
    all_goals
      simp only [doneAbandoned,type]
      exact still (by simp [releases,type])
  | read | seekRead | write | seekWrite | fstat | fSetStat | readDir =>
    all_goals
      simp only [releases,type] at closing
      simp only [doneAbandoned,type]
      exact closing
  | close | closeDir =>
    all_goals
      simp only [doneAbandoned,type]
      split
      · simp only [releases,type] at closing
        exact closing
      · next error => exact still (closes (by simp [type]) error)
  | open_ =>
    simp only [doneAbandoned,type]
    split
    · next error => exact frame (by simp [releases,type]) (nodup_snoc sound.once (opens type error))
    · exact still (by simp [releases,type])
  | openDir =>
    simp only [doneAbandoned,type]
    split
    · next error => exact frame (by simp [releases,type]) (nodup_snoc sound.once (opensDir type error))
    · exact still (by simp [releases,type])

/-- What is posted of a record. -/
def postedOf (h : OpenFileInfo) : List Request := h.reqs.filter fun req => h.postedReq = some req.number

/-- What the end of a channel closes at once. -/
def closing (h : OpenFileInfo) : List Descriptor := if postedOf h = [] then held h else []

theorem closeInfo_eq (s : State) (h : OpenFileInfo) :
    closeInfo s h = { s with abandoned := s.abandoned ++ postedOf h, closed := s.closed ++ closing h } := by
  have posted : h.reqs.filter (fun req => h.postedReq = some req.number) = postedOf h := rfl
  unfold closeInfo closing
  rw [posted]
  cases postedOf h <;> simp [State.setClosed,held]

theorem closeInfos_eq (infos : List OpenFileInfo) (s : State) :
    infos.foldl closeInfo s = { s with abandoned := s.abandoned ++ infos.flatMap postedOf, closed := s.closed ++ infos.flatMap closing } := by
  induction infos generalizing s with
  | nil => simp
  | cons h rest ih => simp [ih,closeInfo_eq]

theorem postedOf_single (distinct : (h.reqs.map Request.number).Nodup) : postedOf h = [] ∨ ∃ req, postedOf h = [req] := by
  have same : ∀ req ∈ postedOf h, h.postedReq = some req.number := fun req inside => by simpa using (List.mem_filter.mp inside).2
  have once : ((postedOf h).map Request.number).Nodup := distinct.sublist (List.filter_sublist.map _)
  rcases queue : postedOf h with _ | ⟨a,_ | ⟨b,rest⟩⟩
  · exact .inl rfl
  · exact .inr ⟨a,rfl⟩
  · rw [queue] at once same
    have equal : a.number = b.number := Option.some.inj ((same a (by simp)).symm.trans (same b (by simp)))
    simp [equal] at once

theorem posted_sublist (infos : List OpenFileInfo) : ((infos.flatMap postedOf).map Request.number).Sublist (pending infos) := by
  induction infos with
  | nil => exact .slnil
  | cons h rest ih =>
    rw [List.flatMap_cons,List.map_append,pending_cons]
    exact (List.filter_sublist.map _).append ih

/-- The descriptors of a record have what is posted as their owner, or are closed. -/
def Covers (h : OpenFileInfo) : Prop := ∀ req ∈ postedOf h, releases req = held h

instance : DecidablePred Covers := fun h => inferInstanceAs (Decidable (∀ req ∈ postedOf h, releases req = held h))

theorem handed_over {infos : List OpenFileInfo} (covers : ∀ h ∈ infos, Covers h)
    (distinct : ∀ h ∈ infos, (h.reqs.map Request.number).Nodup) (d : Descriptor) :
    (infos.flatMap closing).count d + ((infos.flatMap postedOf).flatMap releases).count d = (infos.flatMap held).count d := by
  induction infos with
  | nil => rfl
  | cons h rest ih =>
    have later := ih (fun other inside => covers other (List.mem_cons_of_mem _ inside))
      fun other inside => distinct other (List.mem_cons_of_mem _ inside)
    have here : (closing h).count d + ((postedOf h).flatMap releases).count d = (held h).count d := by
      rcases postedOf_single (distinct h List.mem_cons_self) with none_ | ⟨req,single⟩
      · simp [closing,none_]
      · simp [closing,single,covers h List.mem_cons_self req (by simp [single])]
    simp only [List.flatMap_cons,List.flatMap_append,List.count_append] at later ⊢
    omega

theorem channelCloseListener_sound (sound : Sound s) {channel : Nat} (covers : ∀ h ∈ s.infos, h.channel = channel → Covers h) :
    Sound (channelCloseListener s channel) := by
  obtain ⟨infos,handles,channels,numbers,known,commands,answered,replies,all,once⟩ := sound
  let mine := s.infos.filter fun h => h.channel = channel
  let others := s.infos.filter fun h => h.channel ≠ channel
  have split : s.infos.Perm (mine ++ others) := by
    have both := (List.filter_append_perm (fun h : OpenFileInfo => decide (h.channel = channel)) s.infos).symm
    simpa [mine,others] using both
  have queues : ∀ n, (pending s.infos).count n = (pending mine).count n + (pending others).count n := fun n => by
    rw [← List.count_append,← pending_append]
    exact (split.flatMap_right _).count_eq n
  have less : ∀ n, ((mine.flatMap postedOf).map Request.number).count n ≤ (pending mine).count n := fun n => (posted_sublist mine).count_le n
  have inside : ∀ h ∈ mine, h ∈ s.infos ∧ h.channel = channel := fun h member => by simpa [mine] using member
  have distinct : ∀ h ∈ mine, (h.reqs.map Request.number).Nodup := fun h member => by
    have whole := (List.nodup_append.mp numbers).1
    exact (List.nodup_flatMap.mp whole).1 h (inside h member).1
  have run : channelCloseListener s channel = { s with
      infos := others
      abandoned := s.abandoned ++ mine.flatMap postedOf
      closed := s.closed ++ mine.flatMap closing
      gone := s.gone ++ [channel] } := by
    simp only [channelCloseListener,closeInfos_eq]
    rfl
  rw [run]
  refine ⟨fun h member => infos h (List.mem_of_mem_filter member),handles.sublist (List.filter_sublist.map _),fun h member => ?_,?_,
    fun n member => ?_,commands,fun c notGone => ?_,replies,?_,once⟩
  · have apart : h.channel ≠ channel := by simpa using (List.mem_filter.mp member).2
    simpa [apart] using channels h (List.mem_of_mem_filter member)
  · refine List.nodup_iff_count_le_one.mpr fun n => ?_
    have few := List.nodup_iff_count_le_one.mp numbers n
    have one := queues n
    have two := less n
    simp only [List.map_append,List.count_append] at few ⊢
    omega
  · refine known n ?_
    simp only [List.map_append,List.mem_append] at member ⊢
    have queued : ∀ m, m ∈ pending mine ∨ m ∈ pending others → m ∈ pending s.infos := fun m either => by
      refine (split.flatMap_right _).mem_iff.mpr ?_
      rw [List.flatMap_append]
      exact List.mem_append.mpr either
    rcases member with waits | old | new
    · exact .inl (queued n (.inr waits))
    · exact .inr old
    · exact .inl (queued n (.inl ((posted_sublist mine).subset new)))
  · have apart : c ≠ channel := fun same => notGone (by simp [same])
    have kept : others.filter (fun h => h.channel = c) = s.infos.filter fun h => h.channel = c := by
      rw [List.filter_filter]
      refine List.filter_congr fun h _ => ?_
      by_cases same : h.channel = c <;> simp [same,apart]
    have before := answered c fun old => notGone (List.mem_append_left _ old)
    simpa only [commandsOf,repliesTo,pendingOf,kept] using before
  · refine List.perm_iff_count.mpr fun d => ?_
    have taken := handed_over (fun h member => covers h (inside h member).1 (inside h member).2) distinct d
    have there := all.count_eq d
    have held_ := (split.flatMap_right held).count_eq d
    simp only [List.flatMap_append,List.count_append] at there held_ ⊢
    omega

end Abandoned

section Runs

/-- Requests are for records of the same channel, a record of one request has no other when that ends, and what a closed channel
leaves is closed. -/
def Orderly (s : State) : Event → Prop
  | .command channel c => ∀ h ∈ findOpenFileInfo s c.id, (request s.commands.length channel h c).isSome → h.channel = channel
  | .done number done => (∀ h ∈ s.infos, ∀ req ∈ h.reqs, req.number = number → Alone req.type → h.reqs.length = 1) ∧
      ∀ req ∈ s.abandoned, req.number = number → (req.type = .close ∨ req.type = .closeDir) → done.error ≠ 0 → releases req = []
  | .channelClose channel => ∀ h ∈ s.infos, h.channel = channel → Covers h

instance (s : State) : ∀ e, Decidable (Orderly s e)
  | .command channel c =>
    inferInstanceAs (Decidable (∀ h ∈ findOpenFileInfo s c.id, (request s.commands.length channel h c).isSome → h.channel = channel))
  | .done number done => inferInstanceAs (Decidable ((∀ h ∈ s.infos, ∀ req ∈ h.reqs, req.number = number → Alone req.type →
      h.reqs.length = 1) ∧ ∀ req ∈ s.abandoned, req.number = number → (req.type = .close ∨ req.type = .closeDir) → done.error ≠ 0 →
      releases req = []))
  | .channelClose channel => inferInstanceAs (Decidable (∀ h ∈ s.infos, h.channel = channel → Covers h))

theorem commandHandle_sound (sound : Sound s) {channel : Nat} (isOpen : channel ∉ s.gone) {c : Command}
    (mine : ∀ h ∈ findOpenFileInfo s c.id, (request s.commands.length channel h c).isSome → h.channel = channel) :
    Sound (commandHandle { s with commands := s.commands ++ [(s.commands.length,channel)] } s.commands.length channel c) := by
  have same : findOpenFileInfo { s with commands := s.commands ++ [(s.commands.length,channel)] } c.id = findOpenFileInfo s c.id := rfl
  simp only [commandHandle,same]
  have refused : ∀ {type : Option ReqType}, Sound ({ s with commands := s.commands ++ [(s.commands.length,channel)] }.reply
      ⟨channel,s.commands.length,type,ebadf,none,0,false⟩) := fun {type} => by
    have replied := @reply_sound s sound channel isOpen ⟨channel,s.commands.length,type,ebadf,none,0,false⟩ rfl rfl []
      (by simpa using sound.once)
    simp only [List.append_nil] at replied
    exact replied
  cases found : findOpenFileInfo s c.id with
  | none => exact refused
  | some h =>
    cases made : request s.commands.length channel h c with
    | none =>
      simp only [Option.bind_some,made,Option.map_none]
      exact refused
    | some req =>
      simp only [Option.bind_some,made,Option.map_some]
      have member : h ∈ s.infos := by
        simp only [findOpenFileInfo] at found
        split at found
        · split at found
          · cases found
          · exact List.mem_of_find?_eq_some found
        · cases found
      exact queued_sound sound member (mine h found (by simp [made])) made

/-- A number is in one queue. -/
theorem one_queue (sound : Sound s) {g h : OpenFileInfo} (first : g ∈ s.infos) (second : h ∈ s.infos) {n : Nat}
    (one : n ∈ g.reqs.map Request.number) (two : n ∈ h.reqs.map Request.number) : g = h := by
  by_contra apart
  have disjoint := (List.nodup_flatMap.mp (List.nodup_append.mp sound.numbers).1).2
  have : Std.Symm (Function.onFun List.Disjoint fun h : OpenFileInfo => h.reqs.map Request.number) := ⟨fun _ _ away _ one two => away two one⟩
  exact disjoint.forall first second apart one two

theorem doneIoRequest_sound (sound : Sound s) {number : Nat} {done : Completion}
    (can : ∃ req ∈ s.inFlight, req.number = number ∧ Possible s req done) (orderly : Orderly s (.done number done)) :
    ∃ next, doneIoRequest s number done = .ok next ∧ Sound next := by
  obtain ⟨req,flying,rfl,possible⟩ := can
  obtain ⟨_,ofAbandoned,apart⟩ := List.nodup_append.mp sound.numbers
  cases found : s.infos.find? (OpenFileInfo.hasReq req.number) with
  | none =>
    have absent := List.find?_eq_none.mp found
    have member : req ∈ s.abandoned := by
      rcases List.mem_append.mp flying with queued | member
      · obtain ⟨h,inside,there⟩ := List.mem_flatMap.mp queued
        exact absurd (List.any_eq_true.mpr ⟨req,List.mem_of_mem_filter there,by simp⟩) (absent h inside)
      · exact member
    cases listed : s.abandoned.find? fun other => other.number = req.number with
    | none => exact (List.find?_eq_none.mp listed req member (by simp)).elim
    | some other =>
      have same : other = req := List.inj_on_of_nodup_map ofAbandoned (List.mem_of_find?_eq_some listed) member
        (by simpa using List.find?_some listed)
      subst same
      exact ⟨_,by simp only [doneIoRequest,found,listed]; rfl,doneAbandoned_sound sound member possible (orderly.2 other member rfl)⟩
  | some h =>
    have inside := List.mem_of_find?_eq_some found
    obtain ⟨other,there,same⟩ : ∃ other ∈ h.reqs, other.number = req.number := by
      simpa [OpenFileInfo.hasReq] using List.find?_some found
    have here : req.number ∈ h.reqs.map Request.number := same ▸ List.mem_map_of_mem there
    obtain ⟨queued,posted⟩ : req ∈ h.reqs ∧ h.postedReq = some req.number := by
      rcases List.mem_append.mp flying with queued | member
      · obtain ⟨g,listed,filtered⟩ := List.mem_flatMap.mp queued
        obtain ⟨queued,posted⟩ := List.mem_filter.mp filtered
        obtain rfl := one_queue sound listed inside (List.mem_map_of_mem queued) here
        exact ⟨queued,by simpa using posted⟩
      · exact absurd rfl (apart _ (List.mem_flatMap.mpr ⟨h,inside,here⟩) _ (List.mem_map_of_mem member))
    have info := sound.infos h inside
    cases queue : h.reqs with
    | nil => simp [queue] at queued
    | cons first rest =>
      have front : first.number = req.number := by
        have head := info.posted.symm.trans posted
        simpa [queue] using head
      have distinct : (h.reqs.map Request.number).Nodup := (List.nodup_flatMap.mp (List.nodup_append.mp sound.numbers).1).1 h inside
      have is : first = req := List.inj_on_of_nodup_map distinct (by simp [queue]) queued front
      subst is
      have alone : Alone first.type → rest = [] := fun type => by
        have length := orderly.1 h inside first queued rfl type
        rw [queue] at length
        exact List.eq_nil_of_length_eq_zero (by simpa using length)
      obtain ⟨next,run,after⟩ := doneWith_sound sound inside queue possible alone
      refine ⟨next,?_,after⟩
      simp only [doneIoRequest,found,queue]
      rw [Code.require_bind_true posted,require_trivial,Code.ok_bind]
      exact run

theorem step_sound {e : Event} (sound : Sound s) (can : Enabled s e) (orderly : Orderly s e) : ∃ next, step s e = .ok next ∧ Sound next := by
  cases e with
  | done number done => exact doneIoRequest_sound sound can orderly
  | channelClose channel => exact ⟨_,rfl,channelCloseListener_sound sound orderly⟩
  | command channel c =>
    obtain ⟨isOpen,few,form⟩ := can
    cases c with
    | onPath type => exact commandPath_sound sound isOpen few type
    | atOnce err files =>
      obtain ⟨distinct,fresh⟩ := form
      have once : (s.opened ++ files.map Descriptor.file).Nodup := by
        refine List.nodup_append.mpr ⟨sound.once,distinct.map fun a b same => by simpa using same,?_⟩
        rintro d old _ new rfl
        obtain ⟨fd,listed,rfl⟩ := List.mem_map.mp new
        exact fresh fd listed old
      exact ⟨_,rfl,@reply_sound s sound channel isOpen ⟨channel,s.commands.length,none,err,none,0,false⟩ rfl rfl _ once⟩
    | close id => exact ⟨_,rfl,commandHandle_sound sound isOpen orderly⟩
    | read id offset len => exact ⟨_,rfl,commandHandle_sound sound isOpen orderly⟩
    | write id offset len => exact ⟨_,rfl,commandHandle_sound sound isOpen orderly⟩
    | fstat id => exact ⟨_,rfl,commandHandle_sound sound isOpen orderly⟩
    | fSetStat id => exact ⟨_,rfl,commandHandle_sound sound isOpen orderly⟩
    | readDir id => exact ⟨_,rfl,commandHandle_sound sound isOpen orderly⟩

/-- What a client can rely on: each command of an open channel is answered on it or in a queue; a queue is done in order, one
request after another; and descriptors that are not closed belong to a record, or to a request in flight. -/
structure Served (s : State) : Prop where
  numbered : s.commands.map Prod.fst = List.range s.commands.length
  answered : ∀ channel, channel ∉ s.gone → (commandsOf s channel).Perm (repliesTo s channel ++ pendingOf s channel)
  own : ∀ r ∈ s.replies, (r.number,r.channel) ∈ s.commands
  order : ∀ h ∈ s.infos, h.arrived = h.executed ++ h.reqs.map Request.number ∧ h.postedReq = h.reqs.head?.map Request.number
  descriptors : s.opened.Perm (s.closed ++ (s.infos.flatMap held ++ s.abandoned.flatMap releases)) ∧ s.opened.Nodup

theorem Sound.served (sound : Sound s) : Served s :=
  ⟨sound.commands,sound.answered,sound.replies,fun h inside => ⟨(sound.infos h inside).order,(sound.infos h inside).posted⟩,
    sound.descriptors,sound.once⟩

end Runs

end Tcf.FileSystem
