import Tcf.Cache
import Mathlib.Algebra.Order.Group.Multiset
import Mathlib.Data.List.GetD
import Mathlib.Tactic.Abel

/-! Every entry of a wait list is run again once, its channel is unlocked as often as it was locked, and
its arguments are freed once. -/
namespace Tcf.Cache

/-- The clients in the buffer of an event. -/
def entries (buf : List Client) : List Client := buf.takeWhile fun c => c.client ≠ 0

/-- The client that a call runs. -/
def Frame.at (waitListBuf : List Client) : Frame → List Client
  | .enter => []
  | .notify i _ => [waitListBuf.getD i .null]
  | .event buf => buf.take 1

/-- The clients that a call runs after it. -/
def Frame.behind (waitListBuf : List Client) : Frame → List Client
  | .enter => []
  | .notify i cnt => (waitListBuf.take cnt).drop (i + 1)
  | .event buf => entries buf.tail

def running (s : State) : List Client := s.stack.flatMap (Frame.at s.waitListBuf)

/-- Notified, and not yet run. -/
def noticed (s : State) : List Client := s.posted.flatMap entries ++ s.stack.flatMap (Frame.behind s.waitListBuf)

def waiting (s : State) : List Client := s.cacheList.flatMap s.waitList

/-- Copies of arguments. -/
def copied (clients : List Client) : Multiset Args := ((clients.filter Client.argsCopy).map Client.args : List Args)

/-- The copy of the client that runs, unless it waits already. -/
def current (s : State) : Multiset Args :=
  if s.cacheMissCnt = 0 && s.currentClient.argsCopy then {s.currentClient.args} else 0

/-- The arguments are NULL, or a copy of what was given. -/
def Sound (s : State) (c : Client) : Prop :=
  c.client ≠ 0 ∧ ((c.args = .null ∧ c.argsCopy = false) ∨
    ((∃ n < s.serial, c.args = .block n) ∧ c.argsCopy = true ∧ s.memory c.args = c.given))

/-- The arguments that `cache_enter` was called with. -/
def Entered (s : State) (c : Client) : Prop :=
  c.client ≠ 0 ∧ c.argsCopy = false ∧ c.argsSize = c.given.length ∧ ∃ a, c.args = .caller a ∧ s.memory c.args = c.given

def onChannel (channel : Address) (clients : List Client) : Nat := clients.countP fun c => c.channel = channel

/-- The accounts, with the clients that are still to be run and those that are. -/
structure Books (s : State) (noticed running : List Client) : Prop where
  nodup : s.cacheList.Nodup
  listed : ∀ cache, cache ∈ s.cacheList ↔ s.waitList cache ≠ []
  once : (s.registered : Multiset Client) = (waiting s + noticed + (s.runs.map Prod.fst : List Client) : Multiset Client)
  distinct : (s.registered.map Client.self).Nodup
  bound : ∀ c ∈ s.registered, c.self < s.serial
  locks : ∀ channel, channel ≠ 0 → s.locks channel = onChannel channel (waiting s ++ noticed ++ running)
  copies : (s.allocated : Multiset Args) = s.freed + copied (waiting s ++ noticed) + current s
  fresh : s.allocated.Nodup ∧ ∀ a ∈ s.allocated, ∃ n < s.serial, a = .block n
  sound : ∀ c ∈ waiting s ++ noticed ++ running, Sound s c
  own : ∀ run ∈ s.runs, run.1.args ≠ .null → run.2 = run.1.given

/-- At most one client runs, and `current_client` is that client. -/
inductive Shape (s : State) : Prop where
  | idle (stack : s.stack = []) (none : s.currentClient = .null)
  | entered (stack : s.stack = [.enter]) (some : Sound s s.currentClient ∨ Entered s s.currentClient)
  | again (frame : Frame) (stack : s.stack = [frame]) (here : frame.at s.waitListBuf = [s.currentClient])

structure Inv (s : State) : Prop where
  shape : Shape s
  fits : ∀ i cnt, .notify i cnt ∈ s.stack → cnt ≤ s.waitListBuf.length
  books : Books s (noticed s) (running s)

variable {s : State}

section Lists

theorem onChannel_append (channel : Address) (a b : List Client) : onChannel channel (a ++ b) = onChannel channel a + onChannel channel b :=
  List.countP_append

theorem onChannel_perm (channel : Address) {a b : List Client} (same : a.Perm b) : onChannel channel a = onChannel channel b :=
  same.countP_eq _

theorem copied_append (a b : List Client) : copied (a ++ b) = copied a + copied b := by simp [copied]

theorem copied_perm {a b : List Client} (same : a.Perm b) : copied a = copied b :=
  Multiset.coe_eq_coe.mpr ((same.filter _).map _)

@[simp] theorem copied_nil : copied [] = 0 := rfl

theorem copied_single (c : Client) : copied [c] = if c.argsCopy then {c.args} else 0 := by
  unfold copied
  cases own : c.argsCopy <;> simp [own]

theorem entries_stop {clients : List Client} (some : ∀ c ∈ clients, c.client ≠ 0) : entries (clients ++ [.null]) = clients := by
  unfold entries
  rw [List.takeWhile_append_of_pos (by simpa using some)]
  simp [Client.null]

/-- The entries of one cache, and the others. -/
theorem waiting_split (listed : ∀ cache, cache ∈ s.cacheList ↔ s.waitList cache ≠ [])
    (cache : Address) : (waiting s).Perm (s.waitList cache ++ (s.cacheList.erase cache).flatMap s.waitList) := by
  by_cases member : cache ∈ s.cacheList
  · have split := (List.perm_cons_erase member).flatMap_right s.waitList
    rwa [List.flatMap_cons] at split
  · have empty : s.waitList cache = [] := by
      have absent := mt (listed cache).mpr member
      exact not_not.mp absent
    rw [empty,List.erase_of_not_mem member,List.nil_append]
    exact .refl _

theorem others_update {cacheList : List Address} {waitList : Address → List Client} (nodup : cacheList.Nodup) (cache : Address)
    (list : List Client) : (cacheList.erase cache).flatMap (Function.update waitList cache list) =
      (cacheList.erase cache).flatMap waitList := by
  apply List.flatMap_congr
  intro other member
  apply Function.update_of_ne
  rintro rfl
  exact (List.Nodup.not_mem_erase nodup) member

theorem unlist_waiting (nodup : s.cacheList.Nodup) (listed : ∀ cache, cache ∈ s.cacheList ↔ s.waitList cache ≠ [])
    (cache : Address) : (waiting s).Perm (s.waitList cache ++ waiting (s.unlist cache)) := by
  have others := @others_update s.cacheList s.waitList nodup cache []
  unfold waiting State.unlist
  rw [others]
  exact waiting_split listed cache

theorem unlist_listed (nodup : s.cacheList.Nodup) (listed : ∀ cache, cache ∈ s.cacheList ↔ s.waitList cache ≠ [])
    (cache : Address) : (s.unlist cache).cacheList.Nodup ∧
      ∀ c, c ∈ (s.unlist cache).cacheList ↔ (s.unlist cache).waitList c ≠ [] := by
  refine ⟨nodup.erase _,fun c => ?_⟩
  unfold State.unlist
  dsimp only
  rw [nodup.mem_erase_iff]
  by_cases here : c = cache
  · simp [here]
  · rw [Function.update_of_ne here,← listed c]
    simp [here]

theorem register_waiting (nodup : s.cacheList.Nodup) (listed : ∀ cache, cache ∈ s.cacheList ↔ s.waitList cache ≠ [])
    (cache : Address) : (waiting (s.register cache)).Perm (waiting s ++ [{ s.currentClient with self := s.serial }]) := by
  generalize entry : { s.currentClient with self := s.serial } = c
  have others := @others_update s.cacheList s.waitList nodup cache (s.waitList cache ++ [c])
  unfold waiting State.register
  dsimp only
  rw [entry]
  by_cases empty : s.waitList cache = []
  · have absent : cache ∉ s.cacheList := fun member => (listed cache).mp member empty
    rw [List.erase_of_not_mem absent] at others
    rw [if_pos empty,List.flatMap_append,others,List.flatMap_cons,List.flatMap_nil,Function.update_self,empty]
    exact .refl _
  · have member : cache ∈ s.cacheList := (listed cache).mpr empty
    have split := (List.perm_cons_erase member).flatMap_right (Function.update s.waitList cache (s.waitList cache ++ [c]))
    rw [List.flatMap_cons,others,Function.update_self] at split
    rw [if_neg empty]
    apply split.trans
    have before := (waiting_split listed cache).append_right [c]
    apply List.Perm.trans _ before.symm
    rw [List.append_assoc,List.append_assoc]
    exact List.Perm.append_left _ List.perm_append_comm

theorem register_listed (nodup : s.cacheList.Nodup) (listed : ∀ cache, cache ∈ s.cacheList ↔ s.waitList cache ≠ [])
    (cache : Address) : (s.register cache).cacheList.Nodup ∧
      ∀ c, c ∈ (s.register cache).cacheList ↔ (s.register cache).waitList c ≠ [] := by
  unfold State.register
  dsimp only
  by_cases empty : s.waitList cache = []
  · have absent : cache ∉ s.cacheList := fun member => (listed cache).mp member empty
    rw [if_pos empty]
    refine ⟨List.nodup_append.mpr ⟨nodup,List.nodup_singleton _,?_⟩,fun c => ?_⟩
    · intro a member b same
      rw [List.mem_singleton.mp same]
      rintro rfl
      exact absent member
    · by_cases here : c = cache
      · simp [here]
      · rw [Function.update_of_ne here,← listed c]
        simp [here]
  · rw [if_neg empty]
    refine ⟨nodup,fun c => ?_⟩
    by_cases here : c = cache
    · rw [here,Function.update_self,listed]
      simp [empty]
    · rw [Function.update_of_ne here]
      exact listed c

end Lists

section Steps

variable {s : State}

/-- Nothing runs, and `rest` is to be run next. -/
def Between (s : State) (rest : List Client) : Prop := s.currentClient = .null ∧ Books s (s.posted.flatMap entries ++ rest) []

theorem current_null (none : s.currentClient = .null) : current s = 0 := by
  simp [current,none,Client.null]

theorem Sound.args {c : Client} (sound : Sound s c) (some : c.args ≠ .null) : s.memory c.args = c.given := by
  rcases sound.2 with ⟨none,_⟩ | ⟨_,_,same⟩
  · exact absurd none some
  · exact same

theorem retry_inv {w : Client} {rest : List Client} {frame : Frame} (between : Between s (w :: rest))
    (here : frame.at s.waitListBuf = [w]) (behind : frame.behind s.waitListBuf = rest)
    (fits : ∀ i cnt, frame = .notify i cnt → cnt ≤ s.waitListBuf.length) : Inv (s.retry w frame []) := by
  obtain ⟨idle,books⟩ := between
  have now : running (s.retry w frame []) = [w] := by
    simp [running,State.retry,here]
  have later : noticed (s.retry w frame []) = s.posted.flatMap entries ++ rest := by
    simp [noticed,State.retry,behind]
  refine ⟨.again frame rfl here,fun i cnt member => fits i cnt (List.mem_singleton.mp member).symm,?_⟩
  rw [now,later]
  have all : (waiting s ++ (s.posted.flatMap entries ++ w :: rest) ++ []).Perm
      (waiting s ++ (s.posted.flatMap entries ++ rest) ++ [w]) := by
    rw [List.append_nil,List.append_assoc,List.append_assoc]
    apply List.Perm.append_left
    apply List.Perm.append_left
    exact (List.perm_append_singleton w rest).symm
  have sound : ∀ c ∈ waiting s ++ (s.posted.flatMap entries ++ rest) ++ [w], Sound s c :=
    fun c member => books.sound c (all.mem_iff.mpr member)
  refine ⟨books.nodup,books.listed,?_,books.distinct,books.bound,?_,?_,books.fresh,sound,?_⟩
  · change (s.registered : Multiset Client) = (waiting s + (s.posted.flatMap entries ++ rest : List Client) +
      ((s.runs ++ [(w,s.memory w.args)]).map Prod.fst : List Client) : Multiset Client)
    rw [books.once,List.map_append,List.map_cons,List.map_nil]
    simp only [← Multiset.coe_add,← Multiset.cons_coe,← Multiset.singleton_add,Multiset.coe_nil]
    abel
  · intro channel some
    exact (books.locks channel some).trans (congrArg Nat.cast (onChannel_perm _ all))
  · have own : current (s.retry w frame []) = copied [w] := by
      simp [current,State.retry,copied_single]
    have total := copied_perm all
    rw [List.append_nil,copied_append] at total
    rw [own,add_assoc]
    change (s.allocated : Multiset Args) = s.freed + (copied (waiting s ++ (s.posted.flatMap entries ++ rest)) + copied [w])
    rw [← copied_append,← total,← copied_append,books.copies,current_null idle,add_zero]
  · intro run member some
    rcases List.mem_append.mp member with before | new
    · exact books.own run before some
    · rw [List.mem_singleton.mp new] at some ⊢
      exact (sound w (by simp)).args some

theorem rest_inv (between : Between s []) : Inv { s with stack := [] } := by
  obtain ⟨idle,books⟩ := between
  refine ⟨.idle rfl idle,nofun,?_⟩
  have now : running { s with stack := [] } = [] := rfl
  have later : noticed { s with stack := [] } = s.posted.flatMap entries ++ [] := rfl
  rw [now,later]
  exact ⟨books.nodup,books.listed,books.once,books.distinct,books.bound,books.locks,books.copies,books.fresh,books.sound,books.own⟩

theorem notifyFrom_inv {i cnt : Nat} (between : Between s ((s.waitListBuf.take cnt).drop i)) (fits : cnt ≤ s.waitListBuf.length) :
    Inv (notifyFrom s i cnt []) := by
  unfold notifyFrom
  split
  next more =>
    have inside : i < (s.waitListBuf.take cnt).length := by
      rw [List.length_take]
      omega
    have inside' : i < s.waitListBuf.length := by omega
    rw [List.drop_eq_getElem_cons inside,List.getElem_take] at between
    apply retry_inv _ _ rfl
    · rintro _ _ ⟨⟩
      exact fits
    · rwa [List.getD_eq_getElem _ _ inside']
    · rfl
  next done =>
    have empty : (s.waitListBuf.take cnt).drop i = [] := by
      apply List.drop_eq_nil_of_le
      rw [List.length_take]
      omega
    rw [empty] at between
    exact rest_inv between

theorem eventFrom_inv {buf : List Client} (between : Between s (entries buf)) : Inv (eventFrom s buf []) := by
  cases buf with
  | nil => exact rest_inv between
  | cons c rest =>
    unfold eventFrom
    unfold entries at between
    dsimp only
    split
    next last =>
      rw [List.takeWhile_cons_of_neg (by simpa using last)] at between
      exact rest_inv between
    next more =>
      rw [List.takeWhile_cons_of_pos (by simpa using more)] at between
      exact retry_inv between rfl rfl nofun

/-! The end of a client. -/

theorem end_books {noticed running : List Client} (books : Books s noticed running) : Books s.end noticed running := by
  have idle : current s.end = 0 := current_null rfl
  refine ⟨books.nodup,books.listed,books.once,books.distinct,books.bound,books.locks,?_,books.fresh,books.sound,books.own⟩
  have freed : (s.end.freed : Multiset Args) = s.freed + current s := by
    unfold State.end current
    dsimp only
    split
    · rw [← Multiset.coe_add,Multiset.coe_singleton]
    · rw [add_zero]
  rw [idle,freed,add_zero]
  change (s.allocated : Multiset Args) = _ + copied (waiting s ++ noticed)
  rw [books.copies]
  abel

theorem unlock_books {w : Client} {noticed : List Client} (books : Books s noticed [w]) : Books (s.unlock w.channel) noticed [] := by
  unfold State.unlock
  have count (channel : Address) : onChannel channel [w] = if w.channel = channel then 1 else 0 := by
    simp [onChannel,List.countP_cons]
  have sound : ∀ c ∈ waiting s ++ noticed ++ [], Sound s c := by
    intro c member
    rw [List.append_nil] at member
    exact books.sound c (List.mem_append_left _ member)
  split
  next none =>
    refine ⟨books.nodup,books.listed,books.once,books.distinct,books.bound,fun channel some => ?_,books.copies,books.fresh,
      sound,books.own⟩
    have locks := books.locks channel some
    have other : w.channel ≠ channel := fun same => some (same.symm.trans none)
    rw [onChannel_append,count,if_neg other] at locks
    rwa [List.append_nil]
  next locked =>
    refine ⟨books.nodup,books.listed,books.once,books.distinct,books.bound,fun channel some => ?_,books.copies,books.fresh,
      sound,books.own⟩
    have locks := books.locks channel some
    rw [onChannel_append,count] at locks
    rw [List.append_nil]
    change Function.update s.locks w.channel (s.locks w.channel - 1) channel = onChannel channel (waiting s ++ noticed)
    by_cases here : channel = w.channel
    · subst here
      rw [if_pos rfl] at locks
      rw [Function.update_self,locks]
      omega
    · rw [if_neg fun same => here same.symm] at locks
      rw [Function.update_of_ne here,locks]
      rfl

@[simp] theorem unlock_currentClient (s : State) (channel : Address) : (s.unlock channel).currentClient = s.currentClient := by
  unfold State.unlock
  split <;> rfl

@[simp] theorem unlock_posted (s : State) (channel : Address) : (s.unlock channel).posted = s.posted := by
  unfold State.unlock
  split <;> rfl

@[simp] theorem unlock_waitListBuf (s : State) (channel : Address) : (s.unlock channel).waitListBuf = s.waitListBuf := by
  unfold State.unlock
  split <;> rfl

theorem Inv.single (inv : Inv s) {frame : Frame} {below : List Frame} (stack : s.stack = frame :: below) : below = [] := by
  cases inv.shape with
  | idle empty _ =>
    rw [stack] at empty
    cases empty
  | entered only _ =>
    rw [stack] at only
    exact (List.cons.inj only).2
  | again other only _ =>
    rw [stack] at only
    exact (List.cons.inj only).2

/-- From the end of a client to the next. -/
theorem between_ends {noticed : List Client} {w : Client} (books : Books s (s.posted.flatMap entries ++ noticed) [w]) :
    Between (s.end.unlock w.channel) noticed := by
  refine ⟨by rw [unlock_currentClient]; rfl,?_⟩
  rw [unlock_posted]
  exact unlock_books (end_books books)

variable {next : State}

theorem ends_inv {outcome : Outcome} (inv : Inv s) (run : clientEnds s outcome = .ok next) : Inv next := by
  unfold clientEnds at run
  obtain ⟨_,run⟩ := Code.require_bind_ok.mp run
  obtain ⟨_,run⟩ := Code.require_bind_ok.mp run
  have books := inv.books
  rcases stack : s.stack with _ | ⟨frame,below⟩
  · rw [stack] at run
    cases run
  have only := inv.single stack
  subst only
  have now : running s = frame.at s.waitListBuf := by
    rw [running,stack]
    simp
  have later : noticed s = s.posted.flatMap entries ++ frame.behind s.waitListBuf := by
    rw [noticed,stack]
    simp
  rw [now,later] at books
  rw [stack] at run
  cases frame with
  | enter =>
    cases run
    exact rest_inv ⟨rfl,end_books books⟩
  | notify i cnt =>
    cases run
    have fits := inv.fits i cnt (by rw [stack]; exact List.mem_cons_self)
    apply notifyFrom_inv
    · rw [unlock_waitListBuf]
      exact between_ends books
    · rw [unlock_waitListBuf]
      exact fits
  | event buf =>
    cases buf with
    | nil => cases run
    | cons c rest =>
      cases run
      exact eventFrom_inv (between_ends books)

/-! The start of a client, and of the clients of a cache. -/

theorem Inv.idle (inv : Inv s) (stack : s.stack = []) : s.currentClient = .null ∧ noticed s = s.posted.flatMap entries ++ [] ∧ running s = [] := by
  refine ⟨?_,by rw [noticed,stack]; rfl,by rw [running,stack]; rfl⟩
  cases inv.shape with
  | idle _ none => exact none
  | entered some _ =>
    rw [stack] at some
    cases some
  | again _ some _ =>
    rw [stack] at some
    cases some

theorem Sound.keep {t : State} {c : Client} (sound : Sound s c) (serial : s.serial ≤ t.serial)
    (memory : ∀ n < s.serial, t.memory (.block n) = s.memory (.block n)) : Sound t c := by
  refine ⟨sound.1,sound.2.imp_right ?_⟩
  rintro ⟨⟨n,less,args⟩,copy,same⟩
  refine ⟨⟨n,by omega,args⟩,copy,?_⟩
  rw [args,memory n less,← args]
  exact same

theorem Books.perm {noticed noticed' running : List Client} (books : Books s noticed running) (same : noticed'.Perm noticed) :
    Books s noticed' running := by
  have all : (waiting s ++ noticed' ++ running).Perm (waiting s ++ noticed ++ running) := (same.append_left _).append_right _
  refine ⟨books.nodup,books.listed,?_,books.distinct,books.bound,?_,?_,books.fresh,?_,books.own⟩
  · rw [books.once,Multiset.coe_eq_coe.mpr same]
  · intro channel some
    rw [books.locks channel some,onChannel_perm _ all]
  · rw [books.copies,copied_perm (same.append_left _)]
  · exact fun c member => books.sound c (all.mem_iff.mp member)

theorem unlist_books {noticed running : List Client} (books : Books s noticed running) (cache : Address) :
    Books (s.unlist cache) (noticed ++ s.waitList cache) running := by
  obtain ⟨nodup,listed⟩ := unlist_listed books.nodup books.listed cache
  have taken := unlist_waiting books.nodup books.listed cache
  have all : (waiting (s.unlist cache) ++ (noticed ++ s.waitList cache)).Perm (waiting s ++ noticed) := by
    apply List.Perm.trans _ (taken.append_right noticed).symm
    rw [← List.append_assoc]
    apply List.perm_append_comm.trans
    rw [List.append_assoc]
  have all' := all.append_right running
  refine ⟨nodup,listed,?_,books.distinct,books.bound,?_,?_,books.fresh,?_,books.own⟩
  · have total := Multiset.coe_eq_coe.mpr all
    rw [← Multiset.coe_add,← Multiset.coe_add (waiting s)] at total
    rw [total]
    exact books.once
  · intro channel some
    rw [onChannel_perm _ all']
    exact books.locks channel some
  · rw [copied_perm all]
    exact books.copies
  · exact fun c member => books.sound c (all'.mem_iff.mp member)

section

variable (inv : Inv s)

include inv

theorem notify_inv {cache : Address} (clear : NotNested s (.notify cache)) : Inv (cacheNotify s cache) := by
  unfold cacheNotify
  dsimp only
  split
  · exact inv
  next some =>
    have stack : s.stack = [] := by
      by_contra busy
      exact some (by rw [clear busy]; rfl)
    obtain ⟨idle,later,now⟩ := inv.idle stack
    have books := inv.books
    rw [later,now] at books
    have next := unlist_books books cache
    rw [List.append_nil] at next
    rw [stack]
    apply notifyFrom_inv
    · refine ⟨idle,?_⟩
      rw [List.drop_zero,List.take_left]
      exact ⟨next.nodup,next.listed,next.once,next.distinct,next.bound,next.locks,next.copies,next.fresh,next.sound,next.own⟩
    · simp

theorem notifyLater_inv (cache : Address) : Inv (cacheNotifyLater s cache) := by
  unfold cacheNotifyLater
  split
  · exact inv
  next some =>
    have books := unlist_books inv.books cache
    have listed : ∀ c ∈ s.waitList cache, c.client ≠ 0 := by
      intro c member
      have all : c ∈ waiting s := List.mem_flatMap.mpr ⟨cache,(inv.books.listed cache).mpr some,member⟩
      exact (inv.books.sound c (List.mem_append_left _ (List.mem_append_left _ all))).1
    have same : (noticed { s.unlist cache with posted := s.posted ++ [s.waitList cache ++ [.null]] }).Perm
        (noticed s ++ s.waitList cache) := by
      unfold noticed
      dsimp only [State.unlist]
      rw [List.flatMap_append,List.flatMap_cons,List.flatMap_nil,List.append_nil,entries_stop listed,List.append_assoc,
        List.append_assoc]
      exact List.perm_append_comm.append_left _
    have next := books.perm same
    refine ⟨?_,inv.fits,?_⟩
    · cases inv.shape with
      | idle stack none => exact .idle stack none
      | entered stack some => exact .entered stack some
      | again frame stack here => exact .again frame stack here
    · exact ⟨next.nodup,next.listed,next.once,next.distinct,next.bound,next.locks,next.copies,next.fresh,next.sound,next.own⟩

theorem dispatch_inv (stack : s.stack = []) (run : dispatch s = .ok next) : Inv next := by
  obtain ⟨idle,later,now⟩ := inv.idle stack
  have books := inv.books
  unfold dispatch at run
  rcases queue : s.posted with _ | ⟨buf,posted⟩
  · rw [queue] at run
    cases run
  rw [later,now,queue,List.flatMap_cons,List.append_nil] at books
  rw [queue] at run
  cases run
  rw [stack]
  have next := books.perm List.perm_append_comm
  apply eventFrom_inv
  exact ⟨idle,next.nodup,next.listed,next.once,next.distinct,next.bound,next.locks,next.copies,next.fresh,next.sound,next.own⟩

/-! The client that runs. -/

theorem Inv.current_sound (busy : s.stack ≠ []) : Sound s s.currentClient ∨ (s.stack = [.enter] ∧ Entered s s.currentClient) := by
  cases inv.shape with
  | idle stack _ => exact absurd stack busy
  | entered stack some => exact some.imp_right fun entered => ⟨stack,entered⟩
  | again frame stack here =>
    have now : running s = [s.currentClient] := by
      rw [running,stack]
      simpa using here
    exact .inl (inv.books.sound _ (by rw [now]; simp))

theorem Inv.stack_empty (none : s.currentClient.client = 0) : s.stack = [] := by
  by_contra busy
  rcases inv.current_sound busy with sound | ⟨_,entered⟩
  · exact sound.1 none
  · exact entered.1 none

/-- A client that was entered and did not wait has no copy. -/
theorem begin_inv (stack : s.stack = []) {c : Client} {idCnt : Nat} {memory : Args → List UInt8}
    (own : c.argsCopy = false) (same : ∀ n, memory (.block n) = s.memory (.block n))
    (some : Sound { s with memory } c ∨ Entered { s with memory } c) :
    Inv { s with idCnt, stack := [.enter], memory, currentClient := c }.begin := by
  obtain ⟨idle,later,now⟩ := inv.idle stack
  have books := inv.books
  have copies := books.copies
  rw [later,now] at books
  rw [current_null idle,later] at copies
  refine ⟨.entered rfl some,fun i cnt member => (nomatch List.mem_singleton.mp member),?_⟩
  have later' : noticed { s with idCnt, stack := [.enter], memory, currentClient := c }.begin =
      s.posted.flatMap entries ++ [] := rfl
  have now' : running { s with idCnt, stack := [.enter], memory, currentClient := c }.begin = [] := rfl
  have current' : current { s with idCnt, stack := [.enter], memory, currentClient := c }.begin = 0 := by
    simp [current,State.begin,own]
  rw [later',now']
  refine ⟨books.nodup,books.listed,books.once,books.distinct,books.bound,books.locks,?_,books.fresh,fun x member => ?_,books.own⟩
  · rw [current']
    exact copies
  · exact (books.sound x member).keep (Nat.le_refl _) fun n _ => same n

theorem enter_inv {client channel : Address} {args : Option (Address × List UInt8)}
    (run : cacheEnter s client channel args = .ok next) : Inv next := by
  unfold cacheEnter at run
  obtain ⟨some,run⟩ := Code.require_bind_ok.mp run
  obtain ⟨_,run⟩ := Code.require_bind_ok.mp run
  obtain ⟨none,run⟩ := Code.require_bind_ok.mp run
  have stack := inv.stack_empty none
  rw [stack] at run
  generalize nextId s.idCnt = ids at run
  obtain ⟨id,idCnt⟩ := ids
  cases args with
  | none =>
    cases run
    exact begin_inv inv stack rfl (fun _ => rfl) (.inl ⟨some,.inl ⟨rfl,rfl⟩⟩)
  | some args =>
    obtain ⟨a,data⟩ := args
    cases run
    apply begin_inv inv stack rfl
    · intro n
      exact Function.update_of_ne (by simp) ..
    · exact .inr ⟨some,rfl,rfl,a,rfl,Function.update_self ..⟩

theorem exit_inv (run : cacheExit s = .ok next) : Inv next := by
  unfold cacheExit at run
  obtain ⟨_,run⟩ := Code.require_bind_ok.mp run
  obtain ⟨_,run⟩ := Code.require_bind_ok.mp run
  split at run
  · cases run
    exact inv
  · cases run
    have books := inv.books
    refine ⟨?_,inv.fits,?_⟩
    · cases inv.shape with
      | idle stack none => exact .idle stack none
      | entered stack some => exact .entered stack some
      | again frame stack here => exact .again frame stack here
    · exact ⟨books.nodup,books.listed,books.once,books.distinct,books.bound,books.locks,books.copies,books.fresh,books.sound,books.own⟩

/-- The first wait of a client that was entered copies what it was given. -/
theorem copyArgs_inv (busy : s.stack ≠ []) (first : s.cacheMissCnt = 0) :
    Inv s.copyArgs ∧ Sound s.copyArgs s.copyArgs.currentClient := by
  rcases inv.current_sound busy with sound | ⟨stack,client,own,size,a,caller,given⟩
  · have same : s.copyArgs = s := by
      unfold State.copyArgs
      rcases sound.2 with ⟨none,_⟩ | ⟨_,copy,_⟩
      · simp [none]
      · simp [copy]
    rw [same]
    exact ⟨inv,sound⟩
  · have books := inv.books
    have fresh : Args.block s.serial ∉ s.allocated := by
      intro member
      obtain ⟨n,less,same⟩ := books.fresh.2 _ member
      cases same
      exact Nat.lt_irrefl _ less
    have copy : s.copyArgs = { s with
        memory := Function.update s.memory (.block s.serial) s.currentClient.given
        allocated := s.allocated ++ [.block s.serial]
        serial := s.serial + 1
        currentClient := { s.currentClient with args := .block s.serial, argsCopy := true } } := by
      unfold State.copyArgs
      rw [if_pos (by simp [caller,own]),given,size,List.take_length]
    rw [copy]
    generalize next : ({ s with
        memory := Function.update s.memory (.block s.serial) s.currentClient.given
        allocated := s.allocated ++ [.block s.serial]
        serial := s.serial + 1
        currentClient := { s.currentClient with args := .block s.serial, argsCopy := true } } : State) = t
    have sound : Sound t t.currentClient := by
      rw [← next]
      exact ⟨client,.inr ⟨⟨s.serial,Nat.lt_succ_self _,rfl⟩,rfl,Function.update_self ..⟩⟩
    have copies := books.copies
    have none : current s = 0 := by simp [current,own]
    have now : current t = {.block s.serial} := by
      rw [← next]
      simp [current,first]
    rw [none,add_zero] at copies
    refine ⟨⟨.entered (by rw [← next]; exact stack) (.inl sound),by rw [← next]; exact inv.fits,?_⟩,sound⟩
    have keep {c : Client} (old : Sound s c) : Sound t c := by
      apply old.keep
      · rw [← next]
        exact Nat.le_succ _
      · intro n less
        rw [← next]
        apply Function.update_of_ne
        rintro ⟨⟩
        exact Nat.lt_irrefl _ less
    subst next
    refine ⟨books.nodup,books.listed,books.once,books.distinct,fun c member => Nat.lt_succ_of_lt (books.bound c member),
      books.locks,?_,⟨?_,?_⟩,fun c member => keep (books.sound c member),books.own⟩
    · rw [now]
      change ((s.allocated ++ [.block s.serial] : List Args) : Multiset Args) = s.freed + copied (waiting s ++ noticed s) + _
      rw [← copies,← Multiset.coe_add,Multiset.coe_singleton]
    · dsimp only
      rw [List.nodup_append]
      refine ⟨books.fresh.1,List.nodup_singleton _,fun a member b last => ?_⟩
      rw [List.mem_singleton.mp last]
      rintro rfl
      exact fresh member
    · intro a member
      rcases List.mem_append.mp member with old | new
      · obtain ⟨n,less,same⟩ := books.fresh.2 a old
        exact ⟨n,Nat.lt_succ_of_lt less,same⟩
      · exact ⟨s.serial,Nat.lt_succ_self _,List.mem_singleton.mp new⟩

omit inv in
theorem lock_spec (s : State) (channel : Address) : ∃ locks, s.lock channel = { s with locks } ∧
    ∀ other, other ≠ 0 → locks other = s.locks other + if channel = other then 1 else 0 := by
  unfold State.lock
  split
  next none =>
    refine ⟨s.locks,rfl,fun other some => ?_⟩
    rw [if_neg fun same => some (same.symm.trans none),add_zero]
  next some =>
    refine ⟨_,rfl,fun other _ => ?_⟩
    by_cases here : other = channel
    · rw [here,Function.update_self,if_pos rfl]
    · rw [Function.update_of_ne here,if_neg fun same => here same.symm,add_zero]

/-- The client that runs is entered into a list, and its channel is locked. -/
theorem register_inv (sound : Sound s s.currentClient) (first : s.cacheMissCnt = 0)
    (cache : Address) (misses : Nat) : Inv { (s.lock s.currentClient.channel).register cache with cacheMissCnt := misses + 1 } := by
  have books := inv.books
  obtain ⟨locks,same,count⟩ := lock_spec s s.currentClient.channel
  rw [same]
  generalize entry : { s.currentClient with self := s.serial } = c
  have waits := register_waiting books.nodup books.listed cache
  obtain ⟨nodup,listed⟩ := register_listed books.nodup books.listed cache
  rw [entry] at waits
  generalize next : ({ ({ s with locks } : State).register cache with cacheMissCnt := misses + 1 } : State) = t
  have keep {x : Client} (old : Sound s x) : Sound t x := by
    subst next
    exact old.keep (Nat.le_succ _) fun _ _ => rfl
  have waits' : (waiting t).Perm (waiting s ++ [c]) := by
    subst next
    exact waits
  have sound' : Sound t c := by
    rw [← entry]
    exact keep sound
  have all : (waiting t ++ noticed s ++ running s).Perm (waiting s ++ noticed s ++ running s ++ [c]) := by
    have moved := ((waits'.append_right (noticed s)).append_right (running s))
    apply moved.trans
    rw [List.append_assoc,List.append_assoc,List.append_assoc,List.append_assoc]
    apply List.Perm.append_left
    apply List.perm_append_comm.trans
    rw [List.append_assoc]
  have now : current t = 0 := by
    subst next
    simp [current]
  have own : current s = copied [c] := by
    rw [copied_single,← entry]
    simp [current,first]
  have registered : t.registered = s.registered ++ [c] := by
    subst next
    rw [← entry]
    rfl
  have self : c.self = s.serial := by rw [← entry]
  have channel : c.channel = s.currentClient.channel := by rw [← entry]
  subst next
  refine ⟨?_,inv.fits,nodup,listed,?_,?_,?_,fun other some => ?_,?_,⟨books.fresh.1,?_⟩,fun x member => ?_,books.own⟩
  · cases inv.shape with
    | idle stack none => exact .idle stack none
    | entered stack some => exact .entered stack (.inl (keep sound))
    | again frame stack here => exact .again frame stack here
  · rw [registered,← Multiset.coe_add,books.once,Multiset.coe_eq_coe.mpr waits',← Multiset.coe_add]
    change _ = (waiting s + ([c] : List Client) + noticed s + (s.runs.map Prod.fst : List Client) : Multiset Client)
    abel
  · rw [registered,List.map_append,List.nodup_append]
    refine ⟨books.distinct,List.nodup_singleton _,fun id old id' new => ?_⟩
    obtain ⟨x,member,same⟩ := List.mem_map.mp old
    rw [List.mem_singleton.mp new,self,← same]
    exact Nat.ne_of_lt (books.bound x member)
  · intro x member
    rw [registered] at member
    rcases List.mem_append.mp member with old | new
    · exact Nat.lt_succ_of_lt (books.bound x old)
    · rw [List.mem_singleton.mp new,self]
      exact Nat.lt_succ_self _
  · have balance := onChannel_perm other all
    have one : onChannel other [c] = if s.currentClient.channel = other then 1 else 0 := by
      simp [onChannel,List.countP_cons,channel]
    rw [onChannel_append _ _ [c],one] at balance
    change locks other = (onChannel other (_ ++ noticed s ++ running s) : Int)
    rw [count other some,books.locks other some,balance]
    push_cast
    rfl
  · rw [now,add_zero]
    have moved := copied_perm (waits'.append_right (noticed s))
    change (s.allocated : Multiset Args) = s.freed + copied (_ ++ noticed s)
    rw [moved,books.copies,own,copied_append,copied_append,copied_append]
    abel
  · intro a member
    obtain ⟨n,less,same⟩ := books.fresh.2 a member
    exact ⟨n,Nat.lt_succ_of_lt less,same⟩
  · rcases List.mem_append.mp (all.mem_iff.mp member) with old | new
    · exact keep (books.sound x old)
    · rw [List.mem_singleton.mp new]
      exact sound'

theorem wait_inv {cache : Address} (run : cacheWait s cache = .ok next) : Inv next := by
  unfold cacheWait at run
  obtain ⟨_,run⟩ := Code.require_bind_ok.mp run
  cases run
  split
  next first =>
    obtain ⟨some,first⟩ : s.currentClient.client ≠ 0 ∧ s.cacheMissCnt = 0 := by simpa using first
    have busy : s.stack ≠ [] := by
      intro stack
      rw [(inv.idle stack).1] at some
      exact some rfl
    obtain ⟨inv',sound⟩ := copyArgs_inv inv busy first
    have same : s.copyArgs.cacheMissCnt = s.cacheMissCnt ∧ s.copyArgs.currentClient.channel = s.currentClient.channel := by
      unfold State.copyArgs
      split
      · exact ⟨rfl,rfl⟩
      · exact ⟨rfl,rfl⟩
    have done := register_inv inv' sound (same.1.trans first) cache
    rw [same.2] at done
    exact done _
  next again =>
    have none : current s = 0 ∧ current { s with cacheMissCnt := s.cacheMissCnt + 1 } = 0 := by
      refine ⟨?_,by simp [current]⟩
      by_cases idle : s.stack = []
      · exact current_null (inv.idle idle).1
      · have some : s.currentClient.client ≠ 0 := fun none => idle (inv.stack_empty none)
        have missed : s.cacheMissCnt ≠ 0 := fun first => again (by simp [some,first])
        simp [current,missed]
    have books := inv.books
    have copies := books.copies
    rw [none.1,← none.2] at copies
    refine ⟨?_,inv.fits,books.nodup,books.listed,books.once,books.distinct,books.bound,books.locks,copies,books.fresh,
      books.sound,books.own⟩
    cases inv.shape with
    | idle stack none => exact .idle stack none
    | entered stack some => exact .entered stack some
    | again frame stack here => exact .again frame stack here

theorem step_inv {event : Event} (can : Enabled s event) (clear : NotNested s event)
    (run : step s event = .ok next) : Inv next := by
  cases event with
  | enter client channel args => exact enter_inv inv run
  | wait cache => exact wait_inv inv run
  | exit => exact exit_inv inv run
  | notify cache =>
    cases run
    exact notify_inv inv clear
  | notifyLater cache =>
    cases run
    exact notifyLater_inv inv cache
  | ends outcome => exact ends_inv inv run
  | dispatch => exact dispatch_inv inv can.1 run

end

theorem initial_inv : Inv State.initial := by
  refine ⟨.idle rfl rfl,nofun,List.nodup_nil,fun _ => ?_,rfl,List.nodup_nil,nofun,fun _ _ => rfl,rfl,⟨List.nodup_nil,nofun⟩,nofun,nofun⟩
  simp [State.initial]

end Steps

/-- In runs without nested notifications: what was registered still waits, is about to be run, or was run, once and with its
own arguments; a channel is locked once for each of its clients that wait or run again; and the copies that are not freed
are those of clients that did not end. -/
theorem wakeups_once {events : List Event} {final : State} (run : clients.exec State.initial events = .ok final)
    (clear : clients.Meets NotNested State.initial events) :
    (final.registered.Nodup ∧ (final.registered : Multiset Client) =
      (waiting final + noticed final + (final.runs.map Prod.fst : List Client) : Multiset Client)) ∧
    (∀ run ∈ final.runs, run.1.args ≠ .null → run.2 = run.1.given) ∧
    (∀ channel, channel ≠ 0 →
      final.locks channel = onChannel channel (waiting final ++ noticed final ++ running final)) ∧
    (final.allocated.Nodup ∧ (final.allocated : Multiset Args) =
      final.freed + copied (waiting final ++ noticed final) + current final) ∧
    (final.stack = [] → final.posted = [] → noticed final = [] ∧ running final = [] ∧ current final = 0) := by
  have inv : Inv final := clients.exec_invariant Inv (fun s e next inv can clear run => step_inv inv can clear run)
    initial_inv run clear
  have books := inv.books
  refine ⟨⟨books.distinct.of_map _,books.once⟩,books.own,books.locks,⟨books.fresh.1,books.copies⟩,fun stack posted => ?_⟩
  obtain ⟨idle,later,now⟩ := inv.idle stack
  rw [later,now,posted]
  exact ⟨rfl,rfl,current_null idle⟩

/-- A client waits for two caches in turn, the second notified later and by a client of the first. -/
theorem wakeups_once_run : ∃ events final, clients.exec State.initial events = .ok final ∧ final.runs.length = 3 ∧
    final.freed.length = 2 ∧ ((final.registered.Nodup ∧ (final.registered : Multiset Client) =
      (waiting final + noticed final + (final.runs.map Prod.fst : List Client) : Multiset Client)) ∧
    (∀ run ∈ final.runs, run.1.args ≠ .null → run.2 = run.1.given) ∧
    (∀ channel, channel ≠ 0 →
      final.locks channel = onChannel channel (waiting final ++ noticed final ++ running final)) ∧
    (final.allocated.Nodup ∧ (final.allocated : Multiset Args) =
      final.freed + copied (waiting final ++ noticed final) + current final) ∧
    (final.stack = [] → final.posted = [] → noticed final = [] ∧ running final = [] ∧ current final = 0)) := by
  let events : List Event := [.enter 1 10 (some (500,[1])),.wait 7,.ends .raised,.enter 2 20 (some (500,[2])),.wait 7,.ends .raised,
    .notify 7,.wait 8,.ends .raised,.exit,.notifyLater 8,.ends .returned,.dispatch,.exit,.ends .returned]
  obtain ⟨final,run,runs,freed⟩ : ∃ final, clients.exec State.initial events = .ok final ∧ final.runs.length = 3 ∧
      final.freed.length = 2 := by decide +kernel
  have clear : clients.Meets NotNested State.initial events := by decide +kernel
  exact ⟨events,final,run,runs,freed,wakeups_once run clear⟩

/-- Two caches with two clients each, and a client of the first that notifies the second. -/
def nestedNotify : List Event :=
  [.enter 1 10 (some (500,[1])),.wait 7,.ends .raised,.enter 2 20 (some (500,[2])),.wait 7,.ends .raised,
    .enter 3 30 (some (500,[3])),.wait 8,.ends .raised,.enter 4 40 (some (500,[4])),.wait 8,.ends .raised,
    .notify 7,.exit,.notify 8,.exit,.ends .returned,.exit,.ends .returned]

/-- The outer client cannot return. If it ends with an error, the client behind it is not run, and one of the second cache is
run again, with arguments that were freed. -/
theorem wakeups_nested : clients.exec State.initial (nestedNotify ++ [.ends .returned]) = .error .assertion ∧
    ∃ final, clients.exec State.initial (nestedNotify ++ [.ends .raised,.exit,.ends .returned]) = .ok final ∧
      waiting final = [] ∧ noticed final = [] ∧ final.registered.map Client.client = [1,2,3,4] ∧
      final.runs.map (fun run => run.1.client) = [1,3,4,4] ∧ final.locks 10 = 1 ∧ final.locks 30 = -1 ∧
      ¬final.freed.Nodup := by decide +kernel

end Tcf.Cache
