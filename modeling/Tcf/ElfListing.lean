import Tcf.ElfAddresses

/-! The files that are mapped in a range of addresses, listed one after another. Iterations are kept on a stack;
the mark of the files that have been listed is one for all of them. -/
namespace Tcf.ElfListing

open Elf

section Calls

/-- The memory map of a context when an iteration begins. `mapError` is the error of `memory_map_get`, and `reported`
the error of a region without an ID whose file cannot be opened for another reason than `ENOENT`. -/
structure Source where
  world : World
  mapError : Option Nat
  reported : Region → Option Nat

/-- What a call returns: NULL with `errno` 0, or with the `errno` of an error. -/
inductive Answer where
  | file (f : FileId)
  | done
  | failed (errno : Nat)
  deriving DecidableEq, Repr

/-- `ElfListState`; `todo` are the regions from `pos` on. The answers, the newest first, are of the model. -/
structure ElfListState where
  ctx : Nat
  source : Source
  map : List Region
  todo : List Region
  answers : List Answer

/-- The marks of the files, and `elf_list_state` -/
structure State where
  listed : FileId → Bool
  stack : List ElfListState

/-- The loop of `elf_list_next` -/
def nextFile (source : Source) (listed : FileId → Bool) : List Region → Answer × List Region × (FileId → Bool)
  | [] => (.done,[],listed)
  | r :: rest =>
    match source.world.openFile r with
    | some f => if listed f then nextFile source listed rest else (.file f,rest,Function.update listed f true)
    | none =>
      match source.reported r with
      | some errno => (.failed errno,rest,listed)
      | none => nextFile source listed rest

/-- `elf_list_next` on the iteration that began last -/
def advance (listed : FileId → Bool) (it : ElfListState) (below : List ElfListState) : State :=
  let (answer,todo,listed) := nextFile it.source listed it.todo
  ⟨listed,{ it with todo, answers := answer :: it.answers } :: below⟩

/-- `elf_list_first` -/
def elfListFirst (s : State) (ctx : Nat) (source : Source) (addrMin addrMax : Addr) : State :=
  match source.mapError with
  | some errno => ⟨s.listed,⟨ctx,source,[],[],[.failed errno]⟩ :: s.stack⟩
  | none =>
    let map := elfGetMap source.world addrMin addrMax
    if map = [] then ⟨s.listed,⟨ctx,source,[],[],[.done]⟩ :: s.stack⟩
    else advance (fun _ => false) ⟨ctx,source,map,map,[]⟩ s.stack

/-- `elf_list_next`, where its assertions hold -/
def elfListNext (s : State) (ctx : Nat) : Option State :=
  match s.stack with
  | [] => none
  | it :: below => if it.ctx = ctx ∧ it.map ≠ [] then some (advance s.listed it below) else none

/-- `elf_list_done` -/
def elfListDone (s : State) (ctx : Nat) : Option State :=
  match s.stack with
  | [] => none
  | it :: below => if it.ctx = ctx then some ⟨s.listed,below⟩ else none

inductive Call where
  | first (ctx : Nat) (source : Source) (addrMin addrMax : Addr)
  | next (ctx : Nat)
  | done (ctx : Nat)

def step (s : State) : Call → Option State
  | .first ctx source addrMin addrMax => some (elfListFirst s ctx source addrMin addrMax)
  | .next ctx => elfListNext s ctx
  | .done ctx => elfListDone s ctx

def start : State := ⟨fun _ => false,[]⟩

/-- The states that calls lead to; calls on an iteration are calls on the one that began last. -/
def exec (calls : List Call) : Option State := calls.foldlM step start

end Calls

section Lists

/-- The files that an iteration has returned -/
def ElfListState.returned (it : ElfListState) : List FileId :=
  it.answers.filterMap fun | .file f => some f | _ => none

/-- The files that are mapped and can be opened -/
def ElfListState.files (it : ElfListState) : List FileId := it.map.filterMap it.source.world.openFile

/-- Every file at most once and no other files; NULL with an `errno` of 0 when every file has been returned, and with
another one where there is such an error. -/
structure ElfListState.Exact (it : ElfListState) : Prop where
  once : it.returned.Nodup
  mapped : ∀ f ∈ it.returned, f ∈ it.files
  complete : it.answers.head? = some .done → ∀ f ∈ it.files, f ∈ it.returned
  reported : ∀ errno, it.answers.head? = some (.failed errno) →
    it.source.mapError = some errno ∨ ∃ r ∈ it.map, it.source.reported r = some errno

/-- The marks that are read up to the next file say which files the iteration has returned. -/
def Honest (source : Source) (listed : FileId → Bool) (returned : List FileId) : List Region → Prop
  | [] => True
  | r :: rest =>
    match source.world.openFile r with
    | some f => (listed f = true ↔ f ∈ returned) ∧ (listed f = true → Honest source listed returned rest)
    | none => source.reported r = none → Honest source listed returned rest

/-- The state before a call has such marks. -/
def Fits (s : State) : Call → Prop
  | .next _ => ∀ it ∈ s.stack.head?, Honest it.source s.listed it.returned it.todo
  | _ => True

/-- A run whose calls all fit -/
def FitsAll : State → List Call → Prop
  | _, [] => True
  | s, call :: calls => Fits s call ∧ ∀ s' ∈ step s call, FitsAll s' calls

end Lists

section Steps

variable {source : Source} {listed : FileId → Bool} {returned : List FileId}

/-- What an answer says of the regions that were read for it. -/
def Answers (source : Source) (returned : List FileId) (read rest : List Region) : Answer → Prop
  | .file f => f ∉ returned ∧ f ∈ read.filterMap source.world.openFile ∧
      ∀ g ∈ read.filterMap source.world.openFile, g ∈ returned ∨ g = f
  | .done => rest = [] ∧ ∀ g ∈ read.filterMap source.world.openFile, g ∈ returned
  | .failed errno => (∃ r ∈ read, source.reported r = some errno) ∧ ∀ g ∈ read.filterMap source.world.openFile, g ∈ returned

/-- A region before the others whose file has been returned, or that has none. -/
theorem Answers.before {r : Region} {read rest : List Region} {answer : Answer}
    (passed : ∀ f ∈ source.world.openFile r, f ∈ returned) (answers : Answers source returned read rest answer) :
    Answers source returned (r :: read) rest answer := by
  have files {g : FileId} (member : g ∈ (r :: read).filterMap source.world.openFile) :
      g ∈ returned ∨ g ∈ read.filterMap source.world.openFile := by
    obtain ⟨r',there,opened⟩ := List.mem_filterMap.mp member
    rcases List.mem_cons.mp there with rfl | there
    · exact .inl (passed g opened)
    · exact .inr (List.mem_filterMap.mpr ⟨r',there,opened⟩)
  have later {g : FileId} (member : g ∈ read.filterMap source.world.openFile) :
      g ∈ (r :: read).filterMap source.world.openFile := by
    obtain ⟨r',there,opened⟩ := List.mem_filterMap.mp member
    exact List.mem_filterMap.mpr ⟨r',List.mem_cons_of_mem _ there,opened⟩
  cases answer with
  | file f =>
    obtain ⟨fresh,there,all⟩ := answers
    exact ⟨fresh,later there,fun g member => (files member).elim .inl (all g)⟩
  | done =>
    obtain ⟨ended,all⟩ := answers
    exact ⟨ended,fun g member => (files member).elim id (all g)⟩
  | failed errno =>
    obtain ⟨⟨r',there,error⟩,all⟩ := answers
    exact ⟨⟨r',List.mem_cons_of_mem _ there,error⟩,fun g member => (files member).elim id (all g)⟩

/-- With honest marks the loop gives the next file that has not been returned. -/
theorem nextFile_answers (todo : List Region) (honest : Honest source listed returned todo) :
    ∃ read, todo = read ++ (nextFile source listed todo).2.1 ∧
      Answers source returned read (nextFile source listed todo).2.1 (nextFile source listed todo).1 := by
  induction todo with
  | nil => exact ⟨[],rfl,rfl,nofun⟩
  | cons r rest ih =>
    cases opened : source.world.openFile r with
    | some f =>
      simp only [Honest,opened] at honest
      simp only [nextFile,opened]
      by_cases mark : listed f = true
      · obtain ⟨read,split,answers⟩ := ih (honest.2 mark)
        rw [if_pos mark]
        refine ⟨r :: read,congrArg (r :: ·) split,answers.before fun g same => ?_⟩
        rw [opened] at same
        cases same
        exact honest.1.mp mark
      · rw [if_neg mark]
        refine ⟨[r],rfl,fun there => mark (honest.1.mpr there),by simp [opened],fun g member => ?_⟩
        exact .inr (by simpa [opened,eq_comm] using member)
    | none =>
      simp only [Honest,opened] at honest
      simp only [nextFile,opened]
      cases error : source.reported r with
      | some errno => exact ⟨[r],rfl,⟨r,List.mem_singleton_self r,error⟩,by simp [opened]⟩
      | none =>
        obtain ⟨read,split,answers⟩ := ih (honest error)
        refine ⟨r :: read,congrArg (r :: ·) split,answers.before fun g same => ?_⟩
        rw [opened] at same
        cases same

end Steps

section Runs

/-- An iteration that is exact, and has returned the files of the regions before `todo`. -/
structure Kept (it : ElfListState) : Prop where
  exact : it.Exact
  read : ∃ read, it.map = read ++ it.todo ∧ ∀ f, f ∈ it.returned ↔ f ∈ read.filterMap it.source.world.openFile

/-- The iteration after an answer -/
def answered (listed : FileId → Bool) (it : ElfListState) : ElfListState :=
  { it with todo := (nextFile it.source listed it.todo).2.1, answers := (nextFile it.source listed it.todo).1 :: it.answers }

theorem advance_stack (listed : FileId → Bool) (it : ElfListState) (below : List ElfListState) :
    (advance listed it below).stack = answered listed it :: below := rfl

theorem answered_kept {listed : FileId → Bool} {it : ElfListState} (kept : Kept it)
    (honest : Honest it.source listed it.returned it.todo) : Kept (answered listed it) := by
  obtain ⟨before,split,passed⟩ := kept.read
  obtain ⟨read,again,answers⟩ := nextFile_answers it.todo honest
  have whole : it.map = (before ++ read) ++ (nextFile it.source listed it.todo).2.1 := by
    rw [List.append_assoc,← again,split]
  have opened (f : FileId) : f ∈ (before ++ read).filterMap it.source.world.openFile ↔
      f ∈ it.returned ∨ f ∈ read.filterMap it.source.world.openFile := by
    rw [List.filterMap_append,List.mem_append,passed]
  have mapped (f : FileId) (member : f ∈ (before ++ read).filterMap it.source.world.openFile) : f ∈ it.files := by
    rw [ElfListState.files,whole,List.filterMap_append]
    exact List.mem_append_left _ member
  cases answer : (nextFile it.source listed it.todo).1 with
  | file f =>
    rw [answer] at answers
    obtain ⟨fresh,there,all⟩ := answers
    have returned : (answered listed it).returned = f :: it.returned := by
      simp [answered,ElfListState.returned,answer]
    have same (g : FileId) : g ∈ (answered listed it).returned ↔ g ∈ (before ++ read).filterMap it.source.world.openFile := by
      rw [returned,opened,List.mem_cons]
      constructor
      · rintro (rfl | old)
        · exact .inr there
        · exact .inl old
      · rintro (old | now)
        · exact .inr old
        · exact (all g now).symm
    refine ⟨⟨?_,fun g member => mapped g ((same g).mp member),?_,?_⟩,before ++ read,whole,same⟩
    · rw [returned]
      exact List.nodup_cons.mpr ⟨fresh,kept.exact.once⟩
    · simp [answered,answer]
    · simp [answered,answer]
  | done =>
    rw [answer] at answers
    obtain ⟨ended,all⟩ := answers
    have returned : (answered listed it).returned = it.returned := by
      simp [answered,ElfListState.returned,answer]
    have same (g : FileId) : g ∈ (answered listed it).returned ↔ g ∈ (before ++ read).filterMap it.source.world.openFile := by
      rw [returned,opened]
      exact ⟨.inl,fun either => either.elim id (all g)⟩
    refine ⟨⟨returned ▸ kept.exact.once,fun g member => mapped g ((same g).mp member),fun _ g member => ?_,?_⟩,
      before ++ read,whole,same⟩
    · refine (same g).mpr ?_
      have member : g ∈ it.map.filterMap it.source.world.openFile := member
      rwa [whole,ended,List.append_nil] at member
    · simp [answered,answer]
  | failed errno =>
    rw [answer] at answers
    obtain ⟨⟨r,there,error⟩,all⟩ := answers
    have returned : (answered listed it).returned = it.returned := by
      simp [answered,ElfListState.returned,answer]
    have same (g : FileId) : g ∈ (answered listed it).returned ↔ g ∈ (before ++ read).filterMap it.source.world.openFile := by
      rw [returned,opened]
      exact ⟨.inl,fun either => either.elim id (all g)⟩
    refine ⟨⟨returned ▸ kept.exact.once,fun g member => mapped g ((same g).mp member),?_,fun errno' head => ?_⟩,
      before ++ read,whole,same⟩
    · simp [answered,answer]
    · have same : errno = errno' := by simpa [answered,answer] using head
      subst same
      refine .inr ⟨r,?_,error⟩
      rw [show (answered listed it).map = it.map from rfl,whole]
      exact List.mem_append_left _ (List.mem_append_right _ there)

/-- An iteration without a map -/
theorem unmapped_kept {ctx : Nat} {source : Source} {answer : Answer} (none : ∀ f, answer ≠ .file f)
    (error : ∀ errno, answer = .failed errno → source.mapError = some errno) : Kept ⟨ctx,source,[],[],[answer]⟩ := by
  have nothing : (⟨ctx,source,[],[],[answer]⟩ : ElfListState).returned = [] := by
    cases answer with
    | file f => exact absurd rfl (none f)
    | done => rfl
    | failed errno => rfl
  refine ⟨⟨?_,?_,?_,fun errno head => .inl (error errno (by simpa using head))⟩,[],rfl,?_⟩
  all_goals simp [nothing,ElfListState.files]

theorem fresh_kept (ctx : Nat) (source : Source) (map : List Region) : Kept ⟨ctx,source,map,map,[]⟩ :=
  ⟨⟨List.nodup_nil,nofun,nofun,nofun⟩,[],rfl,fun _ => Iff.rfl⟩

/-- Marks that are right for every file -/
theorem honest_of {source : Source} {listed : FileId → Bool} {returned : List FileId} (marks : ∀ f, listed f = true ↔ f ∈ returned)
    (todo : List Region) : Honest source listed returned todo := by
  induction todo with
  | nil => trivial
  | cons r rest ih =>
    rw [Honest]
    split
    · exact ⟨marks _,fun _ => ih⟩
    · exact fun _ => ih

theorem first_kept {s : State} {ctx : Nat} {source : Source} {addrMin addrMax : Addr} (kept : ∀ it ∈ s.stack, Kept it) :
    ∀ it ∈ (elfListFirst s ctx source addrMin addrMax).stack, Kept it := by
  unfold elfListFirst
  split
  · rename_i errno failed
    refine List.forall_mem_cons.mpr ⟨unmapped_kept (by simp) fun errno' same => ?_,kept⟩
    cases same
    exact failed
  · dsimp only
    split
    · exact List.forall_mem_cons.mpr ⟨unmapped_kept (by simp) nofun,kept⟩
    · have honest : Honest source (fun _ => false) [] (elfGetMap source.world addrMin addrMax) := honest_of (by simp) _
      exact List.forall_mem_cons.mpr ⟨answered_kept (fresh_kept ..) honest,kept⟩

/-- A call on honest marks leaves every iteration exact. -/
theorem step_kept {s s' : State} {call : Call} (kept : ∀ it ∈ s.stack, Kept it) (fits : Fits s call) (run : step s call = some s') :
    ∀ it ∈ s'.stack, Kept it := by
  cases call with
  | first ctx source addrMin addrMax =>
    cases run
    exact first_kept kept
  | next ctx =>
    simp only [step,elfListNext] at run
    split at run
    · cases run
    · rename_i it below stack
      split at run
      · cases run
        rw [stack] at kept
        obtain ⟨top,others⟩ := List.forall_mem_cons.mp kept
        have honest := fits it (by rw [stack]; rfl)
        exact List.forall_mem_cons.mpr ⟨answered_kept top honest,others⟩
      · cases run
  | done ctx =>
    simp only [step,elfListDone] at run
    split at run
    · cases run
    · rename_i it below stack
      split at run
      · cases run
        rw [stack] at kept
        exact (List.forall_mem_cons.mp kept).2
      · cases run

theorem exec_kept {calls : List Call} : ∀ {s s' : State}, (∀ it ∈ s.stack, Kept it) → FitsAll s calls → calls.foldlM step s = some s' →
    ∀ it ∈ s'.stack, Kept it := by
  induction calls with
  | nil =>
    intro s s' kept _ run
    cases run
    exact kept
  | cons call calls ih =>
    intro s s' kept fits run
    obtain ⟨s1,first,rest⟩ := Option.bind_eq_some_iff.mp run
    exact ih (step_kept kept fits.1 first) (fits.2 s1 first) rest

/-- No iteration begins while another is under way. -/
def Alone : State → List Call → Prop
  | _, [] => True
  | s, call :: calls => (∀ ctx source addrMin addrMax, call = .first ctx source addrMin addrMax → s.stack = []) ∧
      ∀ s' ∈ step s call, Alone s' calls

/-- The only iteration, and marks that are right for every file while there are regions to come -/
def Marked (s : State) : Prop :=
  ∀ it below, s.stack = it :: below → below = [] ∧ (it.todo = [] ∨ ∀ f, s.listed f = true ↔ f ∈ it.returned)

/-- The loop marks the file that it returns. -/
theorem nextFile_marks (source : Source) (listed : FileId → Bool) (todo : List Region) (g : FileId) :
    (nextFile source listed todo).2.2 g = true ↔ listed g = true ∨ (nextFile source listed todo).1 = .file g := by
  induction todo with
  | nil => simp [nextFile]
  | cons r rest ih =>
    cases opened : source.world.openFile r with
    | some f =>
      simp only [nextFile,opened]
      split
      · exact ih
      · simp only [Function.update_apply,Answer.file.injEq,eq_comm (a := f)]
        split
        · rename_i same
          simp [same]
        · rename_i other
          simp [other]
    | none =>
      simp only [nextFile,opened]
      split
      · simp
      · exact ih

theorem advance_marked {listed : FileId → Bool} {it : ElfListState}
    (marks : it.todo = [] ∨ ∀ f, listed f = true ↔ f ∈ it.returned) : Marked (advance listed it []) := by
  intro it' below stack
  obtain ⟨rfl,rfl⟩ : answered listed it = it' ∧ [] = below := by simpa [advance_stack] using stack
  refine ⟨rfl,?_⟩
  rcases marks with ended | marks
  · left
    simp [answered,ended,nextFile]
  · right
    intro f
    have mark := nextFile_marks it.source listed it.todo f
    rw [marks f] at mark
    refine mark.trans ?_
    cases answer : (nextFile it.source listed it.todo).1 <;> simp [answered,ElfListState.returned,answer,eq_comm,or_comm]

theorem first_marked {s : State} {ctx : Nat} {source : Source} {addrMin addrMax : Addr} (alone : s.stack = []) :
    Marked (elfListFirst s ctx source addrMin addrMax) := by
  unfold elfListFirst
  rw [alone]
  split
  · intro it below stack
    cases stack
    exact ⟨rfl,.inl rfl⟩
  · dsimp only
    split
    · intro it below stack
      cases stack
      exact ⟨rfl,.inl rfl⟩
    · exact advance_marked (.inr fun f => by simp [ElfListState.returned])

theorem step_marked {s s' : State} {call : Call} (marked : Marked s)
    (alone : ∀ ctx source addrMin addrMax, call = .first ctx source addrMin addrMax → s.stack = []) (run : step s call = some s') :
    Marked s' := by
  cases call with
  | first ctx source addrMin addrMax =>
    cases run
    exact first_marked (alone _ _ _ _ rfl)
  | next ctx =>
    simp only [step,elfListNext] at run
    split at run
    · cases run
    · rename_i it below stack
      split at run
      · cases run
        obtain ⟨rfl,marks⟩ := marked it below stack
        exact advance_marked marks
      · cases run
  | done ctx =>
    simp only [step,elfListDone] at run
    split at run
    · cases run
    · rename_i it below stack
      split at run
      · cases run
        obtain ⟨rfl,_⟩ := marked it below stack
        exact nofun
      · cases run

/-- Iterations that are not nested find honest marks. -/
theorem alone_fits {calls : List Call} : ∀ {s : State}, Marked s → Alone s calls → FitsAll s calls := by
  induction calls with
  | nil => intro s _ _; trivial
  | cons call calls ih =>
    intro s marked alone
    refine ⟨?_,fun s' run => ih (step_marked marked alone.1 run) (alone.2 s' run)⟩
    cases call with
    | first ctx source addrMin addrMax => trivial
    | done ctx => trivial
    | next ctx =>
      intro it top
      obtain ⟨below,stack⟩ := List.head?_eq_some_iff.mp top
      rcases (marked it below stack).2 with ended | marks
      · rw [ended]
        trivial
      · exact honest_of marks _

/-- A program and a library, each mapped once -/
def twoFiles : Source where
  world :=
    { regions := [⟨0x1000,0x100,0,0x100,false,1,1,some [97],none,5⟩,⟨0x2000,0x100,0,0x100,false,1,2,some [98],none,5⟩]
      elf := fun f => ⟨[],1,f,.exec,[],[]⟩
      openFile := fun r => some r.ino
      sameFile := fun f r => f = r.ino }
  mapError := none
  reported := fun _ => none

/-- The answers of the iterations that are under way, and the files they are for -/
def outcome (calls : List Call) : Option (List (List Answer × List FileId)) :=
  (exec calls).map fun s => s.stack.map fun it => (it.answers,it.files)

theorem alone_of_next {calls : List Call} : ∀ {s : State}, (∀ call ∈ calls, ∃ ctx, call = .next ctx) → Alone s calls := by
  induction calls with
  | nil => intro s _; trivial
  | cons call calls ih =>
    intro s only
    obtain ⟨⟨ctx,rfl⟩,rest⟩ := List.forall_mem_cons.mp only
    exact ⟨nofun,fun _ _ => ih rest⟩

end Runs

end Tcf.ElfListing
