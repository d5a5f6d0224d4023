import Tcf.MemoryMap

/-! Cached maps are those that the stored maps make, unless an operation changes nothing but the
IDs of the regions of a context, or a context changes that is not the one reported. -/
namespace Tcf.MemoryMap

/-- What the code compares of a region. -/
def MemoryRegion.withoutId (r : MemoryRegion) : MemoryRegion := { r with id := none }

theorem sameAttrs_iff (xs ys : List MemoryRegionAttribute) : sameAttrs xs ys = true ↔ xs = ys := by
  induction xs generalizing ys with
  | nil => cases ys <;> simp [sameAttrs]
  | cons x xs ih =>
    obtain ⟨name,value⟩ := x
    cases ys with
    | nil => simp [sameAttrs]
    | cons y ys =>
      obtain ⟨name',value'⟩ := y
      simp [sameAttrs,ih,and_assoc]

theorem sameRegion_iff (y x : MemoryRegion) (channel : Address) :
    sameRegion y x channel = true ↔ y.withoutId = MemoryRegion.withoutId { x with channel := some channel } := by
  obtain ⟨addr,size,offs,bss,flags,file,sect,query,id,attrs,chan⟩ := y
  obtain ⟨addr',size',offs',bss',flags',file',sect',query',id',attrs',chan'⟩ := x
  simp only [sameRegion,MemoryRegion.withoutId,Bool.and_eq_true,decide_eq_true_eq,sameAttrs_iff,MemoryRegion.mk.injEq]
  constructor
  · rintro ⟨⟨⟨⟨⟨⟨⟨⟨⟨rfl,rfl⟩,rfl⟩,rfl⟩,rfl⟩,rfl⟩,rfl⟩,rfl⟩,rfl⟩,rfl⟩
    simp
  · rintro ⟨rfl,rfl,rfl,rfl,rfl,rfl,rfl,rfl,_,rfl,rfl⟩
    simp

/-- A round of the comparison for a region that applies. -/
def compareOne (clientMap : List MemoryRegion) (st : Bool × Nat) (x : MemoryRegion) : Bool × Nat :=
  if st.1 then
    match clientMap[st.2]? with
    | none => (false,st.2)
    | some y => (decide (y.withoutId = x.withoutId),st.2 + 1)
  else st

theorem compareMap_collect (applies : MemoryRegion → Bool) (clientMap : List MemoryRegion) (channel : Address)
    (map : List MemoryRegion) (st : Bool × Nat) :
    map.foldl (compareRegion applies clientMap channel) st =
      ((map.filter applies).map ({ · with channel := some channel })).foldl (compareOne clientMap) st := by
  induction map generalizing st with
  | nil => rfl
  | cons x map ih =>
    cases applied : applies x with
    | false =>
      have skip : compareRegion applies clientMap channel st x = st := by simp [compareRegion,applied]
      rw [List.foldl_cons,skip,ih,List.filter_cons_of_neg (by simp [applied])]
    | true =>
      have round : compareRegion applies clientMap channel st x =
          compareOne clientMap st { x with channel := some channel } := by
        have decided (y : MemoryRegion) : sameRegion y x channel =
            decide (y.withoutId = MemoryRegion.withoutId { x with channel := some channel }) := by
          rw [Bool.eq_iff_iff,sameRegion_iff,decide_eq_true_iff]
        cases found : clientMap[st.2]? <;> simp [compareRegion,compareOne,applied,decided,found]
      rw [List.foldl_cons,round,ih,List.filter_cons_of_pos applied,List.map_cons,List.foldl_cons]

theorem compareMaps_collect (applies : MemoryRegion → Bool) (clientMap : List MemoryRegion) (maps : List ClientMap)
    (st : Bool × Nat) :
    maps.foldl (fun st m => m.map.foldl (compareRegion applies clientMap m.channel) st) st =
      (collect applies maps).foldl (compareOne clientMap) st := by
  induction maps generalizing st with
  | nil => rfl
  | cons m maps ih => rw [List.foldl_cons,ih,compareMap_collect,collect,collect,List.flatMap_cons,List.foldl_append]

theorem compareOne_stays (clientMap list : List MemoryRegion) (k : Nat) :
    list.foldl (compareOne clientMap) (false,k) = (false,k) := by
  induction list with
  | nil => rfl
  | cons x list ih => exact ih

/-- From the k-th region on. -/
theorem compareOne_iff (clientMap list : List MemoryRegion) (k : Nat) :
    (list.foldl (compareOne clientMap) (true,k)).1 = true ∧
        ¬(list.foldl (compareOne clientMap) (true,k)).2 < clientMap.length ↔
      (clientMap.drop k).map MemoryRegion.withoutId = list.map MemoryRegion.withoutId := by
  induction list generalizing k with
  | nil => simp [List.drop_eq_nil_iff]
  | cons x list ih =>
    rw [List.foldl_cons,List.map_cons]
    by_cases inside : k < clientMap.length
    · have found : clientMap[k]? = some clientMap[k] := List.getElem?_eq_getElem inside
      rw [List.drop_eq_getElem_cons inside,List.map_cons,List.cons.injEq]
      by_cases same : clientMap[k].withoutId = x.withoutId
      · have round : compareOne clientMap (true,k) x = (true,k + 1) := by simp [compareOne,found,same]
        rw [round,ih]
        simp [same]
      · have round : compareOne clientMap (true,k) x = (false,k + 1) := by simp [compareOne,found,same]
        rw [round,compareOne_stays]
        simp [same]
    · have none_ : clientMap[k]? = none := List.getElem?_eq_none (by omega)
      have round : compareOne clientMap (true,k) x = (false,k) := by simp [compareOne,none_]
      rw [round,compareOne_stays,List.drop_eq_nil_of_le (by omega)]
      simp

theorem compareMaps_iff (applies : MemoryRegion → Bool) (clientMap : List MemoryRegion) (maps : List ClientMap) :
    compareMaps applies clientMap maps = true ↔
      clientMap.map MemoryRegion.withoutId = (collect applies maps).map MemoryRegion.withoutId := by
  have whole := compareOne_iff clientMap (collect applies maps) 0
  rw [List.drop_zero] at whole
  rw [← whole]
  simp [compareMaps,compareMaps_collect]

/-- The list of a context: the regions of the maps for it, in the order of the maps. -/
def Contexts.list (contexts : Contexts) (maps : List ClientMap) (ctx : Address) : List MemoryRegion :=
  match contexts.getSymContext ctx with
  | none => []
  | some syms => collect (fun x => contexts.query ctx x.query) (findMaps contexts maps syms)

/-- What becomes of a cached list. -/
def settle (new old : List MemoryRegion) : List MemoryRegion :=
  if old.map MemoryRegion.withoutId = new.map MemoryRegion.withoutId then old else new

theorem settle_again (new old : List MemoryRegion) : settle new (settle new old) = settle new old := by
  unfold settle
  split_ifs <;> simp_all

/-- Contexts that an update looks at. -/
def Contexts.Mapped (contexts : Contexts) (ctx : Address) : Prop :=
  contexts.Live ctx ∧ contexts.getSymContext ctx ≠ none

/-- The lists of some contexts were settled, and listeners were told of changes. -/
structure Refreshed (s next : State) (which : Address → Prop) : Prop where
  contexts : next.contexts = s.contexts
  maps : next.clientMapList = s.clientMapList
  settled : ∀ x, which x → (next.ext x).clientMap = settle (s.contexts.list s.clientMapList x) (s.ext x).clientMap
  kept : ∀ x, ¬which x → (next.ext x).clientMap = (s.ext x).clientMap
  told : ∃ log, next.mappingChanged = s.mappingChanged ++ log ∧
    ∀ x, (next.ext x).clientMap ≠ (s.ext x).clientMap → x ∈ log

variable {s : State}

theorem Refreshed.none {which : Address → Prop} (empty : ∀ x, ¬which x) : Refreshed s s which where
  contexts := rfl
  maps := rfl
  settled x w := absurd w (empty x)
  kept _ _ := rfl
  told := ⟨[],by simp,fun x changed => absurd rfl changed⟩

theorem Refreshed.trans {middle next : State} {p q : Address → Prop} (first : Refreshed s middle p)
    (second : Refreshed middle next q) : Refreshed s next fun x => p x ∨ q x where
  contexts := second.contexts.trans first.contexts
  maps := second.maps.trans first.maps
  settled x which := by
    have new : middle.contexts.list middle.clientMapList x = s.contexts.list s.clientMapList x := by
      rw [first.contexts,first.maps]
    by_cases before : p x
    · by_cases again : q x
      · rw [second.settled x again,first.settled x before,new,settle_again]
      · rw [second.kept x again,first.settled x before]
    · have again : q x := which.resolve_left before
      rw [second.settled x again,first.kept x before,new]
  kept x neither := by
    obtain ⟨before,again⟩ := not_or.mp neither
    rw [second.kept x again,first.kept x before]
  told := by
    obtain ⟨log,same,changes⟩ := first.told
    obtain ⟨log',same',changes'⟩ := second.told
    refine ⟨log ++ log',by rw [same',same,List.append_assoc],fun x changed => ?_⟩
    by_cases here : (middle.ext x).clientMap = (s.ext x).clientMap
    · rw [← here] at changed
      exact List.mem_append_right _ (changes' x changed)
    · exact List.mem_append_left _ (changes x here)

theorem Refreshed.congr {next : State} {p q : Address → Prop} (h : Refreshed s next p) (same : ∀ x, p x ↔ q x) :
    Refreshed s next q := by
  obtain rfl : p = q := funext fun x => propext (same x)
  exact h

theorem mappingChanged_run {ctx : Address} (mem : s.contexts.getMemContext ctx = some ctx) :
    ∃ next, memoryMapEventMappingChanged s ctx = .ok next ∧ next.contexts = s.contexts ∧
      next.clientMapList = s.clientMapList ∧ (∀ x, (next.ext x).clientMap = (s.ext x).clientMap) ∧
      next.mappingChanged = s.mappingChanged ++ [ctx] := by
  unfold memoryMapEventMappingChanged eventMemoryMapChanged
  rw [require_true mem,Code.ok_bind]
  split
  · exact ⟨_,rfl,rfl,rfl,fun _ => rfl,rfl⟩
  · refine ⟨_,rfl,rfl,rfl,fun x => ?_,rfl⟩
    by_cases here : x = ctx
    · subst here
      simp
    · simp [here]

theorem updateLive_refreshed (s : State) (ctx : Address) :
    ∃ next, updateLive s ctx = .ok next ∧ Refreshed s next fun x => x = ctx ∧ s.contexts.Mapped x := by
  unfold updateLive updateContextClientMap
  by_cases live : s.contexts.Live ctx
  · rw [if_pos live]
    rcases group : s.contexts.getSymContext ctx with _ | syms
    · refine ⟨s,rfl,.none ?_⟩
      rintro x ⟨rfl,_,some_⟩
      exact some_ group
    · have mapped : s.contexts.Mapped ctx := ⟨live,by simp [group]⟩
      have new : s.contexts.list s.clientMapList ctx =
          collect (fun x => s.contexts.query ctx x.query) (findMaps s.contexts s.clientMapList syms) := by
        simp [Contexts.list,group]
      simp only [require_true live.2,Code.ok_bind]
      by_cases same : compareMaps (fun x => s.contexts.query ctx x.query) (s.ext ctx).clientMap
          (findMaps s.contexts s.clientMapList syms) = true
      · rw [if_pos same]
        refine ⟨s,rfl,rfl,rfl,?_,fun _ _ => rfl,[],by simp,fun x changed => absurd rfl changed⟩
        rintro x ⟨rfl,_⟩
        rw [compareMaps_iff,← new] at same
        exact (if_pos same).symm
      · rw [if_neg same]
        obtain ⟨next,run,contexts,maps,lists,told⟩ := @mappingChanged_run (s.setClientMap ctx
          (collect (fun x => s.contexts.query ctx x.query) (findMaps s.contexts s.clientMapList syms))) ctx live.2
        refine ⟨next,run,contexts,maps,?_,?_,[ctx],told,?_⟩
        · rintro x ⟨rfl,_⟩
          rw [compareMaps_iff,← new] at same
          rw [lists,settle,if_neg same]
          simp [State.setClientMap,new]
        · intro x other
          have here : x ≠ ctx := by
            rintro rfl
            exact other ⟨rfl,mapped⟩
          rw [lists]
          simp [State.setClientMap,here]
        · intro x changed
          by_contra other
          rw [List.mem_singleton] at other
          rw [lists] at changed
          simp [State.setClientMap,other] at changed
  · rw [if_neg live]
    refine ⟨s,rfl,.none ?_⟩
    rintro x ⟨rfl,mapped,_⟩
    exact live mapped

theorem updateAll_refreshed (s : State) (root : List Address) :
    ∃ next, root.foldlM updateLive s = .ok next ∧ Refreshed s next fun x => x ∈ root ∧ s.contexts.Mapped x := by
  induction root generalizing s with
  | nil => exact ⟨s,rfl,.none (by simp)⟩
  | cons ctx root ih =>
    obtain ⟨middle,first,refreshed⟩ := updateLive_refreshed s ctx
    obtain ⟨next,later,refreshed'⟩ := ih middle
    refine ⟨next,?_,(refreshed.trans refreshed').congr fun x => ?_⟩
    · rw [List.foldlM_cons,first]
      exact later
    · rw [refreshed.contexts,List.mem_cons,or_and_right]

/-- Every live memory context has the list that the stored maps make for it. -/
def UpToDate (s : State) : Prop :=
  ∀ ctx ∈ s.contexts.root, s.contexts.Live ctx → (s.ext ctx).clientMap = s.contexts.list s.clientMapList ctx

/-- The list before an event; the one of a new context is empty, and so is that of one disposed of. -/
def previous (s : State) (e : Event) (ctx : Address) : List MemoryRegion :=
  match e with
  | .context _ (.created x) | .context _ (.disposed x) => if ctx = x then [] else (s.ext ctx).clientMap
  | _ => (s.ext ctx).clientMap

def mapsAfter (s : State) : Event → List ClientMap
  | .set c id items => setMap s.clientMapList c (readId id) (items.map readMapItem)
  | .close c => s.clientMapList.filter fun m => m.channel ≠ c
  | .context _ _ | .get _ _ => s.clientMapList

def contextsAfter (s : State) : Event → Contexts
  | .context next _ => next
  | _ => s.contexts

/-- The contexts whose list an event can change. -/
def Reaches (contexts : Contexts) (e : Event) (ctx : Address) : Prop :=
  contexts.getSymContext ctx ≠ none ∧
    match e with
    | .set _ _ _ | .close _ => True
    | .context _ (.created x) | .context _ (.changed x) => ctx = x
    | .context _ _ | .get _ _ => False

instance decideReaches (contexts : Contexts) : ∀ e ctx, Decidable (Reaches contexts e ctx)
  | .set _ _ _, ctx | .close _, ctx => inferInstanceAs (Decidable (contexts.getSymContext ctx ≠ none ∧ True))
  | .context _ (.created x), ctx | .context _ (.changed x), ctx =>
    inferInstanceAs (Decidable (contexts.getSymContext ctx ≠ none ∧ ctx = x))
  | .context _ (.disposed _), ctx | .context _ .other, ctx | .get _ _, ctx =>
    inferInstanceAs (Decidable (contexts.getSymContext ctx ≠ none ∧ False))

/-- Where an event changes the list of a live context it reaches it, and the change is not only one of IDs. -/
def Noticeable (s : State) (e : Event) : Prop :=
  ∀ ctx ∈ (contextsAfter s e).root, (contextsAfter s e).Live ctx →
    previous s e ctx ≠ (contextsAfter s e).list (mapsAfter s e) ctx →
      Reaches (contextsAfter s e) e ctx ∧ (previous s e ctx).map MemoryRegion.withoutId ≠
        ((contextsAfter s e).list (mapsAfter s e) ctx).map MemoryRegion.withoutId

instance (s : State) (e : Event) : Decidable (Noticeable s e) := inferInstanceAs (Decidable (∀ _ ∈ _, _ → _ ≠ _ → _ ∧ _ ≠ _))

/-- Listeners were told of each live context whose list is a new one. -/
def Notified (s : State) (e : Event) (next : State) : Prop :=
  ∃ log, next.mappingChanged = s.mappingChanged ++ log ∧ ∀ ctx ∈ next.contexts.root, next.contexts.Live ctx →
    next.contexts.list next.clientMapList ctx ≠ previous s e ctx → ctx ∈ log

/-- An event whose update looks at every context that it reaches. -/
theorem upToDate_refreshed {base next : State} {e : Event} {which : Address → Prop}
    (refreshed : Refreshed base next which) (noticeable : Noticeable s e)
    (contexts : base.contexts = contextsAfter s e) (maps : base.clientMapList = mapsAfter s e)
    (told : base.mappingChanged = s.mappingChanged) (lists : ∀ x, (base.ext x).clientMap = previous s e x)
    (looked : ∀ x ∈ base.contexts.root, base.contexts.Live x → Reaches base.contexts e x → which x) :
    UpToDate next ∧ Notified s e next := by
  have contexts' := refreshed.contexts.trans contexts
  have maps' := refreshed.maps.trans maps
  have current : UpToDate next := by
    intro ctx member live
    rw [contexts'] at member live
    rw [contexts',maps']
    have choice := noticeable ctx member live
    by_cases same : previous s e ctx = (contextsAfter s e).list (mapsAfter s e) ctx
    · by_cases which_ : which ctx
      · rw [refreshed.settled ctx which_,lists,contexts,maps,same]
        exact if_pos rfl
      · rw [refreshed.kept ctx which_,lists,same]
    · obtain ⟨reaches,other⟩ := choice same
      rw [← contexts] at member live reaches
      rw [refreshed.settled ctx (looked ctx member live reaches),lists,contexts,maps]
      exact if_neg other
  refine ⟨current,?_⟩
  obtain ⟨log,same,changes⟩ := refreshed.told
  refine ⟨log,by rw [same,told],fun ctx member live changed => changes ctx ?_⟩
  rw [current ctx member live,lists]
  exact changed

theorem setMap_unknown {maps : List ClientMap} {c : Address} {id : Str}
    (unknown : (maps.any fun m => m.channel = c ∧ m.id = id) = false) : setMap maps c id [] = maps := by
  unfold setMap
  rcases found : maps.findIdx? _ with _ | i
  · rfl
  · rw [List.findIdx?_eq_some_iff_getElem] at found
    obtain ⟨bound,holds,_⟩ := found
    rw [List.any_eq_false] at unknown
    exact absurd holds (unknown _ (List.getElem_mem bound))

theorem nothing_upToDate {base : State} {e : Event} (noticeable : Noticeable s e)
    (contexts : base.contexts = contextsAfter s e) (maps : base.clientMapList = mapsAfter s e)
    (told : base.mappingChanged = s.mappingChanged) (lists : ∀ x, (base.ext x).clientMap = previous s e x)
    (unreached : ∀ x, ¬Reaches base.contexts e x) : UpToDate base ∧ Notified s e base :=
  @upToDate_refreshed s base base e (fun _ => False) (.none fun _ => not_false) noticeable contexts maps told lists
    fun x _ _ reaches => unreached x reaches

/-- A set or a close that leaves the maps as they are. -/
theorem same_upToDate {e : Event} (h : UpToDate s) (lists : ∀ x, previous s e x = (s.ext x).clientMap) :
    UpToDate s ∧ Notified s e s := by
  refine ⟨h,[],by simp,fun ctx member live changed => ?_⟩
  rw [lists,h ctx member live] at changed
  exact absurd rfl changed

theorem commandSet_upToDate {c : Address} {id : Str} {items : List (List Member)} (h : UpToDate s)
    (noticeable : Noticeable s (.set c id items)) :
    ∃ next, commandSet s c id items = .ok next ∧ UpToDate next ∧ Notified s (.set c id items) next := by
  unfold commandSet
  dsimp only
  split
  · obtain ⟨next,run,refreshed⟩ := updateAll_refreshed
      { s with clientMapList := setMap s.clientMapList c (readId id) (items.map readMapItem) } s.contexts.root
    exact ⟨next,run,upToDate_refreshed refreshed noticeable rfl rfl rfl (fun _ => rfl)
      fun x member live reaches => ⟨member,live,reaches.1⟩⟩
  next idle =>
    obtain ⟨none_,unknown⟩ := not_or.mp idle
    have empty : items.map readMapItem = [] := List.eq_nil_of_length_eq_zero (by omega)
    rw [Bool.not_eq_true] at unknown
    rw [empty,setMap_unknown unknown]
    exact ⟨s,rfl,same_upToDate h fun _ => rfl⟩

theorem close_upToDate {c : Address} (h : UpToDate s) (noticeable : Noticeable s (.close c)) :
    ∃ next, channelCloseListener s c = .ok next ∧ UpToDate next ∧ Notified s (.close c) next := by
  unfold channelCloseListener
  dsimp only
  split
  · obtain ⟨next,run,refreshed⟩ := updateAll_refreshed
      { s with clientMapList := s.clientMapList.filter fun m => m.channel ≠ c } s.contexts.root
    exact ⟨next,run,upToDate_refreshed refreshed noticeable rfl rfl rfl (fun _ => rfl)
      fun x member live reaches => ⟨member,live,reaches.1⟩⟩
  next quiet =>
    have kept : (s.clientMapList.filter fun m => m.channel ≠ c) = s.clientMapList := by
      rw [List.filter_eq_self]
      intro m member
      simp only [List.any_eq_true,not_exists,not_and,decide_eq_true_eq] at quiet
      simpa using quiet m member
    rw [kept]
    exact ⟨s,rfl,same_upToDate h fun _ => rfl⟩

theorem contextEvent_upToDate {contexts : Contexts} {event : ContextEvent}
    (noticeable : Noticeable s (.context contexts event)) :
    ∃ next, contextEvent { s with contexts } event = .ok next ∧ UpToDate next ∧
      Notified s (.context contexts event) next := by
  cases event with
  | created ctx =>
    obtain ⟨next,run,refreshed⟩ := updateLive_refreshed
      { s with contexts, ext := Function.update s.ext ctx {} } ctx
    refine ⟨next,run,upToDate_refreshed refreshed noticeable rfl rfl rfl (fun x => ?_)
      fun x _ live reaches => ⟨reaches.2,live,reaches.1⟩⟩
    by_cases here : x = ctx <;> simp [previous,here]
  | changed ctx =>
    obtain ⟨next,run,refreshed⟩ := updateLive_refreshed { s with contexts } ctx
    exact ⟨next,run,upToDate_refreshed refreshed noticeable rfl rfl rfl (fun _ => rfl)
      fun x _ live reaches => ⟨reaches.2,live,reaches.1⟩⟩
  | disposed ctx =>
    refine ⟨_,rfl,nothing_upToDate noticeable rfl rfl rfl (fun x => ?_) fun x reaches => reaches.2⟩
    by_cases here : x = ctx <;> simp [previous,State.setClientMap,here]
  | other => exact ⟨_,rfl,nothing_upToDate noticeable rfl rfl rfl (fun _ => rfl) fun x reaches => reaches.2⟩

theorem step_upToDate (e : Event) (h : UpToDate s) (noticeable : Noticeable s e) :
    ∃ next, service.step s e = .ok next ∧ UpToDate next ∧ Notified s e next := by
  cases e with
  | set c id items => exact commandSet_upToDate h noticeable
  | close c => exact close_upToDate h noticeable
  | context contexts event => exact contextEvent_upToDate noticeable
  | get ctx valid =>
    refine ⟨_,rfl,nothing_upToDate noticeable rfl rfl rfl (fun x => ?_) fun x reaches => reaches.2⟩
    by_cases here : x = ctx <;> simp [previous,here]

theorem exec_upToDate (h : UpToDate s) (events : List Event) (e : Event)
    (meets : service.Meets Noticeable s (events ++ [e])) :
    ∃ middle next, service.exec s events = .ok middle ∧ service.step middle e = .ok next ∧ UpToDate next ∧
      Notified middle e next := by
  induction events generalizing s with
  | nil =>
    obtain ⟨next,run,result⟩ := step_upToDate e h meets.1
    exact ⟨s,next,rfl,run,result⟩
  | cons first events ih =>
    obtain ⟨after,run,current,_⟩ := step_upToDate first h meets.1
    obtain ⟨middle,next,later,result⟩ := ih current (meets.2 after run)
    exact ⟨middle,next,service.exec_cons.mpr ⟨trivial,after,run,later⟩,result⟩

/-- After each operation the lists are up to date, and listeners know of the changes. -/
theorem exec_maps_current (contexts : Contexts) (events : List Event) (e : Event)
    (meets : service.Meets Noticeable (State.initial contexts) (events ++ [e])) :
    ∃ s next, service.exec (State.initial contexts) events = .ok s ∧ service.step s e = .ok next ∧ UpToDate next ∧
      Notified s e next :=
  exec_upToDate (fun _ member => absurd member (by simp [State.initial])) events e meets

/-- One process, which every query selects. -/
def oneContext : Contexts where
  root := [1]
  exited _ := false
  getMemContext ctx := some ctx
  getSymContext ctx := some ctx
  id _ := [0x50]
  name _ := none
  fullName _ := [0x2f]
  query _ _ := true

def sendMap (id : Str) : Event := .set 7 [] [[.addr 0x1000,.size 16,.id (some id)]]

/-- The second map differs from the first in an ID, which the context does not get. -/
theorem changed_id_missed :
    ∃ s, service.exec (State.initial oneContext) [.context oneContext (.created 1),sendMap [0x61],sendMap [0x62]] = .ok s ∧
      1 ∈ s.contexts.root ∧ s.contexts.Live 1 ∧ (s.ext 1).clientMap ≠ s.contexts.list s.clientMapList 1 := by
  decide +kernel

/-- A map, another client's, and the end of the first. -/
theorem maps_current_close :
    ∃ s next, service.exec (State.initial oneContext)
        [.context oneContext (.created 1),sendMap [0x61],.set 8 [0x50] [[.addr 0x2000,.other [0x78] [0x31]]]] = .ok s ∧
      service.step s (.close 7) = .ok next ∧ UpToDate next ∧ Notified s (.close 7) next :=
  exec_maps_current oneContext _ _ (by decide +kernel)

end Tcf.MemoryMap
