import Tcf.ProtocolReplies
import Mathlib.Algebra.BigOperators.Group.Finset.Basic
import Mathlib.Data.Multiset.Filter

/-! The walk of `channel_closed` over the reply table: where it stands when it calls a handler,
what it unlinks, and that no handler is passed over. -/
namespace Tcf.Protocol.Replies

/-- What stays of an entry for as long as it is in the table. -/
def key (rh : ReplyHandlerInfo) : Nat × Address × Nat := (rh.self,rh.c,rh.tokenid)

/-- The handler is still to be called; `run` is the one that runs. -/
def live (run : Option Nat) (rh : ReplyHandlerInfo) : Bool := rh.handler.isSome && run ≠ some rh.self

def liveIds (run : Option Nat) (chain : List ReplyHandlerInfo) : Multiset Nat :=
  (chain.filter (live run)).map ReplyHandlerInfo.self

/-- The entries of a chain are different allocations. -/
def Distinct (chain : List ReplyHandlerInfo) : Prop := (chain.map ReplyHandlerInfo.self).Nodup

variable {pre rest : List ReplyHandlerInfo} {rh : ReplyHandlerInfo} {rhp : Option Nat}

theorem Distinct.split (distinct : Distinct (pre ++ rh :: rest)) :
    (∀ x ∈ pre, x.self ≠ rh.self) ∧ (∀ x ∈ rest, x.self ≠ rh.self) ∧ Distinct (pre ++ rest) := by
  unfold Distinct at *
  rw [List.map_append,List.map_cons,List.nodup_middle,List.nodup_cons,← List.map_append] at distinct
  obtain ⟨absent,nodup⟩ := distinct
  refine ⟨fun x member same => absent ?_,fun x member same => absent ?_,nodup⟩
  · exact List.mem_map.mpr ⟨x,List.mem_append_left _ member,same⟩
  · exact List.mem_map.mpr ⟨x,List.mem_append_right _ member,same⟩

theorem distinct_keys {chain chain' : List ReplyHandlerInfo} (sub : (chain'.map key).Sublist (chain.map key))
    (distinct : Distinct chain) : Distinct chain' := by
  have selfs (l : List ReplyHandlerInfo) : l.map ReplyHandlerInfo.self = (l.map key).map Prod.fst := by
    simp [Function.comp_def,key]
  unfold Distinct at *
  rw [selfs] at *
  exact distinct.sublist (sub.map _)

@[simp] theorem liveIds_nil (run : Option Nat) : liveIds run [] = 0 := rfl

theorem liveIds_append (run : Option Nat) (a b : List ReplyHandlerInfo) : liveIds run (a ++ b) = liveIds run a + liveIds run b := by
  simp [liveIds]

theorem liveIds_other {run : Option Nat} {chain : List ReplyHandlerInfo} (others : ∀ x ∈ chain, run ≠ some x.self) :
    liveIds run chain = liveIds none chain := by
  have same : chain.filter (live run) = chain.filter (live none) :=
    List.filter_congr fun x member => by simp [live,others x member]
  rw [liveIds,liveIds,same]

/-- The entry itself, if its handler is to be called. -/
def ownId (rh : ReplyHandlerInfo) : Multiset Nat := if rh.handler.isSome then {rh.self} else 0

theorem liveIds_cons (rh : ReplyHandlerInfo) (chain : List ReplyHandlerInfo) :
    liveIds none (rh :: chain) = ownId rh + liveIds none chain := by
  unfold liveIds ownId
  cases some_ : rh.handler <;> simp [live,some_]

theorem liveIds_at :
    liveIds none (pre ++ rh :: rest) = ownId rh + liveIds none (pre ++ rest) := by
  rw [liveIds_append,liveIds_cons,liveIds_append]
  exact add_left_comm _ _ _

/-- The handler that runs does not count. -/
theorem liveIds_running (distinct : Distinct (pre ++ rh :: rest)) :
    liveIds (some rh.self) (pre ++ rh :: rest) = liveIds none (pre ++ rest) := by
  obtain ⟨before,behind,_⟩ := distinct.split
  have own : liveIds (some rh.self) (rh :: rest) = liveIds (some rh.self) rest := by simp [liveIds,live]
  rw [liveIds_append,own,liveIds_append,
    liveIds_other fun x member same => before x member (Option.some.inj same).symm,
    liveIds_other fun x member same => behind x member (Option.some.inj same).symm]

/-- The link is at the end of `pre`. -/
def Link : Option Nat → List ReplyHandlerInfo → Prop
  | none, pre => pre = []
  | some before, pre => ∃ front e, pre = front ++ [e] ∧ e.self = before

/-- While a handler runs, entries may have come in front of a link to the head. -/
def LooseLink (disconnected : Bool) : Option Nat → List ReplyHandlerInfo → Prop
  | none, pre => disconnected = true → pre = []
  | some before, pre => ∃ front e, pre = front ++ [e] ∧ e.self = before

variable {disconnected : Bool}

theorem Link.loose (link : Link rhp pre) :
    LooseLink disconnected rhp pre := by
  cases rhp with
  | none => exact fun _ => link
  | some before => exact link

theorem linked_at (distinct : Distinct (pre ++ rh :: rest)) :
    linked (pre ++ rh :: rest) (some rh.self) = rest := by
  obtain ⟨before,_,_⟩ := distinct.split
  rw [linked,List.dropWhile_append_of_pos fun x member => by simpa using before x member]
  simp

theorem linked_link (link : Link rhp pre)
    (distinct : Distinct (pre ++ rest)) : linked (pre ++ rest) rhp = rest := by
  cases rhp with
  | none =>
    have empty : pre = [] := link
    rw [empty]
    rfl
  | some before =>
    obtain ⟨front,e,rfl,rfl⟩ := link
    rw [List.append_assoc] at *
    exact linked_at distinct

theorem setLink_link {tail : List ReplyHandlerInfo} (link : Link rhp pre)
    (distinct : Distinct (pre ++ tail)) (rest : List ReplyHandlerInfo) : setLink (pre ++ tail) rhp rest = pre ++ rest := by
  rw [setLink,linked_link link distinct,List.length_append,Nat.add_sub_cancel,List.take_left]

theorem clear_others {chain : List ReplyHandlerInfo} {self : Nat} (others : ∀ x ∈ chain, x.self ≠ self) :
    chain.map (clearEntry self) = chain := by
  have each : ∀ x ∈ chain, clearEntry self x = id x := fun x member => if_neg (others x member)
  rw [List.map_congr_left each,List.map_id]

/-- What the walk keeps of a chain. -/
structure Kept (run : Option Nat) (chain chain' : List ReplyHandlerInfo) : Prop where
  keys : (chain'.map key).Sublist (chain.map key)
  ids : liveIds none chain' = liveIds run chain

theorem Kept.refl (chain : List ReplyHandlerInfo) : Kept none chain chain := ⟨List.Sublist.refl _,rfl⟩

theorem Kept.trans {run : Option Nat} {a b c : List ReplyHandlerInfo} (first : Kept run a b) (second : Kept none b c) :
    Kept run a c := ⟨second.keys.trans first.keys,second.ids.trans first.ids⟩

theorem afterHandler_spec {table : Table} {i : Nat}
    (stands : table i = pre ++ rh :: rest) (link : LooseLink disconnected rhp pre)
    (distinct : Distinct (table i)) :
    ∃ table' rhp' pre', afterHandler disconnected table i rhp rh = (table',rhp') ∧ table' i = pre' ++ rest ∧
      Link rhp' pre' ∧ (∀ j, j ≠ i → table' j = table j) ∧ Kept (some rh.self) (table i) (table' i) ∧
      (disconnected = true → pre' = pre) := by
  rw [stands] at distinct
  obtain ⟨before,behind,_⟩ := distinct.split
  cases disconnected with
  | true =>
    have exact_ : Link rhp pre := by
      cases rhp with
      | none => exact link rfl
      | some _ => exact link
    refine ⟨_,rhp,pre,rfl,?_,exact_,fun j other => Function.update_of_ne other ..,?_,fun _ => rfl⟩
    · rw [Function.update_self,stands,linked_at distinct,setLink_link exact_ distinct]
    · rw [Function.update_self,stands,linked_at distinct,setLink_link exact_ distinct]
      refine ⟨?_,(liveIds_running distinct).symm⟩
      rw [List.map_append,List.map_append,List.map_cons]
      exact List.Sublist.append (List.Sublist.refl _) (List.sublist_cons_self ..)
  | false =>
    have cleared : (table i).map (clearEntry rh.self) = (pre ++ [clearEntry rh.self rh]) ++ rest := by
      rw [stands,List.map_append,List.map_cons,clear_others before,clear_others behind]
      simp
    have self : (clearEntry rh.self rh).self = rh.self := by simp [clearEntry]
    have keys : key (clearEntry rh.self rh) = key rh := by simp [key,clearEntry]
    have dead : ownId (clearEntry rh.self rh) = 0 := by simp [ownId,clearEntry]
    refine ⟨_,_,pre ++ [clearEntry rh.self rh],rfl,?_,⟨pre,_,rfl,self⟩,fun j other => Function.update_of_ne other ..,?_,nofun⟩
    · rw [Function.update_self,cleared]
    · rw [Function.update_self,cleared,stands]
      refine ⟨?_,?_⟩
      · simp [keys]
      · rw [liveIds_running distinct,List.append_assoc,List.singleton_append,liveIds_at,dead,zero_add]

/-- A call is made for the entry at its link. -/
structure Stands (disconnected : Bool) (table : Table) (call : Closing) (pre rest : List ReplyHandlerInfo) : Prop where
  entry : table call.chain = pre ++ call.rh :: rest
  mine : call.rh.c = call.c
  handler : call.rh.handler.isSome = true
  passed : disconnected = true → ∀ x ∈ pre, x.c ≠ call.c

theorem walkChain_spec {c : Address} {i : Nat}
    {table : Table} (stands : table i = pre ++ rest) (link : Link rhp pre) (distinct : Distinct (table i))
    (passed : disconnected = true → ∀ x ∈ pre, x.c ≠ c) :
    ∃ table' next, walkChain disconnected c i rest rhp table = (table',next) ∧ (∀ j, j ≠ i → table' j = table j) ∧
      Kept none (table i) (table' i) ∧ (next = none → disconnected = true → ∀ x ∈ table' i, x.c ≠ c) ∧
      ∀ call ∈ next, call.c = c ∧ call.chain = i ∧
        ∃ pre rest, Stands disconnected table' call pre rest ∧ Link call.rhp pre := by
  induction rest generalizing pre rhp table with
  | nil =>
    rw [List.append_nil] at stands
    refine ⟨table,none,rfl,fun _ _ => rfl,.refl _,fun _ on => ?_,by simp⟩
    rw [stands]
    exact passed on
  | cons rh rest ih =>
    unfold walkChain
    by_cases other : rh.c ≠ c
    · rw [if_pos other]
      apply @ih (pre ++ [rh]) (some rh.self) table (by rw [stands]; simp) ⟨pre,rh,rfl,rfl⟩ distinct
      intro on x member
      rcases List.mem_append.mp member with before | here
      · exact passed on x before
      · rwa [List.mem_singleton.mp here]
    rw [if_neg other]
    have mine : rh.c = c := not_not.mp other
    by_cases handler : rh.handler.isSome = true
    · rw [if_pos handler]
      refine ⟨table,_,rfl,fun _ _ => rfl,.refl _,by simp,?_⟩
      rintro call ⟨⟩
      exact ⟨rfl,rfl,pre,rest,⟨stands,mine,handler,passed⟩,link⟩
    · rw [if_neg handler]
      obtain ⟨table₁,rhp₁,pre₁,step,stands₁,link₁,frame₁,kept₁,same₁⟩ :=
        @afterHandler_spec pre rest rh rhp disconnected table i stands link.loose distinct
      have kept : Kept none (table i) (table₁ i) := by
        refine ⟨kept₁.keys,?_⟩
        have own : ownId rh = 0 := if_neg handler
        rw [kept₁.ids,stands,liveIds_at,own,zero_add]
        rw [stands] at distinct
        exact liveIds_running distinct
      have passed₁ : disconnected = true → ∀ x ∈ pre₁, x.c ≠ c := by
        intro on
        rw [same₁ on]
        exact passed on
      obtain ⟨table₂,next,walk,frame₂,kept₂,done,calls⟩ :=
        ih stands₁ link₁ (distinct_keys kept₁.keys distinct) passed₁
      refine ⟨table₂,next,?_,fun j away => (frame₂ j away).trans (frame₁ j away),kept.trans kept₂,done,calls⟩
      rw [step]
      exact walk

theorem walkChains_spec {c : Address} {left i : Nat} {table : Table}
    (distinct : ∀ j, Distinct (table j)) (passed : disconnected = true → ∀ j < i, ∀ x ∈ table j, x.c ≠ c) :
    ∃ table' next, walkChains disconnected c left i table = (table',next) ∧ (∀ j, Kept none (table j) (table' j)) ∧
      (next = none → disconnected = true → ∀ j < i + left, ∀ x ∈ table' j, x.c ≠ c) ∧
      ∀ call ∈ next, call.c = c ∧ call.chain < i + left ∧
        (disconnected = true → ∀ j < call.chain, ∀ x ∈ table' j, x.c ≠ c) ∧
        ∃ pre rest, Stands disconnected table' call pre rest ∧ Link call.rhp pre := by
  induction left generalizing i table with
  | zero => exact ⟨table,none,rfl,fun j => .refl _,fun _ => passed,by simp⟩
  | succ left ih =>
    unfold walkChains
    obtain ⟨table₁,next,walk,frame,kept,done,calls⟩ := @walkChain_spec [] (table i) none disconnected c i table rfl rfl
      (distinct i) (fun _ => nofun)
    have kept' (j : Nat) : Kept none (table j) (table₁ j) := by
      by_cases here : j = i
      · rw [here]
        exact kept
      · rw [frame j here]
        exact .refl _
    have passed₁ : disconnected = true → ∀ j < i, ∀ x ∈ table₁ j, x.c ≠ c := by
      intro on j less
      rw [frame j (by omega)]
      exact passed on j less
    rw [walk]
    cases next with
    | some call =>
      obtain ⟨same,chain,pre,rest,stands,link⟩ := calls call rfl
      refine ⟨table₁,some call,rfl,kept',nofun,?_⟩
      rintro call' ⟨⟩
      refine ⟨same,by omega,?_,pre,rest,stands,link⟩
      rw [chain]
      exact passed₁
    | none =>
      have passed₂ : disconnected = true → ∀ j < i + 1, ∀ x ∈ table₁ j, x.c ≠ c := by
        intro on j less
        rcases Nat.lt_succ_iff_lt_or_eq.mp less with less | rfl
        · exact passed₁ on j less
        · exact done rfl on
      obtain ⟨table₂,next,walk₂,kept₂,done₂,calls₂⟩ :=
        ih (fun j => distinct_keys (kept' j).keys (distinct j)) passed₂
      have bound : i + 1 + left = i + (left + 1) := by omega
      rw [bound] at done₂ calls₂
      exact ⟨table₂,next,walk₂,fun j => (kept' j).trans (kept₂ j),done₂,calls₂⟩

end Tcf.Protocol.Replies
