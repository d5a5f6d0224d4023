import Tcf.Proxy

/-! What passes through a proxy arrives: each message once and in order, its body byte for byte, and
the token of a reply as the client sent it. -/
namespace Tcf.Proxy

open Framing Json Protocol

/-! The body. -/

theorem bytesAhead_body (n : Nat) (body : List UInt8) (rest : Input) :
    bytesAhead n (body.map .byte ++ .eom :: rest) = body.take n := by
  induction body generalizing n with
  | nil => cases n <;> rfl
  | cons ch body ih =>
    cases n with
    | zero => rfl
    | succ n => simp [bytesAhead,ih]

theorem writeStream_holds {σ : Type} {S : OutStream σ} {s : σ} {items : List Item} (h : S.Holds s items) (item : Item) :
    ∃ next, writeStream S s item = .ok next ∧ S.Holds next (items ++ [item]) := by
  cases item with
  | byte ch => exact S.writeByte_holds h ch
  | eom => exact S.write_holds h .eom
  | eos => exact S.write_holds h .eos

/-- The body is copied whole, in blocks or byte by byte, to a stream of any kind. -/
theorem copyBody_holds {σ : Type} {S : OutStream σ} (set : Settings) (res : Filter) (limit : Int) {fuel : Nat} (turn : Nat)
    (log : Nat × List UInt8) {out : σ} {items : List Item} {body : List UInt8} (rest : Input) (h : S.Holds out items)
    (enough : body.length < fuel) :
    ∃ log' out', copyBody S set res limit fuel turn log out (body.map .byte ++ .eom :: rest) = .ok (log',out',rest) ∧
      S.Holds out' (items ++ (body.map .byte ++ [.eom])) := by
  induction fuel generalizing turn log out items body with
  | zero => omega
  | succ fuel ih =>
    simp only [copyBody,bytesAhead_body]
    split
    · next zeroCopy =>
      obtain ⟨next,run,holds⟩ := S.writeBlock_holds h (body.take (set.ahead turn))
      have some_bytes := zeroCopy.2.2
      have shorter : (body.drop (body.take (set.ahead turn)).length).length < fuel := by
        have within := List.length_take_le' (set.ahead turn) body
        rw [List.length_drop]
        omega
      have left : List.drop (body.take (set.ahead turn)).length (body.map Item.byte ++ .eom :: rest) =
          (body.drop (body.take (set.ahead turn)).length).map .byte ++ .eom :: rest := by
        rw [List.drop_append_of_le_length (by simp),List.map_drop]
      obtain ⟨log',out',run',holds'⟩ := ih (turn + 1) log holds shorter
      refine ⟨log',out',by rw [run,Code.ok_bind,left,run'],?_⟩
      have whole : body = body.take (set.ahead turn) ++ body.drop (body.take (set.ahead turn)).length := by
        rw [List.length_take]
        rcases Nat.le_total (set.ahead turn) body.length with less | more
        · rw [Nat.min_eq_left less,List.take_append_drop]
        · rw [Nat.min_eq_right more,List.take_of_length_le more,List.drop_length,List.append_nil]
      rw [whole]
      simpa using holds'
    · cases body with
      | nil =>
        obtain ⟨next,run,holds⟩ := writeStream_holds h .eom
        exact ⟨logCopied set res limit log .eom,next,by simp [readStream,run,Item.marker],by simpa using holds⟩
      | cons ch body =>
        obtain ⟨next,run,holds⟩ := writeStream_holds h (.byte ch)
        have shorter : body.length < fuel := by
          simp only [List.length_cons] at enough
          omega
        obtain ⟨log',out',run',holds'⟩ := ih (turn + 1) (logCopied set res limit log (.byte ch)) holds shorter
        refine ⟨log',out',?_,by simpa using holds'⟩
        simp [readStream,run,Item.marker,run']

/-! The handler. -/

variable {type token : List UInt8}

section Handler

variable {κ : Type} {m : MemUsage} {p : Pair} {env : Handlers (Clients κ)} {c : Address} {msg : Message} {rest : Input}

theorem Pair.other_ne (p : Pair) (c : Address) (has : p.Has c) : p.other c ≠ c := by
  rcases has with rfl | rfl
  · simpa [Pair.other] using p.distinct.symm
  · simp [Pair.other,p.distinct.symm,p.distinct]

theorem stringz_cons (ch : UInt8) (s : List UInt8) : stringz (ch :: s) = .byte ch :: stringz s := rfl

theorem forwardArgs_relay (valid : msg.Valid) : forwardArgs msg.args = .error .exception ∨
    ∃ argv, forwardArgs msg.args = .ok ((relay msg).args.flatMap stringz,argv) := by
  obtain ⟨args,body⟩ := msg
  have count := valid.args
  simp only [Message.type] at count
  unfold forwardArgs relay
  rcases args with _ | ⟨type,_ | ⟨token,args⟩⟩
  · simp [arity,stringC,stringR,stringP,stringN,stringE] at count
  · by_cases command : type = stringC
    · simp [arity,command] at count
    · by_cases reply : type = stringR ∨ type = stringP ∨ type = stringN
      · simp [arity,command,reply] at count
      · exact .inr ⟨_,by simp [command,reply]; rfl⟩
  · by_cases command : type = stringC
    · exact .inr ⟨_,by simp [command,stringz_cons]; rfl⟩
    · by_cases reply : type = stringR ∨ type = stringP ∨ type = stringN
      · by_cases prefixed : token.head? = some 0x52
        · exact .inr ⟨type :: token.tail :: args,by simp [command,reply,prefixed]⟩
        · exact .inl (by simp [command,reply,prefixed])
      · exact .inr ⟨type :: token :: args,by simp [command,reply]⟩

theorem relay_body (msg : Message) : (relay msg).body = msg.body := by
  unfold relay
  split
  · split
    · rfl
    · split <;> rfl
  · rfl

/-- The world after a message was relayed. -/
def relayed (p : Pair) (c : Address) (msg : Message) (rest : Input) (w : World (Clients κ)) : World (Clients κ) :=
  (w.update c ({ · with inp := rest })).update (p.other c)
    ({ · with out := (w.channels (p.other c)).out ++ (relay msg).items })

theorem proxyDefault_relays (set : Settings) {w : World (Clients κ)} (valid : msg.Valid)
    (open_ : (w.channels (p.other c)).state ≠ .disconnected) (inside : (w.channels c).inp = msg.body.map .byte ++ .eom :: rest) :
    proxyDefaultMessageHandler p set c msg.args w = .error .exception ∨
      ∃ clients, proxyDefaultMessageHandler p set c msg.args w = .ok { relayed p c msg rest w with clients } := by
  have one : (msg.args.headD []).length = 1 := valid.type
  simp only [proxyDefaultMessageHandler,require_true one,Code.ok_bind,if_neg open_]
  rcases forwardArgs_relay valid with raised | ⟨argv,forwarded⟩
  · exact .inl (by rw [raised]; rfl)
  · apply Or.inr
    simp only [forwarded,Code.ok_bind,inside]
    have enough : msg.body.length < (msg.body.map Item.byte ++ .eom :: rest).length + 1 := by
      simp only [List.length_append,List.length_map,List.length_cons]
      omega
    have start : (itemStream (w.channels (p.other c)).supportsZeroCopy).Holds
      ((w.channels (p.other c)).out ++ (relay msg).args.flatMap stringz)
      ((w.channels (p.other c)).out ++ (relay msg).args.flatMap stringz) := rfl
    obtain ⟨log,out,run,holds⟩ := copyBody_holds set (logStart p set c argv).1 (logStart p set c argv).2.1 0
      (0,(logStart p set c argv).2.2) rest start enough
    have same : out = (w.channels (p.other c)).out ++ (relay msg).items := by
      rw [Message.items,relay_body,← List.append_assoc]
      exact holds
    simp only [run,Code.ok_bind,same]
    exact ⟨⟨logFlush set (logStart p set c argv).1 log.2 w.clients.logs,w.clients.own⟩,rfl⟩

/-! The dispatcher. -/

theorem update_update {γ : Type} (w : World γ) (c : Address) (f g : Channel → Channel) :
    (w.update c f).update c g = w.update c fun ch => g (f ch) := by simp [World.update]

theorem take_type (one : type.length = 1) {size : Nat} (room : 1 < size) : type.take (size - 1) = type :=
  List.take_of_length_le (by omega)

theorem readFrom_next {γ : Type} (w : World γ) {s : List UInt8} {inp : Input} (free : 0 ∉ s) :
    readFrom c (readStringz 256 []) (w.update c ({ · with inp := stringz s ++ inp })) =
      .ok (s.take 255,w.update c ({ · with inp })) := by
  have text : ((w.update c ({ · with inp := stringz s ++ inp })).channels c).inp = stringz s ++ inp := by simp
  rw [readFrom_text text free,update_update]

/-- What the dispatcher gives to the default handler. -/
def handed {γ : Type} (env : Handlers γ) (c : Address) (args : List (List UInt8)) (w : World γ) (inp : Input) :
    Option (Code (World γ)) :=
  (w.protocols (w.channels c).protocol).defaultHandler.map fun fn =>
    env.default fn c args (w.protocols (w.channels c).protocol).clientData (w.update c ({ · with inp }))

theorem callDefault_handed {γ : Type} {env : Handlers γ} {args : List (List UInt8)} {otherwise : World γ → Code (World γ)}
    {w : World γ} {inp : Input} {result : Code (World γ)} (given : handed env c args w inp = some result) :
    callDefault env c args otherwise (w.update c ({ · with inp })) = result := by
  simp only [handed,Option.map_eq_some_iff] at given
  obtain ⟨fn,default,rfl⟩ := given
  simp [callDefault,World.update,default]

section Kinds

variable {γ : Type} {env : Handlers γ} {w : World γ} {inp : Input} {result : Code (World γ)} {type : List UInt8}

theorem commandMessage_handed {service name : List UInt8} (free : 0 ∉ token ∧ 0 ∉ service ∧ 0 ∉ name)
    (connected : (w.channels c).state = .connected)
    (unhandled : findMessageHandler m w (w.channels c).protocol (service.take 255) (name.take 255) = none)
    (given : handed env c [type,token.take 255,service.take 255,name.take 255] w inp = some result) :
    commandMessage m env c type
      (w.update c ({ · with inp := stringz token ++ (stringz service ++ (stringz name ++ inp)) })) = result := by
  have state (inp : Input) : ((w.update c ({ · with inp })).channels c).state = .connected := by simp [connected]
  have absent (inp : Input) : findMessageHandler m (w.update c ({ · with inp }))
      ((w.update c ({ · with inp })).channels c).protocol (service.take 255) (name.take 255) = none := by
    rw [update_same]
    exact unhandled
  simp only [commandMessage,readFrom_next _ free.1,readFrom_next _ free.2.1,readFrom_next _ free.2.2,Code.ok_bind,state,absent]
  exact callDefault_handed given

theorem replyMessage_handed (free : 0 ∉ token) (unnamed : replyNamed m w c (token.take 255) = none)
    (given : handed env c [type,token.take 255] w inp = some result) :
    replyMessage m env c type (w.update c ({ · with inp := stringz token ++ inp })) = result := by
  have absent (inp : Input) : replyNamed m (w.update c ({ · with inp })) c (token.take 255) = none := unnamed
  simp only [replyMessage,readFrom_next _ free,Code.ok_bind,absent]
  exact callDefault_handed given

theorem eventMessage_handed {service name : List UInt8} (free : 0 ∉ service ∧ 0 ∉ name)
    (known : ¬(((w.channels c).state = .started ∨ (w.channels c).state = .helloSent) ∧
      service.take 255 = locator ∧ name.take 255 = hello))
    (unhandled : findEventHandler m w c (service.take 255) (name.take 255) = none)
    (given : handed env c [type,service.take 255,name.take 255] w inp = some result) :
    eventMessage m env c type (w.update c ({ · with inp := stringz service ++ (stringz name ++ inp) })) = result := by
  have absent (inp : Input) : findEventHandler m (w.update c ({ · with inp })) c (service.take 255) (name.take 255) = none :=
    unhandled
  simp only [eventMessage,readFrom_next _ free.1,readFrom_next _ free.2,Code.ok_bind,update_same,if_neg known,absent]
  exact callDefault_handed given

end Kinds

theorem arity_one (count : 1 = arity type) :
    type ≠ stringC ∧ ¬(type = stringR ∨ type = stringP ∨ type = stringN) ∧ type ≠ stringE := by
  unfold arity at count
  split_ifs at count with command reply event
  · cases count
  · cases count
  · cases count
  · exact ⟨command,reply,event⟩

theorem dispatch_passes {γ : Type} {env : Handlers γ} {w : World γ} {result : Code (World γ)} (valid : msg.Valid)
    (inp : (w.channels c).inp = msg.items ++ rest) (pass : passes m w c msg = true)
    (given : handed env c (msg.args.map (List.take 255)) w (msg.body.map .byte ++ .eom :: rest) = some result) :
    handleProtocolMessage m env c w = result := by
  obtain ⟨args,body⟩ := msg
  obtain ⟨one,count,strings⟩ := valid
  simp only [Message.type] at one count
  simp only [Message.items,List.append_assoc,List.cons_append,List.nil_append] at inp
  rcases args with _ | ⟨type,args⟩
  · simp [passes] at pass
  have free := strings type List.mem_cons_self
  simp only [List.headD_cons] at one count
  rw [List.flatMap_cons,List.append_assoc] at inp
  rw [handleProtocolMessage,readFrom_text inp free,Code.ok_bind]
  simp only [take_type one (by decide : 1 < 8)]
  rw [List.map_cons,take_type one (by decide : 1 < 256)] at given
  have single : ¬type.length ≠ 1 := not_not_intro one
  rcases args with _ | ⟨first,_ | ⟨second,_ | ⟨third,_ | ⟨fourth,args⟩⟩⟩⟩
  · have other : type ≠ stringF := by simpa [passes] using pass
    obtain ⟨command,reply,event⟩ := arity_one count
    simp only [if_neg single,if_neg command,if_neg reply,if_neg event,if_neg other]
    exact callDefault_handed given
  · have found : (type = stringR ∨ type = stringP ∨ type = stringN) ∧ replyNamed m w c (first.take 255) = none := by
      simpa [passes,or_assoc] using pass
    have command : type ≠ stringC := by rintro rfl; exact absurd found.1 (by decide)
    simp only [if_neg single,if_neg command,if_pos found.1,List.flatMap_cons,List.flatMap_nil,List.append_nil]
    exact replyMessage_handed (strings first (by simp)) found.2 given
  · have found : type = stringE ∧ ¬(((w.channels c).state = .started ∨ (w.channels c).state = .helloSent) ∧
        first.take 255 = locator ∧ second.take 255 = hello) ∧
        findEventHandler m w c (first.take 255) (second.take 255) = none := by
      simp [passes] at pass
      tauto
    have others : type ≠ stringC ∧ ¬(type = stringR ∨ type = stringP ∨ type = stringN) := by
      rw [found.1]
      decide
    simp only [if_neg single,if_neg others.1,if_neg others.2,if_pos found.1,List.flatMap_cons,List.flatMap_nil,List.append_nil,
      List.append_assoc]
    exact eventMessage_handed ⟨strings first (by simp),strings second (by simp)⟩ found.2.1 found.2.2 given
  · have found : type = stringC ∧ (w.channels c).state = .connected ∧
        findMessageHandler m w (w.channels c).protocol (second.take 255) (third.take 255) = none := by
      simpa [passes,and_assoc] using pass
    simp only [if_neg single,if_pos found.1,List.flatMap_cons,List.flatMap_nil,List.append_nil,List.append_assoc]
    exact commandMessage_handed ⟨strings first (by simp),strings second (by simp),strings third (by simp)⟩ found.2.1 found.2.2 given
  · simp [passes] at pass

/-- The handlers of a proxy's own services, when none of them is the default one. -/
def locals {γ : Type} (env : Handlers γ) : Handlers γ := { env with default := fun _ c _ _ w => skipOn c w }

section Kinds

variable {set : Settings} {w : World (Clients κ)} {inp : Input} {type : List UInt8}

theorem commandMessage_own {service name : List UInt8} (free : 0 ∉ token ∧ 0 ∉ service ∧ 0 ∉ name)
    (own : ¬((w.channels c).state = .connected ∧
      findMessageHandler m w (w.channels c).protocol (service.take 255) (name.take 255) = none)) :
    commandMessage m (handlers p set env) c type
        (w.update c ({ · with inp := stringz token ++ (stringz service ++ (stringz name ++ inp)) })) =
      commandMessage m (locals env) c type
        (w.update c ({ · with inp := stringz token ++ (stringz service ++ (stringz name ++ inp)) })) := by
  simp only [commandMessage,readFrom_next _ free.1,readFrom_next _ free.2.1,readFrom_next _ free.2.2,Code.ok_bind,update_same]
  split
  · rfl
  · next connected =>
    have found : findMessageHandler m (w.update c ({ · with inp })) (w.channels c).protocol (service.take 255) (name.take 255) ≠ none :=
      fun absent => own ⟨not_not.mp connected,absent⟩
    split
    · rfl
    · next absent => exact absurd absent found

theorem replyMessage_own (free : 0 ∉ token) (own : replyNamed m w c (token.take 255) ≠ none) :
    replyMessage m (handlers p set env) c type (w.update c ({ · with inp := stringz token ++ inp })) =
      replyMessage m (locals env) c type (w.update c ({ · with inp := stringz token ++ inp })) := by
  have found : replyNamed m (w.update c ({ · with inp })) c (token.take 255) ≠ none := own
  simp only [replyMessage,readFrom_next _ free,Code.ok_bind]
  split
  · next absent => exact absurd absent found
  · rfl

theorem eventMessage_own {service name : List UInt8} (free : 0 ∉ service ∧ 0 ∉ name)
    (own : ((w.channels c).state = .started ∨ (w.channels c).state = .helloSent) ∧ service.take 255 = locator ∧
        name.take 255 = hello ∨ findEventHandler m w c (service.take 255) (name.take 255) ≠ none) :
    eventMessage m (handlers p set env) c type (w.update c ({ · with inp := stringz service ++ (stringz name ++ inp) })) =
      eventMessage m (locals env) c type (w.update c ({ · with inp := stringz service ++ (stringz name ++ inp) })) := by
  simp only [eventMessage,readFrom_next _ free.1,readFrom_next _ free.2,Code.ok_bind,update_same]
  split
  · rfl
  · next unexpected =>
    have found : findEventHandler m (w.update c ({ · with inp })) c (service.take 255) (name.take 255) ≠ none :=
      own.resolve_left unexpected
    split
    · rfl
    · next absent => exact absurd absent found

end Kinds

theorem args_of_arity {args : List (List UInt8)} (count : (type :: args).length = arity type) :
    (type = stringC ∧ ∃ token service name, args = [token,service,name]) ∨
    ((type = stringR ∨ type = stringP ∨ type = stringN) ∧ type ≠ stringC ∧ ∃ token, args = [token]) ∨
    (type = stringE ∧ ∃ service name, args = [service,name]) ∨
    (type ≠ stringC ∧ ¬(type = stringR ∨ type = stringP ∨ type = stringN) ∧ type ≠ stringE ∧ args = []) := by
  unfold arity at count
  split_ifs at count with command reply event
  · rcases args with _ | ⟨token,_ | ⟨service,_ | ⟨name,_ | _⟩⟩⟩ <;> simp at count
    exact .inl ⟨command,token,service,name,rfl⟩
  · rcases args with _ | ⟨token,_ | _⟩ <;> simp at count
    exact .inr (.inl ⟨reply,command,token,rfl⟩)
  · rcases args with _ | ⟨service,_ | ⟨name,_ | _⟩⟩ <;> simp at count
    exact .inr (.inr (.inl ⟨event,service,name,rfl⟩))
  · rcases args with _ | _ <;> simp at count
    exact .inr (.inr (.inr ⟨command,reply,event,rfl⟩))

/-- What does not pass is handled as it is without a proxy. -/
theorem dispatch_own {set : Settings} {w : World (Clients κ)} (valid : msg.Valid) (inp : (w.channels c).inp = msg.items ++ rest)
    (own : passes m w c msg = false) :
    handleProtocolMessage m (handlers p set env) c w = handleProtocolMessage m (locals env) c w := by
  obtain ⟨args,body⟩ := msg
  obtain ⟨one,count,strings⟩ := valid
  simp only [Message.type] at one count
  simp only [Message.items,List.append_assoc,List.cons_append,List.nil_append] at inp
  rcases args with _ | ⟨type,args⟩
  · simp at one
  have free := strings type List.mem_cons_self
  simp only [List.headD_cons] at one count
  rw [List.flatMap_cons,List.append_assoc] at inp
  simp only [handleProtocolMessage,readFrom_text inp free,Code.ok_bind,take_type one (by decide : 1 < 8)]
  have single : ¬type.length ≠ 1 := not_not_intro one
  obtain ⟨rfl,token,service,name,rfl⟩ | ⟨reply,command,token,rfl⟩ | ⟨rfl,service,name,rfl⟩ | ⟨command,reply,event,rfl⟩ :=
    args_of_arity count
  · simp only [if_neg single,if_true,List.flatMap_cons,List.flatMap_nil,List.append_nil,List.append_assoc]
    apply commandMessage_own ⟨strings token (by simp),strings service (by simp),strings name (by simp)⟩
    rintro ⟨connected,absent⟩
    simp [passes,connected,absent] at own
  · simp only [if_neg single,if_neg command,if_pos reply,List.flatMap_cons,List.flatMap_nil,List.append_nil]
    apply replyMessage_own (strings token (by simp))
    intro absent
    simp [passes,absent] at own
    tauto
  · have others : stringE ≠ stringC ∧ ¬(stringE = stringR ∨ stringE = stringP ∨ stringE = stringN) := by decide
    simp only [if_neg single,if_neg others.1,if_neg others.2,if_true,List.flatMap_cons,List.flatMap_nil,List.append_nil,
      List.append_assoc]
    apply eventMessage_own ⟨strings service (by simp),strings name (by simp)⟩
    simp [passes] at own
    tauto
  · have flow : type = stringF := by simpa [passes] using own
    simp only [if_neg single,if_neg command,if_neg reply,if_neg event,if_pos flow]

end Handler

/-! The proxy's own handlers. -/

def hasDefault {γ : Type} (w : World γ) (c : Address) : Prop := (w.protocols (w.channels c).protocol).defaultHandler ≠ none

/-- What handling a message of its own may do to the channels of a proxy: it reads from the one, and writes to both. -/
structure Tame {γ : Type} (p : Pair) (c : Address) (w w' : World γ) : Prop where
  defaults : ∀ d, p.Has d → hasDefault w d → hasDefault w' d
  outs : ∀ d, p.Has d → (w.channels d).out <+: (w'.channels d).out
  inputs : ∀ d, p.Has d → d ≠ c → (w'.channels d).inp = (w.channels d).inp

/-- Handlers of a proxy's own services. They take what is left of their message, and are tame. -/
structure Own {γ : Type} (p : Pair) (env : Handlers γ) : Prop where
  obedient : (locals env).Obedient
  command : ∀ fn token c data w w', env.command fn token c data w = .ok w' → Tame p c w w'
  event : ∀ fn c data w w', env.event fn c data w = .ok w' → Tame p c w w'
  reply : ∀ fn c data error w w', env.reply fn c data error w = .ok w' → Tame p c w w'
  progress : ∀ fn c data w w', env.progress fn c data w = .ok w' → Tame p c w w'
  opened : ∀ c w w', env.opened c w = .ok w' → Tame p c w w'

section Tame

variable {γ : Type} {m : MemUsage} {p : Pair} {env : Handlers γ} {c : Address} {w w' w'' : World γ}

theorem Tame.refl : Tame p c w w := ⟨fun _ _ h => h,fun _ _ => List.prefix_rfl,fun _ _ _ => rfl⟩

theorem Tame.trans (first : Tame p c w w') (second : Tame p c w' w'') : Tame p c w w'' where
  defaults d has h := second.defaults d has (first.defaults d has h)
  outs d has := (first.outs d has).trans (second.outs d has)
  inputs d has other := (second.inputs d has other).trans (first.inputs d has other)

theorem Tame.update {f : Channel → Channel} (protocol : ∀ ch, (f ch).protocol = ch.protocol) (out : ∀ ch, ch.out <+: (f ch).out) :
    Tame p c w (w.update c f) where
  defaults d _ h := by
    by_cases same : d = c
    · subst same
      simpa [hasDefault,World.update,protocol] using h
    · simpa [hasDefault,World.update,same] using h
  outs d _ := by
    by_cases same : d = c
    · subst same
      simpa [World.update] using out (w.channels d)
    · simp [World.update,same]
  inputs d _ other := by simp [World.update,other]

theorem Tame.input (inp : Input) : Tame p c w (w.update c ({ · with inp })) :=
  Tame.update (fun _ => rfl) (fun _ => List.prefix_rfl)

theorem Tame.table (replyHandlers : Nat → List ReplyHandlerInfo) : Tame p c w { w with replyHandlers } :=
  ⟨fun _ _ h => h,fun _ _ => List.prefix_rfl,fun _ _ _ => rfl⟩

/-- Whatever the code does is tame. -/
def TameCode (p : Pair) (c : Address) (w : World γ) (code : Code (World γ)) : Prop := ∀ w', code = .ok w' → Tame p c w w'

theorem TameCode.error {stop : Stop} : TameCode p c w (.error stop) := by
  intro w' run
  cases run

theorem TameCode.ok (tame : Tame p c w w') : TameCode p c w (.ok w') := by
  intro w'' run
  cases run
  exact tame

theorem TameCode.after {code : Code (World γ)} (first : Tame p c w w') (later : TameCode p c w' code) : TameCode p c w code :=
  fun w'' run => first.trans (later w'' run)

theorem TameCode.bind {code : Code (World γ)} {f : World γ → Code (World γ)} (first : TameCode p c w code)
    (later : ∀ w', TameCode p c w' (f w')) : TameCode p c w (code >>= f) := by
  intro w'' run
  obtain ⟨w',here,rest⟩ := Code.bind_ok_iff.mp run
  exact (first w' here).trans (later w' w'' rest)

theorem TameCode.read {α : Type} {read : Input → Code (α × Input)} {f : α × World γ → Code (World γ)}
    (later : ∀ a inp, TameCode p c (w.update c ({ · with inp })) (f (a,w.update c ({ · with inp })))) :
    TameCode p c w (readFrom c read w >>= f) := by
  intro w'' run
  obtain ⟨⟨a,w'⟩,here,rest⟩ := Code.bind_ok_iff.mp run
  obtain ⟨⟨a',inp⟩,_,made⟩ := Code.bind_ok_iff.mp here
  cases made
  exact (Tame.input inp).trans (later a inp w'' rest)

theorem skipOn_tame : TameCode p c w (skipOn c w) := by
  intro w' run
  obtain ⟨inp,_,made⟩ := Code.bind_ok_iff.mp run
  cases made
  exact Tame.input inp

theorem refuse_tame (token : List UInt8) : TameCode p c w (refuse c token w) := by
  apply TameCode.bind skipOn_tame
  intro w'
  exact TameCode.ok (Tame.update (fun _ => rfl) (fun _ => List.prefix_append _ _))

theorem callDefault_tame {args : List (List UInt8)} {otherwise : World γ → Code (World γ)}
    (other : TameCode p c w (otherwise w)) : TameCode p c w (callDefault (locals env) c args otherwise w) := by
  unfold callDefault
  dsimp only
  split
  · exact skipOn_tame
  · exact other

theorem commandMessage_tame (own : Own p env) : TameCode p c w (commandMessage m (locals env) c type w) := by
  unfold commandMessage
  apply TameCode.read
  intro token inp₁
  apply TameCode.read
  intro service inp₂
  apply TameCode.read
  intro name inp₃
  dsimp only
  split
  · exact refuse_tame token
  · split
    · exact own.command _ _ _ _ _
    · exact callDefault_tame (refuse_tame token)

theorem finishReply_tame (own : Own p env) (rh : ReplyHandlerInfo) :
    TameCode p c w (finishReply (locals env) c type rh w) := by
  unfold finishReply
  apply TameCode.bind
  · split
    · exact skipOn_tame
    · exact TameCode.ok Tame.refl
  · intro w'
    split
    · exact own.reply _ _ _ _ _
    · exact skipOn_tame

theorem replyMessage_tame (own : Own p env) : TameCode p c w (replyMessage m (locals env) c type w) := by
  unfold replyMessage
  apply TameCode.read
  intro token inp
  dsimp only
  split
  · exact callDefault_tame TameCode.error
  · split
    · split
      · exact own.progress _ _ _ _
      · exact skipOn_tame
    · exact TameCode.after (Tame.table _) (finishReply_tame own _)

theorem eventLocatorHello_tame (own : Own p env) : TameCode p c w (eventLocatorHello (locals env) c w) := by
  unfold eventLocatorHello
  apply TameCode.read
  intro list inp
  dsimp only
  split
  · exact TameCode.ok Tame.refl
  · split
    · exact TameCode.ok (Tame.update (fun _ => rfl) (fun _ => List.prefix_rfl))
    · refine TameCode.after ?_ (own.opened c _)
      exact Tame.update (fun _ => rfl) (fun _ => List.prefix_rfl)

theorem eventMessage_tame (own : Own p env) : TameCode p c w (eventMessage m (locals env) c type w) := by
  unfold eventMessage
  apply TameCode.read
  intro service inp₁
  apply TameCode.read
  intro name inp₂
  dsimp only
  split
  · exact eventLocatorHello_tame own
  · split
    · exact own.event _ _ _ _
    · exact callDefault_tame skipOn_tame

theorem dispatch_tame (own : Own p env) : TameCode p c w (handleProtocolMessage m (locals env) c w) := by
  unfold handleProtocolMessage
  apply TameCode.read
  intro type inp
  dsimp only
  split_ifs
  · exact TameCode.error
  · exact commandMessage_tame own
  · exact replyMessage_tame own
  · exact eventMessage_tame own
  · apply TameCode.read
    intro level inp
    exact TameCode.ok (Tame.update (fun _ => rfl) (fun _ => List.prefix_rfl))
  · exact callDefault_tame TameCode.error

end Tame

/-! Runs. -/

section Runs

variable {κ : Type} {m : MemUsage} {p : Pair} {env : Handlers (Clients κ)} {c : Address} {msg : Message}

theorem Pair.has_other (p : Pair) (c : Address) : p.Has (p.other c) := by
  unfold Pair.other Pair.Has
  split <;> simp

theorem Pair.other_other {p : Pair} {c : Address} (has : p.Has c) : p.other (p.other c) = c := by
  rcases has with rfl | rfl
  · simp [Pair.other,p.distinct.symm]
  · simp [Pair.other,p.distinct.symm]

theorem Pair.eq_or_other {p : Pair} {c d : Address} (has : p.Has c) (has' : p.Has d) : d = c ∨ d = p.other c := by
  rcases has with rfl | rfl <;> rcases has' with rfl | rfl <;> simp [Pair.other,p.distinct.symm]

/-- What went through the proxy from a channel to the other, in a run from `start`. -/
structure Carried (p : Pair) (start s : State κ) (c : Address) : Prop where
  default : hasDefault s.world c
  read : (start.world.channels c).inp = (s.read c).flatMap Message.items ++ (s.world.channels c).inp
  passed : (s.passed c).Sublist (s.read c)
  written : (s.world.channels (p.other c)).out =
    (start.world.channels (p.other c)).out ++ (s.written (p.other c)).flatMap Sent.items
  relayed : (s.written (p.other c)).filterMap Sent.message? = s.passed c

/-- A message that passes changes the input of its channel and the output of the other, unless an exception is raised. -/
theorem pass_step {set : Settings} {w w' : World (Clients κ)} {rest : Input} (has : p.Has c) (valid : msg.Valid)
    (inp : (w.channels c).inp = msg.items ++ rest) (pass : passes m w c msg = true) (default : hasDefault w c)
    (short : ∀ arg ∈ msg.args, arg.length ≤ 255) (open_ : (w.channels (p.other c)).state ≠ .disconnected)
    (run : handleProtocolMessage m (handlers p set env) c w = .ok w') :
    ∃ clients, w' = { relayed p c msg rest w with clients } := by
  obtain ⟨fn,some_⟩ := Option.ne_none_iff_exists'.mp default
  have uncut : msg.args.map (List.take 255) = msg.args := by
    calc
      msg.args.map (List.take 255) = msg.args.map id :=
        List.map_congr_left fun arg member => List.take_of_length_le (short arg member)
      _ = msg.args := List.map_id _
  generalize reading : w.update c ({ · with inp := msg.body.map .byte ++ .eom :: rest }) = v
  have given : handed (handlers p set env) c (msg.args.map (List.take 255)) w (msg.body.map .byte ++ .eom :: rest) =
      some (proxyDefaultMessageHandler p set c msg.args v) := by
    simp only [handed,some_,uncut,Option.map_some,← reading]
    rfl
  rw [dispatch_passes valid inp pass given] at run
  have other := p.other_ne c has
  have open_' : (v.channels (p.other c)).state ≠ .disconnected := by
    rw [← reading]
    simpa [World.update,other] using open_
  have inside : (v.channels c).inp = msg.body.map .byte ++ .eom :: rest := by
    rw [← reading]
    simp
  rcases proxyDefault_relays set valid open_' inside with raised | ⟨clients,delivered⟩
  · rw [raised] at run
    cases run
  · rw [delivered] at run
    cases run
    refine ⟨clients,?_⟩
    rw [← reading]
    simp [relayed,World.update,other]

theorem relayed_channels {w : World (Clients κ)} {rest : Input} (has : p.Has c) :
    ((relayed p c msg rest w).channels c) = { w.channels c with inp := rest } ∧
      ((relayed p c msg rest w).channels (p.other c)) =
        { w.channels (p.other c) with out := (w.channels (p.other c)).out ++ (relay msg).items } := by
  have other := p.other_ne c has
  simp [relayed,World.update,other,other.symm]

theorem prefix_appended {γ : Type} {w w' : World γ} {d : Address} (grown : (w.channels d).out <+: (w'.channels d).out) :
    (w'.channels d).out = (w.channels d).out ++ appended w w' d := by
  obtain ⟨more,equal⟩ := grown
  rw [appended,← equal,List.drop_left]

/-- What the proxy does for itself adds to the outputs only, and reads at most from the one channel. -/
theorem own_carried {start s : State κ} {w' : World (Clients κ)} {read : Address → List Message} {d : Address} (tame : Tame p c s.world w')
    (carried : Carried p start s d) (has : p.Has d)
    (input : (read d).flatMap Message.items ++ (w'.channels d).inp = (s.read d).flatMap Message.items ++ (s.world.channels d).inp)
    (more : s.read d <+: read d) :
    Carried p start { s with world := w', read, written := s.ownWrites w' } d where
  default := tame.defaults d has carried.default
  read := by rw [carried.read,← input]
  passed := carried.passed.trans more.sublist
  written := by
    have grown := prefix_appended (tame.outs (p.other d) (p.has_other d))
    simp [State.ownWrites,grown,carried.written,Sent.items]
  relayed := by simp [State.ownWrites,Sent.message?,carried.relayed]

theorem write_tame {γ : Type} {w : World γ} (items : List Item) : Tame p c w (write c items w) :=
  Tame.update (fun _ => rfl) (fun _ => List.prefix_append _ _)

theorem write_inp {γ : Type} (w : World γ) (items : List Item) (d : Address) :
    ((write c items w).channels d).inp = (w.channels d).inp := by
  by_cases same : d = c
  · subst same
    simp [write]
  · simp [write,World.update,same]

theorem counted_tame {γ : Type} {w : World γ} (q tokenid : Nat) (replyHandlers : Nat → List ReplyHandlerInfo) :
    Tame p c w { w with protocols := Function.update w.protocols q { w.protocols q with tokenid }, replyHandlers } where
  defaults d _ default := by
    by_cases same : (w.channels d).protocol = q
    · subst same
      simpa [hasDefault] using default
    · simpa [hasDefault,same] using default
  outs _ _ := List.prefix_rfl
  inputs _ _ _ := rfl

theorem send_tame {γ : Type} {w w' : World γ} {service name body : List UInt8} {rh : ReplyHandlerInfo}
    (run : protocolSendCommandWithProgress m c service name rh w = .ok w') :
    Tame p c w (write c (body.map .byte ++ [.eom]) w') ∧
      ∀ d, ((write c (body.map .byte ++ [.eom]) w').channels d).inp = (w.channels d).inp := by
  obtain ⟨⟨tokenid,next⟩,_,made⟩ := Code.bind_ok_iff.mp run
  cases made
  refine ⟨((write_tame _).trans (counted_tame _ _ _)).trans (write_tame _),?_⟩
  intro d
  rw [write_inp]
  exact write_inp w _ d

theorem items_inside (msg : Message) (rest : Input) : Inside rest (msg.items ++ rest) := by
  refine ⟨msg.args.flatMap (· ++ [0]) ++ msg.body,?_⟩
  have strings : (msg.args.flatMap (· ++ [0])).map Item.byte = msg.args.flatMap stringz := by
    rw [List.map_flatMap]
    rfl
  simp [Message.items,strings]

theorem relayed_default {w : World (Clients κ)} {rest : Input} {clients : Clients κ} {d : Address} (has : p.Has c) (has' : p.Has d)
    (default : hasDefault w d) : hasDefault { relayed p c msg rest w with clients } d := by
  obtain ⟨own,other⟩ := @relayed_channels κ p c msg w rest has
  have protocols : (relayed p c msg rest w).protocols = w.protocols := rfl
  rcases Pair.eq_or_other has has' with rfl | rfl
  · simpa only [hasDefault,own,protocols] using default
  · simpa only [hasDefault,other,protocols] using default

/-- The state after a message passed. -/
def State.pass (s : State κ) (p : Pair) (c : Address) (msg : Message) (world : World (Clients κ)) : State κ where
  world := world
  read := Function.update s.read c (s.read c ++ [msg])
  passed := Function.update s.passed c (s.passed c ++ [msg])
  written := Function.update s.written (p.other c) (s.written (p.other c) ++ [.relayed msg])

theorem pass_carried {start s : State κ} {rest : Input} {clients : Clients κ} {d : Address} (has : p.Has c) (has' : p.Has d)
    (split : (s.world.channels c).inp = msg.items ++ rest) (carried : Carried p start s d) :
    Carried p start (s.pass p c msg { relayed p c msg rest s.world with clients }) d := by
  have apart := p.other_ne c has
  obtain ⟨own,other⟩ := @relayed_channels κ p c msg s.world rest has
  have default := @relayed_default κ p c msg _ rest clients d has has' carried.default
  rcases Pair.eq_or_other has has' with rfl | rfl
  · refine ⟨default,?_,?_,?_,?_⟩
    · simp [State.pass,own,carried.read,split]
    · simpa [State.pass] using carried.passed.append_right [msg]
    · simp [State.pass,other,carried.written,Sent.items]
    · simp [State.pass,carried.relayed,Sent.message?]
  · have back : p.other (p.other c) = c := Pair.other_other has
    have read := carried.read
    have written := carried.written
    have relayed := carried.relayed
    rw [back] at written relayed
    refine ⟨default,?_,?_,?_,?_⟩
    · simp [State.pass,other,apart,read]
    · simpa [State.pass,apart] using carried.passed
    · simp [State.pass,back,own,apart.symm,written]
    · simp [State.pass,back,apart,apart.symm,relayed]

theorem step_carried {start s next : State κ} {event : Event} (own : Own p env) (can : Enabled p s event)
    (whole : Whole m p s event) (run : step m p env s event = .ok next) (carried : ∀ d, p.Has d → Carried p start s d) :
    ∀ d, p.Has d → Carried p start next d := by
  intro d has
  cases event with
  | send c service name body rh =>
    obtain ⟨world,sent,made⟩ := Code.bind_ok_iff.mp run
    cases made
    obtain ⟨tame,inputs⟩ := @send_tame m p c _ _ _ _ _ body _ sent
    exact own_carried tame (carried d has) has (by rw [inputs]) List.prefix_rfl
  | handle c msg set =>
    obtain ⟨here,valid,rest,split⟩ := can
    obtain ⟨world,handled,made⟩ := Code.bind_ok_iff.mp run
    by_cases pass : passes m s.world c msg
    · simp only [Whole,pass,if_true] at whole
      simp only [pass,if_true] at made
      cases made
      obtain ⟨clients,rfl⟩ := pass_step here valid split.symm pass (carried c here).default whole.1 whole.2 handled
      exact pass_carried here has split.symm (carried d has)
    · simp only [Whole,pass] at whole
      simp only [pass] at made
      cases made
      have inside : Inside rest (s.world.channels c).inp := by
        rw [← split]
        exact items_inside msg rest
      have own_run : handleProtocolMessage m (locals env) c s.world = .ok world := by
        rw [← dispatch_own valid split.symm (by simpa using pass),handled]
      have tame := dispatch_tame own world own_run
      have left : (world.channels c).inp = rest := by
        rcases dispatch_inside own.obedient inside whole.1 whole.2 with raised | ⟨w',same,left⟩
        · rw [raised] at own_run
          cases own_run
        · rw [same] at own_run
          cases own_run
          exact left
      by_cases same : d = c
      · subst same
        exact own_carried tame (carried d has) has (by simp [left,← split]) (by simp)
      · exact own_carried tame (carried d has) has (by simp [same,tame.inputs d has same]) (by simp [same])

theorem relay_command_token (command : msg.type = stringC) : (relay msg).args[1]? = (msg.args[1]?).map (0x52 :: ·) := by
  obtain ⟨args,body⟩ := msg
  rcases args with _ | ⟨type,_ | ⟨token,args⟩⟩
  · rfl
  · rfl
  · simp only [Message.type,List.headD_cons] at command
    simp [relay,command]

theorem relay_reply_token {rest : List (List UInt8)} (body : List UInt8)
    (reply : type = stringR ∨ type = stringP ∨ type = stringN) :
    (relay ⟨type :: token :: rest,body⟩).args[1]? = some token.tail := by
  have command : type ≠ stringC := by rintro rfl; exact absurd reply (by decide)
  simp [relay,command,reply]

/-- The prefix is no digit. -/
theorem decimal_unprefixed (n : Nat) (token : List UInt8) : decimal n ≠ 0x52 :: token := by
  intro equal
  have digits := (decimal_digits n).1
  rw [equal] at digits
  exact absurd (digits 0x52 List.mem_cons_self).2 (by decide)

theorem tokenNumber_prefixed (token : List UInt8) : tokenNumber (0x52 :: token) = none := by
  have plain : isSpace (.byte 0x52) = false := by decide
  have letter : isDigit 0x52 = false := by decide
  simp [tokenNumber,strtoul,plain,letter]

/-- A reply to a relayed command is for the client. -/
theorem reply_passes {γ : Type} (w : World γ) {answer : Message} (valid : answer.Valid)
    (reply : answer.type = stringR ∨ answer.type = stringP ∨ answer.type = stringN) (prefixed : answer.args[1]? = some (0x52 :: token)) :
    passes m w c answer = true ∧ (relay answer).args[1]? = some token := by
  obtain ⟨args,body⟩ := answer
  obtain ⟨one,count,strings⟩ := valid
  rcases args with _ | ⟨type,args⟩
  · simp at prefixed
  simp only [Message.type,List.headD_cons] at reply count
  obtain ⟨rfl,-⟩ | ⟨-,-,token',rfl⟩ | ⟨rfl,-⟩ | ⟨-,other,-⟩ := args_of_arity count
  · exact absurd reply (by decide)
  · obtain rfl : token' = 0x52 :: token := by simpa using prefixed
    have unnamed : replyNamed m w c (0x52 :: token.take 254) = none := by
      rw [replyNamed,tokenNumber_prefixed]
      rfl
    exact ⟨by simpa [passes,unnamed,or_assoc] using reply,relay_reply_token body reply⟩
  · exact absurd reply (by decide)
  · exact absurd reply other

/-- In a run in which nothing is cut off, each message that passes is read once and written once to the other channel, in
order and with its body, between what the proxy writes itself. The token of a command is no token of the proxy's own
commands, and a reply with it passes to the client with the token that the client chose. -/
theorem proxy_transparent (own : Own p env) {start final : State κ} {events : List Event}
    (fresh : ∀ c, p.Has c → hasDefault start.world c ∧ start.read c = [] ∧ start.passed c = [] ∧ start.written c = [])
    (run : (proxying m p env).exec start events = .ok final) (whole : (proxying m p env).Meets (Whole m p) start events) :
    ∀ c, p.Has c → Carried p start final c ∧ ∀ msg ∈ final.passed c, msg.type = stringC →
      (∀ i, ∀ rh ∈ final.world.replyHandlers i, (relay msg).args[1]? ≠ some (decimal rh.tokenid)) ∧
      ∀ answer : Message, answer.Valid → answer.type = stringR ∨ answer.type = stringP ∨ answer.type = stringN →
        answer.args[1]? = (relay msg).args[1]? →
        passes m final.world (p.other c) answer = true ∧ (relay answer).args[1]? = msg.args[1]? := by
  have initial : ∀ d, p.Has d → Carried p start start d := by
    intro d has
    obtain ⟨default,read,passed,-⟩ := fresh d has
    obtain ⟨-,-,-,written⟩ := fresh (p.other d) (p.has_other d)
    exact ⟨default,by simp [read],by simp [passed],by simp [written],by simp [written,passed]⟩
  have carried := (proxying m p env).exec_invariant (fun s => ∀ d, p.Has d → Carried p start s d)
    (fun s e next carried can whole run => step_carried own can whole run carried) initial run whole
  intro c has
  refine ⟨carried c has,?_⟩
  intro msg _ command
  rw [relay_command_token command]
  constructor
  · intro i rh _ same
    cases token : msg.args[1]? with
    | none => simp [token] at same
    | some token =>
      rw [token,Option.map_some] at same
      exact decimal_unprefixed _ _ (Option.some.inj same).symm
  · intro answer valid reply same
    cases token : msg.args[1]? with
    | none =>
      rw [token,Option.map_none] at same
      have count := valid.args
      rw [arity,if_neg (by rintro command; rw [command] at reply; exact absurd reply (by decide)),if_pos reply] at count
      simp at same
      omega
    | some token =>
      rw [token,Option.map_some] at same
      exact reply_passes _ valid reply same

end Runs

/-- Handlers that skip their messages. -/
def quiet {γ : Type} : Handlers γ where
  command _ _ c _ w := skipOn c w
  default _ c _ _ w := skipOn c w
  event _ c _ w := skipOn c w
  reply _ c _ error w := if error = 0 then skipOn c w else .ok w
  progress _ c _ w := skipOn c w
  opened _ w := .ok w

theorem quiet_own {γ : Type} (p : Pair) : Own p (quiet : Handlers γ) where
  obedient := {
    command := fun _ _ _ _ _ _ inside => skipOn_inside inside
    default := fun _ _ _ _ _ _ inside => skipOn_inside inside
    event := fun _ _ _ _ _ inside => skipOn_inside inside
    reply := fun _ _ _ _ _ inside => skipOn_inside inside
    failed := fun _ _ _ _ w nonzero => .inr ⟨w,if_neg nonzero,rfl⟩
    progress := fun _ _ _ _ _ inside => skipOn_inside inside
    opened := fun _ w => .inr ⟨w,rfl,rfl⟩ }
  command _ _ _ _ _ := skipOn_tame
  event _ _ _ _ := skipOn_tame
  reply fn c data error w := by
    simp only [quiet]
    split
    · exact skipOn_tame
    · exact TameCode.ok Tame.refl
  progress _ _ _ _ := skipOn_tame
  opened _ _ := TameCode.ok Tame.refl

def hostAndTarget : Pair := ⟨0,1,by decide⟩

/-- Two channels that are connected, and what comes in. -/
def connected (fromHost fromTarget : List Message) : State Unit where
  world := {
    channels := fun c => ⟨.connected,c,(if c = 0 then fromHost else fromTarget).flatMap Message.items,[],true,some [],0⟩
    protocols := fun _ => ⟨1,some 0,0⟩
    messageHandlers := fun _ => []
    eventHandlers := fun _ => []
    replyHandlers := fun _ => []
    clients := ⟨[],()⟩ }
  read := fun _ => []
  passed := fun _ => []
  written := fun _ => []

theorem connected_fresh (fromHost fromTarget : List Message) : ∀ c, hostAndTarget.Has c →
    hasDefault (connected fromHost fromTarget).world c ∧ (connected fromHost fromTarget).read c = [] ∧
      (connected fromHost fromTarget).passed c = [] ∧ (connected fromHost fromTarget).written c = [] := by
  intro c _
  exact ⟨by simp [hasDefault,connected],rfl,rfl,rfl⟩

/-- No logging, and an input buffer that is filled up to a byte. -/
def byteByByte : Settings := ⟨false,none,none,fun _ => 1⟩

/-- What passes is not cut off, and nothing else is handled. -/
def Passing (m : MemUsage) (p : Pair) (s : State Unit) : Event → Prop
  | .handle c msg _ => passes m s.world c msg = true ∧ (∀ arg ∈ msg.args, arg.length ≤ 255) ∧
    (s.world.channels (p.other c)).state ≠ .disconnected
  | .send _ _ _ _ _ => True

instance decidePassing (m : MemUsage) (p : Pair) (s : State Unit) : ∀ e, Decidable (Passing m p s e)
  | .handle c msg _ => inferInstanceAs (Decidable (passes m s.world c msg = true ∧ (∀ arg ∈ msg.args, arg.length ≤ 255) ∧
      (s.world.channels (p.other c)).state ≠ .disconnected))
  | .send _ _ _ _ _ => inferInstanceAs (Decidable True)

theorem Passing.whole {m : MemUsage} {p : Pair} (s : State Unit) (e : Event) (passing : Passing m p s e) : Whole m p s e := by
  cases e with
  | handle c msg set => simpa [Whole,passing.1] using passing.2
  | send c service name body rh => trivial

def command (token : List UInt8) : Message := ⟨[stringC,token,[0x53],[0x6e]],[0x31,0]⟩
def reply (token : List UInt8) : Message := ⟨[stringR,token],[0,3]⟩

/-- A command, one of the proxy itself, and the reply to the first. -/
theorem proxy_transparent_run : ∃ final : State Unit, final.passed 0 = [command [0x31]] ∧ final.passed 1 = [reply [0x52,0x31]] ∧
    (final.world.channels 0).out = (reply [0x31]).items ∧ Carried hostAndTarget (connected [command [0x31]] [reply [0x52,0x31]]) final 1 := by
  let events : List Event := [.handle 0 (command [0x31]) byteByByte,.send 1 [0x53] [0x6e] [0] ⟨0,0,0,none,none,0⟩,
    .handle 1 (reply [0x52,0x31]) byteByByte]
  obtain ⟨final,run,first,second,out⟩ : ∃ final, (proxying ⟨1,Nat.one_pos⟩ hostAndTarget quiet).exec
      (connected [command [0x31]] [reply [0x52,0x31]]) events = .ok final ∧ final.passed 0 = [command [0x31]] ∧
      final.passed 1 = [reply [0x52,0x31]] ∧ (final.world.channels 0).out = (reply [0x31]).items := by decide +kernel
  have passing : (proxying ⟨1,Nat.one_pos⟩ hostAndTarget quiet).Meets (Passing ⟨1,Nat.one_pos⟩ hostAndTarget)
      (connected [command [0x31]] [reply [0x52,0x31]]) events := by decide +kernel
  have whole := (proxying ⟨1,Nat.one_pos⟩ hostAndTarget quiet).meets_mono Passing.whole passing
  have carried := proxy_transparent (quiet_own hostAndTarget) (connected_fresh _ _) run whole
  exact ⟨final,first,second,out,(carried 1 (.inr rfl)).1⟩

/-- The longest token that is read whole comes back without its last byte: its prefix does not fit. -/
theorem reply_token_shortened : ∃ final, (proxying ⟨1,Nat.one_pos⟩ hostAndTarget quiet).exec
      (connected [command (List.replicate 255 0x61)] [reply (0x52 :: List.replicate 255 0x61)])
      [.handle 0 (command (List.replicate 255 0x61)) byteByByte,.handle 1 (reply (0x52 :: List.replicate 255 0x61)) byteByByte] = .ok final ∧
    final.passed 0 = [command (List.replicate 255 0x61)] ∧ final.passed 1 = [reply (0x52 :: List.replicate 255 0x61)] ∧
    (final.world.channels 1).out = (relay (command (List.replicate 255 0x61))).items ∧
    (final.world.channels 0).out = (reply (List.replicate 254 0x61)).items := by decide +kernel

end Tcf.Proxy
