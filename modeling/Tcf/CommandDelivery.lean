import Tcf.ProtocolDispatch
import Tcf.WireRoundTrip

/-! A command, from the output buffer on one side of a TCP channel to the handler on the other. -/
namespace Tcf.CommandDelivery

open Framing InputBuf WireRoundTrip ChannelInput Protocol
open ChannelOutput (BufSize tcpFlushWithFlags)

/-- A command for which there is a handler at the other end. -/
structure Command {γ : Type} (m : MemUsage) (peer : World γ) (c : Address) where
  token : List UInt8
  service : List UInt8
  name : List UInt8
  body : List UInt8
  handler : MessageHandlerInfo
  strings : ∀ str ∈ [token,service,name], 0 ∉ str ∧ str.length < 256
  connected : (peer.channels c).state = .connected
  found : findMessageHandler m peer (peer.channels c).protocol service name = some handler

variable {γ : Type} {m : MemUsage} {peer : World γ} {c : Address} (cmd : Command m peer c) (env : Handlers γ)

/-- Up to the body this is what `protocol_send_command_with_progress` writes. -/
def Command.items : List Item :=
  stringz stringC ++ (stringz cmd.token ++ (stringz cmd.service ++ (stringz cmd.name ++ cmd.body.map .byte))) ++ [.eom]

/-- With the message in its input the dispatcher calls the handler, and leaves the body to it. -/
def Command.Called (items : List Item) : Prop :=
  handleProtocolMessage m env c (peer.update c ({ · with inp := items })) = env.command cmd.handler.handler cmd.token c
    cmd.handler.clientData (peer.update c ({ · with inp := cmd.body.map .byte ++ [.eom] }))

theorem Command.called : cmd.Called env cmd.items := by
  have read : ∀ size, ∀ str : List UInt8, 0 ∉ str ∧ str.length < size → ∀ rest,
      readFrom c (readStringz size []) (peer.update c ({ · with inp := stringz str ++ rest })) =
        .ok (str,peer.update c ({ · with inp := rest })) := by
    intro size str ⟨nulFree,short⟩ rest
    rw [readFrom_text (by rw [update_same]) nulFree,List.take_of_length_le (by omega)]
    simp [World.update]
  obtain ⟨token,service,name,-⟩ := (by simpa only [List.forall_mem_cons] using cmd.strings)
  have type : stringC.length = 1 := rfl
  have found : ∀ inp, findMessageHandler m (peer.update c ({ · with inp })) (peer.channels c).protocol cmd.service cmd.name =
    some cmd.handler := fun _ => cmd.found
  rw [Called,handleProtocolMessage,items,List.append_assoc,read _ _ (by decide)]
  simp only [Code.ok_bind,type,not_true,ne_eq,if_false,if_true,commandMessage,List.append_assoc,read _ _ token,
    read _ _ service,read _ _ name,update_same,cmd.connected,found]

theorem ends_outside {α : Type} {front back rest : List α} {x : α} (same : front ++ [x] = back ++ rest) (outside : x ∉ rest) :
    rest = [] := by
  by_contra some_
  have last := congrArg List.getLast? same
  rw [List.getLast?_concat,List.getLast?_append_of_ne_nil _ some_] at last
  exact outside (List.mem_of_getLast? last.symm)

/-- The buffer can be flushed, and however the bytes come and are read, no assertion fails. The handler is called with the
body once all has been read, and that can always be reached. -/
def Delivered (w : Build) {size : BufSize} (out : (tcpStream size w.int).Writing) : Prop :=
  ∃ sent, tcpFlushWithFlags size out.state = .ok sent ∧
    ∀ events, (process w).Meets (Feeds sent.flushed.flatten) (initial w) events →
      (process w).exec (initial w) events ≠ .error .assertion ∧
      ∀ s, (process w).exec (initial w) events = .ok s →
        (s.arrived = sent.flushed.flatten → Quiet w s → cmd.Called env (readsOf (log s))) ∧
        ∃ more done, (process w).exec s more = .ok done ∧ (process w).Meets (Feeds sent.flushed.flatten) s more ∧
          cmd.Called env (readsOf (log done))

end Tcf.CommandDelivery
