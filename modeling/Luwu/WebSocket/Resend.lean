import Luwu.WebSocket.Limit
import Luwu.WebSocket.RoundTrip

/-!
# One message sent more than once

`WSSendMessage` gets a pointer to the message.  On the client side it masks the data where they are
and does not take the mask off again, so the next call finds what the last one has left.
-/

namespace Luwu.WebSocket

open Lib

/-! ## The data that a call leaves -/

/-- The bytes of the mask that meet `n` bytes of data are 0. -/
def Blank (rand : BitVec 32) (n : Nat) : Prop :=
  ∀ i < n, i < 4 → (ByteArray.toBytes 4 rand).getD i 0 = 0

instance (rand : BitVec 32) (n : Nat) : Decidable (Blank rand n) := by
  unfold Blank
  infer_instance

theorem maskByte_eq_self {mask : Bytes} {i : Nat} {b : UInt8} :
    maskByte mask i b = b ↔ mask.getD (i % 4) 0 = 0 := by
  unfold maskByte
  constructor
  · intro h
    calc
      mask.getD (i % 4) 0 = b ^^^ (b ^^^ mask.getD (i % 4) 0) := by
        rw [← UInt8.xor_assoc, UInt8.xor_self, UInt8.zero_xor]
      _ = 0 := by rw [h, UInt8.xor_self]
  · intro h
    rw [h, UInt8.xor_zero]

theorem mapIdx_maskByte_eq_self (rand : BitVec 32) (d : Bytes) :
    d.mapIdx (maskByte (ByteArray.toBytes 4 rand)) = d ↔ Blank rand d.length := by
  constructor
  · intro h i hi hlt
    have hbyte : maskByte (ByteArray.toBytes 4 rand) i d[i] = d[i] := by
      have := List.getElem_of_eq h (show i < _ by rw [List.length_mapIdx]; exact hi)
      rwa [List.getElem_mapIdx] at this
    rw [maskByte_eq_self, Nat.mod_eq_of_lt hlt] at hbyte
    exact hbyte
  · intro h
    apply List.ext_getElem
    · exact List.length_mapIdx
    · intro i hi hi'
      rw [List.getElem_mapIdx, maskByte_eq_self]
      -- the bytes behind the fourth one meet the same four bytes of the mask
      exact h (i % 4) (by omega) (by omega)

theorem sentData_eq_self (client : Bool) (rand : BitVec 32) (d : Bytes) :
    sentData client rand d = d ↔ client = false ∨ Blank rand d.length := by
  cases client with
  | false => exact iff_of_true rfl (.inl rfl)
  | true =>
    show d.mapIdx _ = d ↔ _
    rw [mapIdx_maskByte_eq_self]
    simp

/-! ## One call on any stream -/

/-- The calls of a stream that a sender uses. -/
structure Sink (σ : Type) where
  /-- What `writeFixSize` returns, and the stream after it. -/
  writeFixSize : σ → Bytes → Int × σ
  close : σ → σ

namespace Sink

variable {σ : Type} (k : Sink σ)

/-- `writeFixSize` calls in a row, until one fails. -/
def writeAll (s : σ) : List Bytes → Bool × σ
  | [] => (true, s)
  | d :: ds =>
    let w := k.writeFixSize s d
    if w.1 ≤ 0 then (false, w.2) else writeAll w.2 ds

/-- `WSSendMessage` on a stream whose calls may fail at any point. -/
def wsSendMessage (s : σ) (msg : WSFrameMessage) (client fin : Bool) (rand : BitVec 32) :
    Int × σ × WSFrameMessage :=
  let size := msg.data.length
  let head : WSFrameHead :=
    { fin, opcode := BitVec.ofInt 4 msg.opcode, mask := client, payload := payloadField size }
  let w := k.writeAll s (head.toBytes :: lengthParts size)
  if w.1 then
    let mask := ByteArray.toBytes 4 rand
    -- the data of the message is masked in place
    let data := if client then msg.data.mapIdx (maskByte mask) else msg.data
    let w := k.writeAll w.2 ((if client then [mask] else []) ++ [data])
    if w.1 then (int32 (size + headSize), w.2, { msg with data })
    else (-1, k.close w.2, { msg with data })
  else (-1, k.close w.2, msg)

/-- The stream takes the header of the message and its length. -/
def TakesHead (s : σ) (msg : WSFrameMessage) (client fin : Bool) : Prop :=
  (k.writeAll s ((messageHead msg client fin).toBytes :: lengthParts msg.data.length)).1 = true

theorem wsSendMessage_msg (s : σ) (msg : WSFrameMessage) (client fin : Bool) (rand : BitVec 32)
    [Decidable (k.TakesHead s msg client fin)] :
    (k.wsSendMessage s msg client fin rand).2.2 =
      if k.TakesHead s msg client fin then { msg with data := sentData client rand msg.data }
      else msg := by
  unfold wsSendMessage
  dsimp only
  by_cases h : k.TakesHead s msg client fin
  · rw [if_pos h]
    unfold TakesHead messageHead at h
    rw [if_pos h, sentData]
    -- the data are masked, whether the second half gets through or not
    simp only [apply_ite Prod.snd, ite_self]
  · rw [if_neg h]
    unfold TakesHead messageHead at h
    rw [if_neg h]

/-- **A call leaves the message as it is just when it masks nothing, or does not get as far.** -/
theorem unaltered_iff (s : σ) (msg : WSFrameMessage) (client fin : Bool) (rand : BitVec 32) :
    (k.wsSendMessage s msg client fin rand).2.2 = msg ↔
      client = false ∨ ¬ k.TakesHead s msg client fin ∨ Blank rand msg.data.length := by
  classical
  rw [wsSendMessage_msg]
  by_cases h : k.TakesHead s msg client fin
  · rw [if_pos h]
    have hdata : ({ msg with data := sentData client rand msg.data } : WSFrameMessage) = msg ↔
        sentData client rand msg.data = msg.data := by
      constructor
      · exact congrArg WSFrameMessage.data
      · intro hd
        rw [hd]
    rw [hdata, sentData_eq_self]
    simp [h]
  · rw [if_neg h]
    exact iff_of_true rfl (.inr (.inl h))

end Sink

def streamSink : Sink Stream where
  writeFixSize s d := ((s.writeFixSize d).1, (s.writeFixSize d).2)
  close := Stream.close

theorem streamSink_writeAll (s : Stream) (ds : List Bytes) :
    streamSink.writeAll s ds = writeAll s ds := by
  induction ds generalizing s with
  | nil => rfl
  | cons d ds ih =>
    rw [Sink.writeAll, writeAll]
    show (if ((s.writeFixSize d).1 : Int) ≤ 0 then _ else _) = _
    by_cases h : (s.writeFixSize d).1 ≤ 0
    · rw [if_pos h, if_pos (by omega)]
      rfl
    · rw [if_neg h, if_neg (by omega)]
      exact ih _

/-- `WSSendMessage` of the model is that of its streams. -/
theorem streamSink_wsSendMessage (s : Stream) (msg : WSFrameMessage) (client fin : Bool)
    (rand : BitVec 32) :
    streamSink.wsSendMessage s msg client fin rand = wsSendMessage s msg client fin rand := by
  unfold Sink.wsSendMessage wsSendMessage
  dsimp only
  simp only [streamSink_writeAll]
  rfl

/-! ## What a message costs -/

section Cost

variable {client : Bool} {maxSize : UInt32} {st : Recv} {s : Stream}

/-- The bytes of a frame before its payload of `n` bytes, at least, for the side that receives
it. -/
def headerCost (client : Bool) (n : Nat) : Nat :=
  (if n < 126 then 2 else 4) + (if client then 0 else 4)

theorem readLength_cost {head : WSFrameHead} {length : Nat} {s' : Stream}
    (h : readLength head s = (some length, s')) :
    s'.input.length + (if length < 126 then 0 else 2) ≤ s.input.length := by
  have h₂ := s.readFixSize_input_length 2
  have h₈ := s.readFixSize_input_length 8
  unfold readLength at h
  dsimp only at h
  split at h
  · split at h
    · cases h
    · next hpos =>
      have := s.length_of_readFixSize_pos (Nat.lt_of_not_le hpos)
      obtain ⟨hlength, hs⟩ := Prod.mk.inj h
      rw [← hs]
      split <;> omega
  · split at h
    · split at h
      · cases h
      · next hpos =>
        have := s.length_of_readFixSize_pos (Nat.lt_of_not_le hpos)
        obtain ⟨hlength, hs⟩ := Prod.mk.inj h
        rw [← hs]
        split <;> omega
    · next h₁ h₂ =>
      -- the header holds lengths below 126
      have hne₁ : head.payload.toNat ≠ 126 := fun h => h₁ (BitVec.eq_of_toNat_eq h)
      have hne₂ : head.payload.toNat ≠ 127 := fun h => h₂ (BitVec.eq_of_toNat_eq h)
      have hlt := head.payload.isLt
      cases h
      rw [if_pos (by omega)]
      omega

theorem readMask_cost {head : WSFrameHead} {mask : Bytes} {s' : Stream}
    (h : readMask head s = (some mask, s')) :
    s'.input.length + (if head.mask then 4 else 0) ≤ s.input.length := by
  have h₄ := s.readFixSize_input_length 4
  unfold readMask at h
  dsimp only at h
  split at h
  · next hmask =>
    split at h
    · cases h
    · next hpos =>
      have := s.length_of_readFixSize_pos (Nat.lt_of_not_le hpos)
      cases h
      rw [if_pos hmask]
      omega
  · next hmask =>
    cases h
    rw [if_neg hmask]
    omega

theorem resizes_cost {head : WSFrameHead} {length : Nat} {mask : Bytes}
    (h : resizes client maxSize st = some (head, length, mask, s)) :
    s.input.length + headerCost client length ≤ st.stream.input.length := by
  have hhead := st.stream.readFixSize_input_length headSize
  unfold resizes at h
  dsimp only at h
  split at h
  · cases h
  · next hguard =>
    rw [not_or, not_or, not_not] at hguard
    obtain ⟨hpos, -, hrole⟩ := hguard
    have hlen := st.stream.length_of_readFixSize_pos (Nat.lt_of_not_le hpos)
    split at h
    · cases h
    · next length' s₁ hlength =>
      have hcost := readLength_cost hlength
      split at h
      · cases h
      · split at h
        · cases h
        · next mask' s₂ hmask =>
          have hcost' := readMask_cost hmask
          cases h
          -- a server takes masked frames only
          have hmasked : (if client then 0 else 4) ≤
              if (WSFrameHead.ofBytes (st.stream.readFixSize headSize).2.1).mask then 4 else 0 := by
            cases client with
            | true => exact Nat.zero_le _
            | false =>
              have hmask :
                  (WSFrameHead.ofBytes (st.stream.readFixSize headSize).2.1).mask = true := by
                simpa using hrole
              rw [if_pos hmask]
              exact Nat.le_refl 4
          have htwo : headSize = 2 := rfl
          unfold headerCost
          split at hcost
          · next hshort =>
            rw [if_pos hshort]
            omega
          · next hlong =>
            rw [if_neg hlong]
            omega

/-- A pass ends the loop, takes a header and what belongs to it, or a payload with all before it. -/
theorem recvFrame_cost (client : Bool) (maxSize : UInt32) (hlen : st.data.length = st.curLen) :
    recvFrame client maxSize st = .overrun ∨
    (∃ s, recvFrame client maxSize st = .broke s) ∨
    (∃ s, recvFrame client maxSize st = .next { st with stream := s } ∧
      s.input.length + headSize ≤ st.stream.input.length) ∨
    ∃ data s opcode length, data.length = st.data.length + length ∧ 0 < length ∧
      data.length < maxSize.toNat ∧
      s.input.length + length + headerCost client length ≤ st.stream.input.length ∧
      (recvFrame client maxSize st = .message { opcode, data } s ∨
        recvFrame client maxSize st =
          .next { stream := s, opcode, data, curLen := data.length }) := by
  cases hr : resizes client maxSize st with
  | none =>
    rcases recvFrame_not_resizes hr with hbroke | hnext
    · exact .inr (.inl hbroke)
    · exact .inr (.inr (.inl hnext))
  | some r =>
    obtain ⟨head, length, mask, s⟩ := r
    obtain ⟨hpass, hsize⟩ := recvFrame_resizes hr
    have hcost := resizes_cost hr
    have hmax := maxSize.toNat_lt
    rcases recvPayload_cases head length ((widen st.curLen + length) % 2 ^ 64) mask s st with
      hover | ⟨s', hbroke⟩ | ⟨data, s', opcode, hin, hdata, hpos, hread, hend⟩
    · exact .inl (hpass.trans hover)
    · exact .inr (.inl ⟨s', hpass.trans hbroke⟩)
    · right; right; right
      -- the sum has not wrapped around, so it is that of the lengths
      have hwiden : widen st.curLen = st.curLen := by
        by_cases hsmall : st.curLen < 2 ^ 31
        · exact widen_of_lt hsmall
        · rw [widen, if_neg hsmall] at hin hsize
          omega
      rw [hwiden] at hin hsize hdata hend
      have htotal : data.length = st.data.length + length := by omega
      refine ⟨data, s', opcode, length, htotal, hpos, by omega, by omega, ?_⟩
      rw [hpass, hwiden, hend, ← hdata, Nat.mod_eq_of_lt (by omega)]
      split
      · exact .inl rfl
      · exact .inr rfl

/-- The bytes of a message of `n` bytes on the stream, at least. -/
def messageCost (client : Bool) (n : Nat) : Nat := if n = 0 then 0 else n + headerCost client n

theorem messageCost_add (client : Bool) (m : Nat) {n : Nat} (hn : 0 < n) :
    messageCost client (m + n) ≤ messageCost client m + (n + headerCost client n) := by
  unfold messageCost headerCost
  rw [if_neg (by omega)]
  -- the mask comes with every frame; two short headers are no shorter than a long one
  generalize (if client = true then 0 else 4) = key
  have hmost : (if m + n < 126 then 2 else 4) ≤ 4 := by split <;> decide
  have hleast (k : Nat) : 2 ≤ if k < 126 then 2 else 4 := by split <;> decide
  have := hleast m
  have := hleast n
  by_cases hm : m = 0
  · rw [if_pos hm, hm, Nat.zero_add]
    omega
  · rw [if_neg hm]
    omega

/-- **A message that arrives has data, is below the limit and has been on the stream.** -/
theorem recvLoop_cost {m : WSFrameMessage} (hlen : st.data.length = st.curLen)
    (h : recvLoop client maxSize st = .message m s) :
    m.data ≠ [] ∧ m.data.length < maxSize.toNat ∧
      messageCost client m.data.length + s.input.length ≤
        messageCost client st.data.length + st.stream.input.length := by
  induction hn : st.stream.input.length using Nat.strongRecOn generalizing st with
  | ind n ih =>
    rcases recvFrame_cost client maxSize hlen with
      hover | ⟨s', hbroke⟩ | ⟨s', hnext, hin⟩ |
        ⟨data, s', opcode, length, hdata, hpos, hmax, hin, hend⟩
    · rw [recvLoop_overrun hover] at h
      cases h
    · rw [recvLoop_broke hbroke] at h
      cases h
    · -- a control frame is shorter input for the same data
      rw [recvLoop_next hnext] at h
      unfold headSize at hin
      have hlen' : ({ st with stream := s' } : Recv).data.length = st.curLen := hlen
      obtain ⟨hne, hlt, hcost⟩ := ih s'.input.length (by omega) hlen' h rfl
      exact ⟨hne, hlt, hcost.trans (by dsimp only; omega)⟩
    · -- the frame pays for what it adds to the message
      have hadd := messageCost_add client st.data.length hpos
      rw [← hdata] at hadd
      rcases hend with hmsg | hnext
      · rw [recvLoop_message hmsg] at h
        cases h
        show data ≠ [] ∧ data.length < _ ∧ messageCost client data.length + _ ≤ _
        have hne : 0 < data.length := by omega
        exact ⟨List.length_pos_iff.mp hne, hmax, by omega⟩
      · rw [recvLoop_next hnext] at h
        have hlen' : ({ stream := s', opcode, data, curLen := data.length } : Recv).data.length =
            data.length := rfl
        obtain ⟨hne, hlt, hcost⟩ := ih s'.input.length (by omega) hlen' h rfl
        exact ⟨hne, hlt, hcost.trans (by dsimp only; omega)⟩

theorem wsRecvMessage_cost {r : Stream} {m : WSFrameMessage}
    (h : wsRecvMessage client maxSize r = .message m s) :
    m.data ≠ [] ∧ m.data.length < maxSize.toNat ∧
      messageCost client m.data.length + s.input.length ≤ r.input.length := by
  obtain ⟨hne, hlt, hcost⟩ := recvLoop_cost rfl h
  exact ⟨hne, hlt, hcost.trans_eq (Nat.zero_add _)⟩

end Cost

/-! ## The same message again -/

/-- A message sent once for each mask; the stream and the message after that. -/
def sendRepeated (client : Bool) :
    List (BitVec 32) → Stream → WSFrameMessage → Stream × WSFrameMessage
  | [], t, msg => (t, msg)
  | rand :: rands, t, msg =>
    let w := wsSendMessage t msg client true rand
    sendRepeated client rands w.2.1 w.2.2

/-- The data of `n` messages received in a row; `none` when one does not come. -/
def recvRepeated (client : Bool) (maxSize : UInt32) : Nat → Stream → Option (List Bytes)
  | 0, _ => some []
  | n + 1, r =>
    match wsRecvMessage client maxSize r with
    | .message m r' => (recvRepeated client maxSize n r').map (m.data :: ·)
    | .null _ | .overrun => none

/-- The peer gets the data of the message once for each mask, whatever comes behind. -/
def Repeats (client : Bool) (maxSize : UInt32) (rands : List (BitVec 32)) (t : Stream)
    (msg : WSFrameMessage) : Prop :=
  let bytes := (sendRepeated client rands t msg).1.output.drop t.output.length
  ∀ (r : Stream) (rest : Bytes),
    recvRepeated (!client) maxSize rands.length { r with input := bytes ++ rest } =
      some (List.replicate rands.length msg.data)

section Resend

variable {client : Bool} {maxSize : UInt32} {rand : BitVec 32} {rands : List (BitVec 32)}
  {t r : Stream} {msg : WSFrameMessage} {rest : Bytes}

theorem recvRepeated_succ {n : Nat} {ds : List Bytes}
    (h : recvRepeated client maxSize (n + 1) r = some ds) :
    ∃ m r' ds', wsRecvMessage client maxSize r = .message m r' ∧
      recvRepeated client maxSize n r' = some ds' ∧ ds = m.data :: ds' := by
  rw [recvRepeated] at h
  split at h
  · next m r' hrecv =>
    obtain ⟨ds', hrest, hds⟩ := Option.map_eq_some_iff.mp h
    exact ⟨m, r', ds', hrecv, hrest, hds.symm⟩
  · cases h
  · cases h

theorem recvRepeated_cost {n : Nat} {d : Bytes}
    (h : recvRepeated client maxSize n r = some (List.replicate n d)) :
    n * messageCost client d.length ≤ r.input.length := by
  induction n generalizing r with
  | zero => omega
  | succ n ih =>
    obtain ⟨m, r', ds', hrecv, hrest, hds⟩ := recvRepeated_succ h
    rw [List.replicate_succ] at hds
    obtain ⟨hd, hds⟩ := List.cons.inj hds
    obtain ⟨-, -, hcost⟩ := wsRecvMessage_cost hrecv
    rw [← hds] at hrest
    rw [← hd] at hcost
    have := ih hrest
    rw [Nat.add_mul, Nat.one_mul]
    omega

def wire (client : Bool) (rand : BitVec 32) (msg : WSFrameMessage) : Bytes :=
  (messageHead msg client true).toBytes ++ (lengthParts msg.data.length).flatten ++
    (sendRest client rand msg.data).flatten

def wireAll (client : Bool) : List (BitVec 32) → WSFrameMessage → Bytes
  | [], _ => []
  | rand :: rands, msg =>
    wire client rand msg ++ wireAll client rands { msg with data := sentData client rand msg.data }

theorem sendRepeated_writes (client : Bool) (rands : List (BitVec 32)) (hw : t.writable = true)
    (hne : msg.data ≠ []) :
    ∃ room, (sendRepeated client rands t msg).1 =
      { t with output := t.output ++ wireAll client rands msg, room } := by
  induction rands generalizing t msg with
  | nil =>
    refine ⟨t.room, ?_⟩
    show t = _
    rw [wireAll, List.append_nil]
  | cons rand rands ih =>
    obtain ⟨room, hsend⟩ := wsSendMessage_writes msg client true rand hw hne
    have hne' : ({ msg with data := sentData client rand msg.data } : WSFrameMessage).data ≠ [] :=
      sentData_ne_nil hne
    rw [sendRepeated, hsend, List.append_assoc]
    obtain ⟨room', hrest⟩ := ih
      (t := { t with output := t.output ++ wire client rand msg, room }) hw hne'
    refine ⟨room', hrest.trans ?_⟩
    rw [wireAll, List.append_assoc]

theorem sendRepeated_unwritable (hw : t.writable = false) :
    (sendRepeated client rands t msg).1.output = t.output := by
  induction rands generalizing t msg with
  | nil => rfl
  | cons rand rands ih =>
    have hsend : wsSendMessage t msg client true rand = (-1, t.close, msg) := by
      unfold wsSendMessage
      dsimp only
      rw [writeAll, Stream.writeFixSize_unwritable hw]
      rfl
    rw [sendRepeated, hsend]
    exact ih hw

/-! ### Messages that arrive -/

/-- The opcode of a message that `WSRecvMessage` takes for one. -/
def DataOpcode (msg : WSFrameMessage) : Prop :=
  BitVec.ofInt 4 msg.opcode = WSFrameHead.CONTINUE ∨
    BitVec.ofInt 4 msg.opcode = WSFrameHead.TEXT_FRAME ∨
    BitVec.ofInt 4 msg.opcode = WSFrameHead.BIN_FRAME

instance (msg : WSFrameMessage) : Decidable (DataOpcode msg) := by
  unfold DataOpcode
  infer_instance

theorem DataOpcode.code (h : DataOpcode msg) :
    ∃ opcode : Opcode, opcode.isControl = false ∧ BitVec.ofInt 4 msg.opcode = opcode.code := by
  rcases h with h | h | h
  · exact ⟨.continuation, rfl, h⟩
  · exact ⟨.text, rfl, h⟩
  · exact ⟨.binary, rfl, h⟩

/-- What the receiver of a message with the data `d` stores: a length from 2^31 on is negative as an
`int`, and the data stay masked. -/
def arriving (client : Bool) (rand : BitVec 32) (d : Bytes) : Bytes :=
  if d.length < 2 ^ 31 then d else sentData client rand d

theorem int32_le (n : Nat) : int32 n < 2 ^ 31 := by
  unfold int32
  split <;> omega

theorem received_sent {opcode : Opcode} (hop : opcode.isControl = false) {d : Bytes}
    (hlt : d.length < 2 ^ 32) :
    (Frame.sent opcode client true rand d hop (hlt.trans (by decide))).received =
      arriving client rand d := by
  unfold arriving
  split
  · next hsmall => exact Frame.received_eq hsmall
  · next hlarge =>
    cases client with
    | false => rfl
    | true =>
      have hneg : int32 d.length ≤ 0 := by
        rw [int32, Nat.mod_eq_of_lt hlt, if_neg hlarge]
        omega
      show unmask _ _ (d.mapIdx (maskByte (ByteArray.toBytes 4 rand))) = d.mapIdx _
      apply List.ext_getElem
      · exact length_unmask _ _ _
      · intro i h₁ h₂
        -- no index is below the length
        have hidx : ¬ (i : Int) < int32 d.length := by omega
        simp [unmask, Frame.head, Frame.sent, hidx]

theorem Frame.accept_first {f : Frame} {st : Recv} {s : Stream} (hcur : st.curLen = 0)
    (hfin : f.fin = true) (hne : f.payload ≠ []) :
    f.accept st s = .message { opcode := takeOpcode f.head st.opcode, data := f.received } s := by
  have hlt := f.length_lt
  have hwiden : widen st.curLen = 0 := by
    rw [hcur]
    exact widen_of_lt (by decide)
  have htotal : f.total st = f.payload.length := by
    rw [Frame.total, hwiden, Nat.zero_add, Nat.mod_eq_of_lt (by omega)]
  have hint := int32_le f.payload.length
  -- the payload fills the whole buffer
  have hdata : splice (resize st.data f.payload.length) 0 f.received = f.received := by
    have hlen : f.received.length = f.payload.length := by
      rw [Frame.received, length_unmask, Frame.length_masked]
    rw [splice, List.take_zero, List.nil_append, List.drop_of_length_le, List.append_nil]
    rw [length_resize, hlen]
    omega
  unfold Frame.accept
  rw [htotal, hwiden, hcur, if_neg (by omega), if_neg hne, if_neg (by omega), hdata, if_pos hfin]

theorem wire_eq {opcode : Opcode} (hcontrol : opcode.isControl = false)
    (hcode : BitVec.ofInt 4 msg.opcode = opcode.code) (hlt : msg.data.length < 2 ^ 63) :
    wire client rand msg = (Frame.sent opcode client true rand msg.data hcontrol hlt).encode := by
  let f := Frame.sent opcode client true rand msg.data hcontrol hlt
  have hhead : messageHead msg client true = f.head := by
    rw [messageHead, hcode]
    cases client <;> rfl
  have hlength : (lengthParts msg.data.length).flatten = f.extended := lengthParts_flatten f
  rw [wire, hhead, hlength, sendRest_flatten hcontrol client true rand hlt]
  simp only [f, Frame.encode, Frame.body, List.append_assoc]

theorem wsRecvMessage_wire (client : Bool) (rand : BitVec 32) (r : Stream) (rest : Bytes)
    (hop : DataOpcode msg) (hne : msg.data ≠ []) (hmax : msg.data.length < maxSize.toNat) :
    ∃ opcode sizes, wsRecvMessage (!client) maxSize
        { r with input := wire client rand msg ++ rest } =
      .message { opcode, data := arriving client rand msg.data }
        { r with input := rest, sizes } := by
  obtain ⟨opcode, hcontrol, hcode⟩ := hop.code
  have hlt : msg.data.length < 2 ^ 32 := hmax.trans maxSize.toNat_lt
  let f := Frame.sent opcode client true rand msg.data hcontrol (hlt.trans (by decide))
  have hpass := recvFrame_data (!client) maxSize (f := f)
    { stream := { r with input := f.encode ++ rest } } rfl hcontrol
  have hfits : ¬ f.Refused (!client) maxSize { stream := { r with input := f.encode ++ rest } } :=
    not_refused rfl (show 0 < 2 ^ 31 by decide) (show 0 + msg.data.length < _ by omega)
  rw [if_neg hfits] at hpass
  obtain ⟨sizes, hpass⟩ := hpass
  rw [Frame.accept_first rfl rfl hne] at hpass
  have hreceived : f.received = arriving client rand msg.data := received_sent hcontrol hlt
  refine ⟨takeOpcode f.head 0, sizes, ?_⟩
  rw [wire_eq hcontrol hcode (hlt.trans (by decide)), ← hreceived]
  exact recvLoop_message hpass

def arrivals (client : Bool) : List (BitVec 32) → Bytes → List Bytes
  | [], _ => []
  | rand :: rands, d => arriving client rand d :: arrivals client rands (sentData client rand d)

theorem recvRepeated_wireAll (hop : DataOpcode msg) (hne : msg.data ≠ [])
    (hmax : msg.data.length < maxSize.toNat) :
    recvRepeated (!client) maxSize rands.length
        { r with input := wireAll client rands msg ++ rest } =
      some (arrivals client rands msg.data) := by
  induction rands generalizing r msg with
  | nil => rfl
  | cons rand rands ih =>
    obtain ⟨opcode, sizes, hrecv⟩ := wsRecvMessage_wire client rand r
      (wireAll client rands { msg with data := sentData client rand msg.data } ++ rest) hop hne hmax
    have hne' : ({ msg with data := sentData client rand msg.data } : WSFrameMessage).data ≠ [] :=
      sentData_ne_nil hne
    have hmax' : (sentData client rand msg.data).length < maxSize.toNat := by
      rw [length_sentData]
      exact hmax
    have hop' : DataOpcode { msg with data := sentData client rand msg.data } := hop
    have hrest := ih (r := { r with sizes }) hop' hne' hmax'
    rw [wireAll, List.append_assoc, List.length_cons, recvRepeated, hrecv]
    exact congrArg (Option.map (arriving client rand msg.data :: ·)) hrest

/-- The masks that the data of the arriving messages depend on. -/
def masksMet (rands : List (BitVec 32)) (n : Nat) : List (BitVec 32) :=
  if n < 2 ^ 31 then rands.dropLast else rands

/-- What a client sends next meets the next mask. -/
theorem arrivals_short {d : Bytes} (hsmall : d.length < 2 ^ 31) :
    arrivals true rands d = List.replicate rands.length d ↔
      ∀ rand ∈ rands.dropLast, Blank rand d.length := by
  induction rands generalizing d with
  | nil => simp [arrivals]
  | cons rand rands ih =>
    rw [arrivals, List.length_cons, List.replicate_succ, arriving, if_pos hsmall]
    cases rands with
    | nil => simp [arrivals]
    | cons rand' rands =>
      rw [List.dropLast_cons_cons, List.forall_mem_cons, List.cons.injEq]
      constructor
      · intro ⟨_, h⟩
        have hmasked : sentData true rand d = d := by
          rw [arrivals, List.length_cons, List.replicate_succ, arriving,
            if_pos (by rw [length_sentData]; exact hsmall)] at h
          exact (List.cons.inj h).1
        have hblank := ((sentData_eq_self true rand d).mp hmasked).resolve_left (by decide)
        rw [hmasked] at h
        exact ⟨hblank, (ih hsmall).mp h⟩
      · intro ⟨hblank, h⟩
        rw [(sentData_eq_self true rand d).mpr (.inr hblank)]
        exact ⟨rfl, (ih hsmall).mpr h⟩

theorem arrivals_long {d : Bytes} (hlarge : 2 ^ 31 ≤ d.length) :
    arrivals true rands d = List.replicate rands.length d ↔
      ∀ rand ∈ rands, Blank rand d.length := by
  induction rands with
  | nil => simp [arrivals]
  | cons rand rands ih =>
    rw [arrivals, List.length_cons, List.replicate_succ, arriving, if_neg (Nat.not_lt.mpr hlarge),
      List.forall_mem_cons, List.cons.injEq, sentData_eq_self, or_iff_right (by decide)]
    apply and_congr_right
    intro hblank
    rw [(sentData_eq_self true rand d).mpr (.inr hblank)]
    exact ih

theorem arrivals_eq (d : Bytes) :
    arrivals client rands d = List.replicate rands.length d ↔
      client = false ∨ ∀ rand ∈ masksMet rands d.length, Blank rand d.length := by
  cases client with
  | false =>
    refine iff_of_true ?_ (.inl rfl)
    induction rands with
    | nil => rfl
    | cons rand rands ih =>
      have hkeep : arriving false rand d = d := by
        unfold arriving
        split <;> rfl
      rw [arrivals, hkeep, List.length_cons, List.replicate_succ]
      exact congrArg (d :: ·) ih
  | true =>
    have hrole : ¬ true = false := by decide
    rw [or_iff_right hrole]
    unfold masksMet
    split
    · next hsmall => exact arrivals_short hsmall
    · next hlarge => exact arrivals_long (Nat.le_of_not_lt hlarge)

/-! ### Messages that do not arrive -/

theorem recvLoop_other (client : Bool) (maxSize : UInt32) {head : WSFrameHead} {st : Recv}
    (hhead : ¬ (head.opcode = WSFrameHead.CONTINUE ∨ head.opcode = WSFrameHead.TEXT_FRAME ∨
      head.opcode = WSFrameHead.BIN_FRAME)) (h : st.stream.input = head.toBytes ++ rest) :
    (∃ s, recvLoop client maxSize st = .null s) ∨
      ∃ s, s.input = rest ∧ recvLoop client maxSize st =
        recvLoop client maxSize { st with stream := s } := by
  obtain ⟨sizes, hpass⟩ := recvFrame_head client maxSize h
  unfold recvOpcode at hpass
  dsimp only at hpass
  split at hpass
  · split at hpass
    · exact .inl ⟨_, recvLoop_broke hpass⟩
    · exact .inr ⟨_, wsPong_input _, recvLoop_next hpass⟩
  · split at hpass
    · exact .inr ⟨_, rfl, recvLoop_next hpass⟩
    · exact .inr ⟨_, rfl, recvLoop_next hpass⟩

/-- Two bytes 0 are the header of an empty frame, which ends the loop. -/
theorem recvLoop_zeros (client : Bool) (maxSize : UInt32) {st : Recv} (hcur : st.curLen = 0)
    (h : st.stream.input = 0 :: 0 :: rest) : ∃ s, recvLoop client maxSize st = .null s := by
  have hhead : st.stream.input = WSFrameHead.toBytes { opcode := WSFrameHead.CONTINUE } ++ rest := h
  obtain ⟨sizes, hpass⟩ := recvFrame_head client maxSize hhead
  have hempty : ∃ s, recvData client maxSize { opcode := WSFrameHead.CONTINUE }
      { st.stream with input := rest, sizes } st = .broke s := by
    unfold recvData
    split
    · exact ⟨_, rfl⟩
    · show ∃ s, (if (widen st.curLen + 0) % 2 ^ 64 ≥ maxSize.toNat then Pass.broke _
        else recvPayload _ 0 ((widen st.curLen + 0) % 2 ^ 64) _ _ st) = .broke s
      have hwiden : widen st.curLen = 0 := by
        rw [hcur]
        exact widen_of_lt (by decide)
      rw [hwiden]
      split
      · exact ⟨_, rfl⟩
      · -- a payload of 0 bytes is taken for a failure
        obtain ⟨sizes', hread⟩ := Stream.readFixSize_ok
          (s := { st.stream with input := rest, sizes }) (Nat.zero_le _)
        unfold recvPayload
        rw [if_neg (by rw [length_resize, hwiden]; decide), hread]
        exact ⟨_, rfl⟩
  obtain ⟨s, hempty⟩ := hempty
  exact ⟨_, recvLoop_broke (hpass.trans hempty)⟩

theorem toWire_zeros {n : Nat} (h : n < 2 ^ 32) : ∃ tail, toWire 8 n = 0 :: 0 :: tail := by
  have hhigh (i : Nat) (hi : 6 ≤ i) : n / 256 ^ i = 0 := by
    apply Nat.div_eq_of_lt
    calc
      n < 256 ^ 6 := h.trans (by decide)
      _ ≤ 256 ^ i := Nat.pow_le_pow_right (by decide) hi
  refine ⟨[5, 4, 3, 2, 1, 0].map fun i => UInt8.ofNat (n / 256 ^ i), ?_⟩
  rw [toWire, ByteArray.toBytes_byteSwap, ByteArray.toBytes, BitVec.toNat_ofNat,
    Nat.mod_eq_of_lt (by omega), show List.range 8 = [0, 1, 2, 3, 4, 5, 6, 7] from rfl]
  simp only [List.map_cons, List.map_nil, hhigh 6 (by decide), hhigh 7 (by decide)]
  rfl

theorem lengthParts_short {n : Nat} (h : n < 65536) :
    headSize + (lengthParts n).flatten.length = if n < 126 then 2 else 4 := by
  unfold lengthParts headSize
  simp only [payloadField_eq_126, payloadField_eq_127]
  by_cases hn : n < 126
  · rw [if_pos hn, if_neg (by omega), if_neg (by omega)]
    rfl
  · rw [if_neg hn, if_pos (by omega), List.flatten_singleton, length_toWire]

theorem length_wire (hne : msg.data ≠ []) (hshort : msg.data.length < 65536) :
    (wire client rand msg).length = messageCost (!client) msg.data.length := by
  have hpos := List.length_pos_iff.mpr hne
  have hlength := lengthParts_short hshort
  have hrest : (sendRest client rand msg.data).flatten.length =
      msg.data.length + if !client then 0 else 4 := by
    cases client <;> simp [sendRest, Nat.add_comm]
  rw [wire, List.length_append, List.length_append, hrest, WSFrameHead.length_toBytes, hlength,
    messageCost, if_neg (show ¬ msg.data.length = 0 by omega), headerCost]
  omega

theorem length_wireAll (client : Bool) (rands : List (BitVec 32)) (hne : msg.data ≠ [])
    (hshort : msg.data.length < 65536) :
    (wireAll client rands msg).length = rands.length * messageCost (!client) msg.data.length := by
  induction rands generalizing msg with
  | nil => exact (Nat.zero_mul _).symm
  | cons rand rands ih =>
    have hlen : ({ msg with data := sentData client rand msg.data } : WSFrameMessage).data.length =
        msg.data.length := length_sentData _ _ _
    rw [wireAll, List.length_append, length_wire hne hshort,
      ih (sentData_ne_nil hne) (by rw [hlen]; exact hshort), hlen, List.length_cons, Nat.add_mul,
      Nat.one_mul, Nat.add_comm]

theorem not_recvRepeated_other (hop : ¬ DataOpcode msg) (hrands : rands ≠ []) :
    recvRepeated (!client) maxSize rands.length { r with input := wireAll client rands msg } ≠
      some (List.replicate rands.length msg.data) := by
  intro h
  cases rands with
  | nil => exact hrands rfl
  | cons rand rands =>
    obtain ⟨m, r', ds, hrecv, hrest, hds⟩ := recvRepeated_succ h
    rw [List.length_cons, List.replicate_succ] at hds
    obtain ⟨hd, hds⟩ := List.cons.inj hds
    rw [← hds] at hrest
    obtain ⟨hne, hmax, -⟩ := wsRecvMessage_cost hrecv
    rw [← hd] at hne hmax
    have hlt := maxSize.toNat_lt
    -- the header is skipped, and the loop goes on with what is behind it
    let behind := (lengthParts msg.data.length).flatten ++
      (sendRest client rand msg.data).flatten ++
      wireAll client rands { msg with data := sentData client rand msg.data }
    have hinput : wireAll client (rand :: rands) msg =
        (messageHead msg client true).toBytes ++ behind := by
      simp only [wireAll, wire, behind, List.append_assoc]
    have hstart : ({ stream := { r with input := wireAll client (rand :: rands) msg } } :
        Recv).stream.input = (messageHead msg client true).toBytes ++ behind := hinput
    have hother : ¬ ((messageHead msg client true).opcode = WSFrameHead.CONTINUE ∨
        (messageHead msg client true).opcode = WSFrameHead.TEXT_FRAME ∨
        (messageHead msg client true).opcode = WSFrameHead.BIN_FRAME) := hop
    rcases recvLoop_other (!client) maxSize hother hstart with ⟨s, hnull⟩ | ⟨s, hs, hskip⟩
    · rw [wsRecvMessage, hnull] at hrecv
      cases hrecv
    · rw [wsRecvMessage, hskip] at hrecv
      by_cases hshort : msg.data.length < 65536
      · -- two bytes are missing for the last message
        obtain ⟨-, -, hcost⟩ := recvLoop_cost rfl hrecv
        have hcosts := recvRepeated_cost hrest
        have htotal := length_wireAll client (rand :: rands) hne hshort
        rw [hinput, List.length_append, WSFrameHead.length_toBytes, List.length_cons, Nat.add_mul,
          Nat.one_mul] at htotal
        have hzero : messageCost (!client) ([] : Bytes).length = 0 := rfl
        unfold headSize at htotal
        dsimp only at hcost
        rw [hs, hzero, ← hd] at hcost
        omega
      · -- the bytes of the length are taken for a header
        obtain ⟨tail, hzeros⟩ := toWire_zeros (hmax.trans hlt)
        have hlength : (lengthParts msg.data.length).flatten = 0 :: 0 :: tail := by
          rw [lengthParts, if_neg (by rw [payloadField_eq_126]; omega),
            if_pos (by rw [payloadField_eq_127]; omega), List.flatten_singleton, hzeros]
        have hs' : s.input = 0 :: 0 :: (tail ++ ((sendRest client rand msg.data).flatten ++
            wireAll client rands { msg with data := sentData client rand msg.data })) := by
          rw [hs]
          simp only [behind, hlength, List.append_assoc, List.cons_append]
        obtain ⟨s', hnull⟩ := recvLoop_zeros (!client) maxSize
          (show ({ stream := s } : Recv).curLen = 0 from rfl) hs'
        rw [hnull] at hrecv
        cases hrecv

/-- Data that arrive are not empty, below the limit, and have been written. -/
theorem Repeats.first (h : Repeats client maxSize rands t msg) (hrands : rands ≠ []) :
    msg.data ≠ [] ∧ msg.data.length < maxSize.toNat ∧
      (sendRepeated client rands t msg).1.output ≠ t.output := by
  have hall := h { input := [] } []
  obtain ⟨n, hn⟩ := Nat.exists_eq_add_one.mpr (List.length_pos_iff.mpr hrands)
  rw [hn, List.append_nil] at hall
  obtain ⟨m, r', ds, hrecv, -, hds⟩ := recvRepeated_succ hall
  rw [List.replicate_succ] at hds
  obtain ⟨hne, hmax, hcost⟩ := wsRecvMessage_cost hrecv
  rw [← (List.cons.inj hds).1] at hne hmax hcost
  refine ⟨hne, hmax, ?_⟩
  intro hout
  rw [hout] at hcost
  have hpos := List.length_pos_iff.mpr hne
  have hzero : (t.output.drop t.output.length).length = 0 := by
    rw [List.drop_length]
    rfl
  dsimp only at hcost
  rw [hzero, messageCost, if_neg (by omega)] at hcost
  omega

/-- **The peer gets the same data each time just when the masks change nothing.** -/
theorem repeats_iff :
    Repeats client maxSize rands t msg ↔
      rands = [] ∨ t.writable = true ∧ DataOpcode msg ∧ msg.data ≠ [] ∧
        msg.data.length < maxSize.toNat ∧
        (client = false ∨ ∀ rand ∈ masksMet rands msg.data.length, Blank rand msg.data.length) := by
  by_cases hrands : rands = []
  · refine iff_of_true ?_ (.inl hrands)
    rw [hrands]
    intro r rest
    rfl
  · rw [or_iff_right hrands]
    constructor
    · intro h
      obtain ⟨hne, hmax, hsent⟩ := h.first hrands
      have hw : t.writable = true := by
        by_contra hw
        exact hsent (sendRepeated_unwritable (by simpa using hw))
      obtain ⟨room, hwrites⟩ := sendRepeated_writes client rands hw hne
      unfold Repeats at h
      rw [hwrites] at h
      dsimp only at h
      rw [List.drop_left] at h
      have hop : DataOpcode msg := by
        by_contra hop
        -- nothing comes behind the messages
        have hall := h { input := [] } []
        rw [List.append_nil] at hall
        exact not_recvRepeated_other hop hrands hall
      have hall := h { input := [] } []
      rw [recvRepeated_wireAll hop hne hmax] at hall
      exact ⟨hw, hop, hne, hmax, (arrivals_eq msg.data).mp (Option.some.inj hall)⟩
    · intro ⟨hw, hop, hne, hmax, hblank⟩
      obtain ⟨room, hwrites⟩ := sendRepeated_writes client rands hw hne
      intro r rest
      rw [hwrites]
      dsimp only
      rw [List.drop_left, recvRepeated_wireAll hop hne hmax, (arrivals_eq msg.data).mpr hblank]

end Resend

/-- **Sending leaves a message as it is, and the peer gets it every time, just where the code masks
nothing that it has to send again.** -/
theorem sending_keeps_iff {σ : Type} (k : Sink σ) (s : σ) (msg : WSFrameMessage)
    (client fin : Bool) (rand : BitVec 32) (maxSize : UInt32) (rands : List (BitVec 32))
    (t : Stream) :
    ((k.wsSendMessage s msg client fin rand).2.2 = msg ↔
      client = false ∨ ¬ k.TakesHead s msg client fin ∨ Blank rand msg.data.length) ∧
    (Repeats client maxSize rands t msg ↔
      rands = [] ∨ t.writable = true ∧ DataOpcode msg ∧ msg.data ≠ [] ∧
        msg.data.length < maxSize.toNat ∧
        (client = false ∨
          ∀ rand ∈ masksMet rands msg.data.length, Blank rand msg.data.length)) :=
  ⟨k.unaltered_iff s msg client fin rand, repeats_iff⟩

/-- A client that sends "hi" twice sends what the first mask has made of it the second time. -/
theorem sending_alters :
    (wsSendMessage { input := [] } { opcode := 1, data := ascii "hi" } true true 0x04030201).2.2 =
      { opcode := 1, data := [0x69, 0x6B] } ∧
    ¬ Repeats true 1024 [0x04030201, 0] { input := [] } { opcode := 1, data := ascii "hi" } := by
  constructor
  · decide +kernel
  · rw [repeats_iff]
    intro h
    rcases h with h | ⟨-, -, -, -, h | h⟩
    · cases h
    · cases h
    · have hmet : (0x04030201 : BitVec 32) ∈ masksMet [0x04030201, 0] (ascii "hi").length := by
        rw [masksMet, if_pos (by decide)]
        exact List.mem_singleton_self _
      exact absurd (h _ hmet) (by decide)

end Luwu.WebSocket
