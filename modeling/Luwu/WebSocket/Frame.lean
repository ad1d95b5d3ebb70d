import Luwu.WebSocket.Basic

/-!
# Frames

The frames of RFC 6455, their bytes, and what the two sides of the code do with one:
`WSSendMessage` writes the bytes of a frame, and a pass of the loop of `WSRecvMessage` over a frame
of a message takes its bytes from the stream.
-/

namespace Luwu.WebSocket

open Lib

/-! ## Integers on the wire -/

@[simp] theorem length_toWire (n v : Nat) : (toWire n v).length = n := by
  simp [toWire]

theorem fromWire_toWire {n v : Nat} (h : v < 2 ^ (8 * n)) : fromWire n (toWire n v) = v := by
  rw [fromWire, toWire, ByteArray.ofBytes_toBytes, BitVec.ofNat_toNat, BitVec.setWidth_eq,
    ByteArray.byteSwap_byteSwap, BitVec.toNat_ofNat, Nat.mod_eq_of_lt h]

theorem int32_of_lt {n : Nat} (h : n < 2 ^ 31) : int32 n = n := by
  rw [int32, Nat.mod_eq_of_lt (by omega), if_pos h]

theorem widen_of_lt {c : Nat} (h : c < 2 ^ 31) : widen c = c := if_pos h

/-! ## Headers -/

@[simp] theorem WSFrameHead.length_toBytes (h : WSFrameHead) : h.toBytes.length = headSize := rfl

theorem decide_eq_one {n : Nat} {b : Bool} (h : n = b.toNat) : decide (n = 1) = b := by
  cases b <;> simp [h]

theorem WSFrameHead.ofBytes_toBytes (h : WSFrameHead) : WSFrameHead.ofBytes h.toBytes = h := by
  obtain ⟨opcode, rsv3, rsv2, rsv1, fin, payload, mask⟩ := h
  have ho := opcode.isLt
  have hp := payload.isLt
  have h₃ := rsv3.toNat_le
  have h₂ := rsv2.toNat_le
  have h₁ := rsv1.toNat_le
  have hf := fin.toNat_le
  have hm := mask.toNat_le
  simp only [ofBytes, toBytes, List.getD_cons_zero, List.getD_cons_succ, UInt8.toNat_ofNat',
    WSFrameHead.mk.injEq]
  refine ⟨?_, ?_, ?_, ?_, ?_, ?_, ?_⟩
  · apply BitVec.eq_of_toNat_eq
    rw [BitVec.toNat_ofNat]
    omega
  · exact decide_eq_one (by omega)
  · exact decide_eq_one (by omega)
  · exact decide_eq_one (by omega)
  · exact decide_eq_one (by omega)
  · apply BitVec.eq_of_toNat_eq
    rw [BitVec.toNat_ofNat]
    omega
  · exact decide_eq_one (by omega)

/-! ## Frames and their bytes -/

inductive Opcode where
  | continuation
  | text
  | binary
  | close
  | ping
  | pong
deriving DecidableEq, Repr

namespace Opcode

def code : Opcode → BitVec 4
  | continuation => WSFrameHead.CONTINUE
  | text => WSFrameHead.TEXT_FRAME
  | binary => WSFrameHead.BIN_FRAME
  | close => WSFrameHead.CLOSE
  | ping => WSFrameHead.PING
  | pong => WSFrameHead.PONG

def isControl : Opcode → Bool
  | continuation | text | binary => false
  | close | ping | pong => true

end Opcode

/-- A well-formed frame.  `key` is the key its payload is masked with on the wire. -/
structure Frame where
  fin : Bool
  opcode : Opcode
  key : Option (BitVec 32)
  payload : Bytes
  length_lt : payload.length < 2 ^ 63
  control : opcode.isControl = true → fin = true ∧ payload.length ≤ 125
deriving DecidableEq

namespace Frame

def head (f : Frame) : WSFrameHead :=
  { fin := f.fin, opcode := f.opcode.code, mask := f.key.isSome
    payload := payloadField f.payload.length }

/-- The length in network order, where it does not fit into the header. -/
def extended (f : Frame) : Bytes :=
  if f.payload.length < 126 then []
  else if f.payload.length < 65536 then toWire 2 f.payload.length
  else toWire 8 f.payload.length

def keyBytes (f : Frame) : Bytes := (f.key.map (ByteArray.toBytes 4)).getD []

/-- The payload as it is on the wire. -/
def masked (f : Frame) : Bytes :=
  match f.key with
  | none => f.payload
  | some k => f.payload.mapIdx (maskByte (ByteArray.toBytes 4 k))

/-- The bytes behind the header. -/
def body (f : Frame) : Bytes := f.extended ++ f.keyBytes ++ f.masked

def encode (f : Frame) : Bytes := f.head.toBytes ++ f.body

theorem head_opcode (f : Frame) : f.head.opcode = f.opcode.code := rfl

@[simp] theorem length_masked (f : Frame) : f.masked.length = f.payload.length := by
  unfold masked
  split <;> simp

end Frame

/-- The bytes of frames one after the other. -/
def encodeAll (fs : List Frame) : Bytes := fs.flatMap Frame.encode

/-! ## What `WSSendMessage` writes -/

theorem payloadField_eq_126 {n : Nat} : payloadField n = 126 ↔ 126 ≤ n ∧ n < 65536 := by
  unfold payloadField
  by_cases h₁ : n < 126
  · rw [if_pos h₁, ← BitVec.toNat_inj, BitVec.toNat_ofNat, Nat.mod_eq_of_lt (by omega)]
    change n = 126 ↔ _
    omega
  · rw [if_neg h₁]
    by_cases h₂ : n < 65536
    · rw [if_pos h₂]
      exact iff_of_true rfl (by omega)
    · rw [if_neg h₂]
      exact iff_of_false (by decide) (by omega)

theorem payloadField_eq_127 {n : Nat} : payloadField n = 127 ↔ 65536 ≤ n := by
  unfold payloadField
  by_cases h₁ : n < 126
  · rw [if_pos h₁, ← BitVec.toNat_inj, BitVec.toNat_ofNat, Nat.mod_eq_of_lt (by omega)]
    change n = 127 ↔ _
    omega
  · rw [if_neg h₁]
    by_cases h₂ : n < 65536
    · rw [if_pos h₂]
      exact iff_of_false (by decide) (by omega)
    · rw [if_neg h₂]
      exact iff_of_true rfl (by omega)

theorem toNat_payloadField {n : Nat} (h : n < 126) : (payloadField n).toNat = n := by
  rw [payloadField, if_pos h, BitVec.toNat_ofNat, Nat.mod_eq_of_lt (by omega)]

theorem writeAll_ok {s : Stream} (hw : s.writable = true) {ds : List Bytes} (hds : [] ∉ ds) :
    ∃ room, writeAll s ds = (true, { s with output := s.output ++ ds.flatten, room }) := by
  induction ds generalizing s with
  | nil => exact ⟨s.room, by simp [writeAll]⟩
  | cons d ds ih =>
    rw [List.mem_cons, not_or] at hds
    obtain ⟨hd, hrest⟩ := hds
    obtain ⟨room, hwrite⟩ := Stream.writeFixSize_ok hw d
    have hpos : ¬ d.length ≤ 0 := by
      have := List.length_pos_iff.mpr (Ne.symm hd)
      omega
    obtain ⟨room', hall⟩ := ih (s := { s with output := s.output ++ d, room }) hw hrest
    refine ⟨room', ?_⟩
    rw [writeAll, hwrite]
    dsimp only
    rw [if_neg hpos, hall, List.flatten_cons, List.append_assoc]

/-- A call with nothing to write returns 0, which is taken for a failure. -/
theorem writeAll_nil_mem {s : Stream} {ds : List Bytes} (hds : [] ∈ ds) :
    (writeAll s ds).1 = false := by
  induction ds generalizing s with
  | nil => cases hds
  | cons d ds ih =>
    rw [writeAll]
    split
    · rfl
    · next hpos =>
      rcases List.mem_cons.mp hds with rfl | hmem
      · rw [Stream.writeFixSize_nil] at hpos
        exact absurd (Nat.le_refl 0) hpos
      · exact ih hmem

/-- The frame that a side of a connection sends; the client side masks it with `rand`. -/
def Frame.sent (opcode : Opcode) (client fin : Bool) (rand : BitVec 32) (payload : Bytes)
    (hop : opcode.isControl = false) (hlt : payload.length < 2 ^ 63) : Frame where
  fin := fin
  opcode := opcode
  key := if client then some rand else none
  payload := payload
  length_lt := hlt
  control := fun h => absurd h (by rw [hop]; exact Bool.false_ne_true)

theorem lengthParts_flatten (f : Frame) : (lengthParts f.payload.length).flatten = f.extended := by
  unfold lengthParts Frame.extended
  simp only [payloadField_eq_126, payloadField_eq_127]
  by_cases h₁ : f.payload.length < 126
  · rw [if_neg (by omega), if_neg (by omega), if_pos h₁]
    rfl
  · by_cases h₂ : f.payload.length < 65536
    · rw [if_pos (by omega), if_neg h₁, if_pos h₂]
      simp
    · rw [if_neg (by omega), if_pos (by omega), if_neg h₁, if_neg h₂]
      simp

theorem nil_notMem_lengthParts (n : Nat) : [] ∉ lengthParts n := by
  have hwire (k : Nat) : [] ≠ toWire (k + 1) n := by
    intro h
    have := congrArg List.length h
    simp at this
  unfold lengthParts
  split
  · rw [List.mem_singleton]
    exact hwire 1
  · split
    · rw [List.mem_singleton]
      exact hwire 7
    · exact List.not_mem_nil

section Send

variable {s : Stream}

/-- The data of a message after it has been sent. -/
def sentData (client : Bool) (rand : BitVec 32) (d : Bytes) : Bytes :=
  if client then d.mapIdx (maskByte (ByteArray.toBytes 4 rand)) else d

@[simp] theorem length_sentData (client : Bool) (rand : BitVec 32) (d : Bytes) :
    (sentData client rand d).length = d.length := by
  unfold sentData
  split
  · exact List.length_mapIdx
  · rfl

theorem sentData_ne_nil {client : Bool} {rand : BitVec 32} {d : Bytes} (hne : d ≠ []) :
    sentData client rand d ≠ [] := by
  intro hnil
  have := congrArg List.length hnil
  rw [length_sentData] at this
  exact hne (List.length_eq_zero_iff.mp this)

def messageHead (msg : WSFrameMessage) (client fin : Bool) : WSFrameHead :=
  { fin, opcode := BitVec.ofInt 4 msg.opcode, mask := client
    payload := payloadField msg.data.length }

/-- What is written of a message behind the header and the length. -/
def sendRest (client : Bool) (rand : BitVec 32) (d : Bytes) : List Bytes :=
  (if client then [ByteArray.toBytes 4 rand] else []) ++ [sentData client rand d]

theorem nil_notMem_sendRest (client : Bool) (rand : BitVec 32) {d : Bytes} (hne : d ≠ []) :
    [] ∉ sendRest client rand d := by
  have hmask : ([] : Bytes) ≠ ByteArray.toBytes 4 rand := by
    intro h
    have := congrArg List.length h
    simp at this
  have hdata : [] ≠ sentData client rand d := (sentData_ne_nil hne).symm
  unfold sendRest
  cases client <;> simp [hmask, hdata]

/-- A message with data, written to a peer that takes it. -/
theorem wsSendMessage_writes (msg : WSFrameMessage) (client fin : Bool) (rand : BitVec 32)
    (hw : s.writable = true) (hne : msg.data ≠ []) :
    ∃ room, wsSendMessage s msg client fin rand =
      (int32 (msg.data.length + headSize),
        { s with
          output := s.output ++ ((messageHead msg client fin).toBytes ++
            (lengthParts msg.data.length).flatten) ++ (sendRest client rand msg.data).flatten
          room },
        { msg with data := sentData client rand msg.data }) := by
  -- none of the parts is empty, for `writeFixSize` returns 0 for an empty one
  have hstart : [] ∉ (messageHead msg client fin).toBytes :: lengthParts msg.data.length := by
    rw [List.mem_cons, not_or]
    exact ⟨(List.cons_ne_nil _ _).symm, nil_notMem_lengthParts msg.data.length⟩
  obtain ⟨room, hw₁⟩ := writeAll_ok hw hstart
  obtain ⟨room', hw₂⟩ := writeAll_ok (s := { s with
    output := s.output ++ ((messageHead msg client fin).toBytes ::
      lengthParts msg.data.length).flatten, room }) hw (nil_notMem_sendRest client rand hne)
  refine ⟨room', ?_⟩
  unfold messageHead at hw₁ hw₂
  unfold sendRest sentData at hw₂
  unfold wsSendMessage
  dsimp only
  rw [hw₁, if_pos rfl, hw₂, if_pos rfl]
  rfl

theorem sendRest_flatten {opcode : Opcode} (hop : opcode.isControl = false) (client fin : Bool)
    (rand : BitVec 32) {p : Bytes} (hlt : p.length < 2 ^ 63) :
    (sendRest client rand p).flatten = (Frame.sent opcode client fin rand p hop hlt).keyBytes ++
      (Frame.sent opcode client fin rand p hop hlt).masked := by
  cases client <;> simp [sendRest, sentData, Frame.sent, Frame.keyBytes, Frame.masked]

/-- **`WSSendMessage` writes the bytes of the frame.** -/
theorem wsSendMessage_ok {opcode : Opcode} (hop : opcode.isControl = false) (client fin : Bool)
    (rand : BitVec 32) {p : Bytes} (hlt : p.length < 2 ^ 63) (hw : s.writable = true)
    (hne : p ≠ []) :
    let f := Frame.sent opcode client fin rand p hop hlt
    ∃ room, wsSendMessage s { opcode := opcode.code.toNat, data := p } client fin rand =
      (int32 (p.length + headSize), { s with output := s.output ++ f.encode, room },
        { opcode := opcode.code.toNat, data := f.masked }) := by
  intro f
  obtain ⟨room, hsend⟩ := wsSendMessage_writes { opcode := opcode.code.toNat, data := p } client fin
    rand hw hne
  refine ⟨room, hsend.trans ?_⟩
  have hhead : messageHead { opcode := opcode.code.toNat, data := p } client fin = f.head := by
    cases opcode <;> cases client <;> rfl
  have hlength : (lengthParts p.length).flatten = f.extended := lengthParts_flatten f
  -- only a client masks the data
  have hdata : sentData client rand p = f.masked := by
    cases client <;> rfl
  dsimp only
  rw [hhead, hlength, sendRest_flatten hop client fin rand hlt, hdata]
  simp only [f, Frame.encode, Frame.body, List.append_assoc]

theorem wsSendMessage_nil {client fin : Bool} {rand : BitVec 32} (msg : WSFrameMessage)
    (hnil : msg.data = []) :
    (wsSendMessage s msg client fin rand).1 = -1 := by
  unfold wsSendMessage
  dsimp only
  split
  · rw [if_neg]
    rw [writeAll_nil_mem (by cases client <;> simp [hnil])]
    exact Bool.false_ne_true
  · rfl

end Send

/-! ## What a pass does with a frame -/

theorem recvFrame_head (client : Bool) (maxSize : UInt32) {st : Recv} {head : WSFrameHead}
    {rest : Bytes} (h : st.stream.input = head.toBytes ++ rest) :
    ∃ sizes, recvFrame client maxSize st =
      recvOpcode client maxSize head { st.stream with input := rest, sizes } st := by
  obtain ⟨sizes, hread⟩ := Stream.readFixSize_ok (s := st.stream) (n := headSize) (by
    rw [h, List.length_append, WSFrameHead.length_toBytes]
    omega)
  have htake : st.stream.input.take headSize = head.toBytes := by
    rw [h, List.take_left' (WSFrameHead.length_toBytes head)]
  have hdrop : st.stream.input.drop headSize = rest := by
    rw [h, List.drop_left' (WSFrameHead.length_toBytes head)]
  refine ⟨sizes, ?_⟩
  rw [recvFrame, hread]
  dsimp only
  rw [if_neg (by decide), htake, hdrop, WSFrameHead.ofBytes_toBytes]

theorem readLength_frame (f : Frame) {s : Stream} {rest : Bytes}
    (h : s.input = f.extended ++ rest) :
    ∃ sizes, readLength f.head s =
      (some f.payload.length, { s with input := rest, sizes }) := by
  have hlt := f.length_lt
  unfold Frame.extended at h
  unfold readLength
  simp only [Frame.head, payloadField_eq_126, payloadField_eq_127]
  by_cases h₁ : f.payload.length < 126
  · -- the length is in the head
    rw [if_pos h₁, List.nil_append] at h
    rw [if_neg (by omega), if_neg (by omega), toNat_payloadField h₁]
    exact ⟨s.sizes, by rw [← h]⟩
  · rw [if_neg h₁] at h
    by_cases h₂ : f.payload.length < 65536
    · -- two more bytes
      rw [if_pos h₂] at h
      obtain ⟨sizes, hread⟩ := Stream.readFixSize_ok (s := s) (n := 2) (by
        rw [h, List.length_append, length_toWire]
        omega)
      refine ⟨sizes, ?_⟩
      rw [if_pos (by omega), hread, h, List.take_left' (length_toWire 2 _),
        List.drop_left' (length_toWire 2 _)]
      dsimp only
      rw [if_neg (by decide), fromWire_toWire (by omega)]
    · -- eight more bytes
      rw [if_neg h₂] at h
      obtain ⟨sizes, hread⟩ := Stream.readFixSize_ok (s := s) (n := 8) (by
        rw [h, List.length_append, length_toWire]
        omega)
      refine ⟨sizes, ?_⟩
      rw [if_neg (by omega), if_pos (by omega), hread, h, List.take_left' (length_toWire 8 _),
        List.drop_left' (length_toWire 8 _)]
      dsimp only
      rw [if_neg (by decide), fromWire_toWire (by omega)]

def Frame.maskArray (f : Frame) : Bytes := (f.key.map (ByteArray.toBytes 4)).getD [0, 0, 0, 0]

theorem readMask_frame (f : Frame) {s : Stream} {rest : Bytes} (h : s.input = f.keyBytes ++ rest) :
    ∃ sizes, readMask f.head s = (some f.maskArray, { s with input := rest, sizes }) := by
  unfold Frame.keyBytes at h
  unfold readMask
  unfold Frame.head Frame.maskArray
  cases hk : f.key with
  | none =>
    rw [hk] at h
    refine ⟨s.sizes, ?_⟩
    rw [if_neg (by simp)]
    rw [show rest = s.input from h.symm]
    rfl
  | some k =>
    rw [hk] at h
    change s.input = ByteArray.toBytes 4 k ++ rest at h
    obtain ⟨sizes, hread⟩ := Stream.readFixSize_ok (s := s) (n := 4) (by
      rw [h, List.length_append, ByteArray.length_toBytes]
      omega)
    refine ⟨sizes, ?_⟩
    rw [if_pos (by simp), hread, h, List.take_left' (ByteArray.length_toBytes 4 k),
      List.drop_left' (ByteArray.length_toBytes 4 k)]
    rfl

/-- The payload that the loop stores for a frame. -/
def Frame.received (f : Frame) : Bytes := unmask f.head f.maskArray f.masked

/-- `cur_len + length`, as the code computes it. -/
def Frame.total (f : Frame) (st : Recv) : Nat := (widen st.curLen + f.payload.length) % 2 ^ 64

/-- A frame of a message that the loop stops at before it reads the payload. -/
def Frame.Refused (client : Bool) (maxSize : UInt32) (f : Frame) (st : Recv) : Prop :=
  client = false ∧ f.key = none ∨ maxSize.toNat ≤ f.total st

instance (client : Bool) (maxSize : UInt32) (f : Frame) (st : Recv) :
    Decidable (f.Refused client maxSize st) := by
  unfold Frame.Refused
  infer_instance

/-- What the pass over another frame of a message does; `s` is the stream behind the frame. -/
def Frame.accept (f : Frame) (st : Recv) (s : Stream) : Pass :=
  if f.total st < widen st.curLen + f.payload.length then .overrun
  else if f.payload = [] then .broke s
  else if f.key.isSome ∧ 2 ^ 31 < st.curLen + int32 f.payload.length then .overrun
  else
    let data := splice (resize st.data (f.total st)) (widen st.curLen) f.received
    let opcode := takeOpcode f.head st.opcode
    if f.fin then .message { opcode, data } s
    else .next { stream := s, opcode, data, curLen := f.total st % 2 ^ 32 }

@[simp] theorem length_resize (data : Bytes) (n : Nat) : (resize data n).length = n := by
  rw [resize, List.length_append, List.length_take, List.length_replicate]
  omega

section Receive

variable (client : Bool) (maxSize : UInt32) {f : Frame} {st : Recv} {s : Stream} {rest : Bytes}

theorem recvPayload_frame (st : Recv) (h : s.input = f.masked ++ rest) :
    ∃ sizes, recvPayload f.head f.payload.length (f.total st) f.maskArray s st =
      f.accept st { s with input := rest, sizes } := by
  obtain ⟨sizes, hread⟩ := Stream.readFixSize_ok (s := s) (n := f.payload.length) (by
    rw [h, List.length_append, Frame.length_masked]
    omega)
  rw [h, List.take_left' f.length_masked, List.drop_left' f.length_masked] at hread
  refine ⟨sizes, ?_⟩
  have hnil : f.payload.length ≤ 0 ↔ f.payload = [] := by
    rw [Nat.le_zero, List.length_eq_zero_iff]
  unfold recvPayload Frame.accept
  dsimp only
  rw [hread, length_resize]
  simp only [hnil]
  rfl

theorem Frame.data_opcode (hop : f.opcode.isControl = false) :
    f.head.opcode = WSFrameHead.CONTINUE ∨ f.head.opcode = WSFrameHead.TEXT_FRAME ∨
      f.head.opcode = WSFrameHead.BIN_FRAME := by
  unfold Frame.head
  cases h : f.opcode <;> simp_all [Opcode.isControl, Opcode.code]

theorem recvData_accept (h : s.input = f.body ++ rest) (hf : ¬ f.Refused client maxSize st) :
    ∃ sizes, recvData client maxSize f.head s st = f.accept st { s with input := rest, sizes } := by
  unfold Frame.Refused at hf
  rw [not_or] at hf
  rw [Frame.body, List.append_assoc, List.append_assoc] at h
  obtain ⟨sizes₁, hlength⟩ := readLength_frame f h
  obtain ⟨sizes₂, hmask⟩ := readMask_frame f
    (s := { s with input := f.keyBytes ++ (f.masked ++ rest), sizes := sizes₁ }) rfl
  obtain ⟨sizes₃, hpayload⟩ := recvPayload_frame (f := f) st
    (s := { s with input := f.masked ++ rest, sizes := sizes₂ }) rfl
  refine ⟨sizes₃, ?_⟩
  have hrole : ¬ ((!client) = true ∧ (!f.head.mask) = true) := by
    intro ⟨hc, hm⟩
    apply hf.1
    simpa [Frame.head] using And.intro hc hm
  unfold recvData
  rw [if_neg hrole, hlength]
  dsimp only
  rw [if_neg (show ¬ (widen st.curLen + f.payload.length) % 2 ^ 64 ≥ maxSize.toNat from hf.2),
    hmask]
  exact hpayload

theorem recvData_refused (h : s.input = f.body ++ rest) (hf : f.Refused client maxSize st) :
    ∃ s', recvData client maxSize f.head s st = .broke s' := by
  rw [Frame.body, List.append_assoc, List.append_assoc] at h
  obtain ⟨sizes, hlength⟩ := readLength_frame f h
  unfold recvData
  split
  · exact ⟨_, rfl⟩
  · next hrole =>
    rw [hlength]
    dsimp only
    rw [if_pos]
    · exact ⟨_, rfl⟩
    · rcases hf with ⟨hc, hk⟩ | hsize
      · exact absurd (by simp [Frame.head, hc, hk]) hrole
      · exact hsize

/-- **The pass over a frame of a message.** -/
theorem recvFrame_data (st : Recv) (h : st.stream.input = f.encode ++ rest)
    (hop : f.opcode.isControl = false) :
    if f.Refused client maxSize st then ∃ s', recvFrame client maxSize st = .broke s'
    else ∃ sizes, recvFrame client maxSize st =
      f.accept st { st.stream with input := rest, sizes } := by
  rw [Frame.encode, List.append_assoc] at h
  obtain ⟨sizes, hpass⟩ := recvFrame_head client maxSize h
  have hdata := Frame.data_opcode hop
  have hping : f.head.opcode ≠ WSFrameHead.PING := by
    intro hcode
    rw [hcode] at hdata
    exact absurd hdata (by decide)
  have hpong : f.head.opcode ≠ WSFrameHead.PONG := by
    intro hcode
    rw [hcode] at hdata
    exact absurd hdata (by decide)
  rw [hpass, recvOpcode, if_neg hping, if_neg hpong, if_pos hdata]
  split
  · next hf =>
    exact recvData_refused client maxSize
      (s := { st.stream with input := f.body ++ rest, sizes }) rfl hf
  · next hf =>
    exact recvData_accept client maxSize
      (s := { st.stream with input := f.body ++ rest, sizes }) rfl hf

/-- What is written in reply to a frame. -/
def Frame.reply (f : Frame) : Bytes :=
  if f.opcode = .ping then WSFrameHead.toBytes { fin := true, opcode := WSFrameHead.PONG } else []

theorem sendHead_ok (head : WSFrameHead) (hw : s.writable = true) :
    ∃ room, sendHead head s = (2, { s with output := s.output ++ head.toBytes, room }) := by
  obtain ⟨room, hwrite⟩ := Stream.writeFixSize_ok hw head.toBytes
  refine ⟨room, ?_⟩
  rw [sendHead, hwrite]
  rfl

/-- **The pass over a control frame** takes the header and nothing else. -/
theorem recvFrame_control (st : Recv) (h : st.stream.input = f.encode ++ rest)
    (hop : f.opcode.isControl = true) (hw : f.opcode = .ping → st.stream.writable = true) :
    ∃ sizes room, recvFrame client maxSize st = .next { st with stream :=
      { st.stream with
        input := f.body ++ rest, output := st.stream.output ++ f.reply, sizes, room } } := by
  rw [Frame.encode, List.append_assoc] at h
  obtain ⟨sizes, hpass⟩ := recvFrame_head client maxSize h
  rw [hpass]
  unfold recvOpcode Frame.reply
  rw [Frame.head_opcode]
  cases hcode : f.opcode with
  | continuation => simp [hcode, Opcode.isControl] at hop
  | text => simp [hcode, Opcode.isControl] at hop
  | binary => simp [hcode, Opcode.isControl] at hop
  | ping =>
    -- a ping is answered
    obtain ⟨room, hpong⟩ := sendHead_ok { fin := true, opcode := WSFrameHead.PONG }
      (s := { st.stream with input := f.body ++ rest, sizes }) (hw hcode)
    refine ⟨sizes, room, ?_⟩
    rw [if_pos (by rfl), wsPong, hpong]
    rfl
  | pong =>
    refine ⟨sizes, st.stream.room, ?_⟩
    rw [if_neg (by decide), if_pos (by rfl), if_neg (by decide), List.append_nil]
  | close =>
    refine ⟨sizes, st.stream.room, ?_⟩
    rw [if_neg (by decide), if_neg (by decide), if_neg (by decide), if_neg (by decide),
      List.append_nil]

end Receive

/-! ## Frames that fit -/

theorem maskByte_maskByte (mask : Bytes) (i : Nat) (b : UInt8) :
    maskByte mask i (maskByte mask i b) = b := by
  rw [maskByte, maskByte, UInt8.xor_assoc, UInt8.xor_self, UInt8.xor_zero]

/-- The payload is what was masked, as long as its length is an `int`. -/
theorem Frame.received_eq {f : Frame} (h : f.payload.length < 2 ^ 31) : f.received = f.payload := by
  unfold Frame.received unmask Frame.masked Frame.maskArray Frame.head
  cases f.key with
  | none => rfl
  | some k =>
    apply List.ext_getElem
    · simp
    · intro i h₁ h₂
      simp [int32_of_lt h, maskByte_maskByte, h₂]

/-- **A fragment that fits is appended to the message.** -/
theorem Frame.accept_fits {f : Frame} {st : Recv} {s : Stream} (hlen : st.data.length = st.curLen)
    (hne : f.payload ≠ []) (hfit : st.curLen + f.payload.length < 2 ^ 31) :
    f.accept st s =
      if f.fin then
        .message { opcode := takeOpcode f.head st.opcode, data := st.data ++ f.payload } s
      else .next { stream := s, opcode := takeOpcode f.head st.opcode, data := st.data ++ f.payload,
                   curLen := st.curLen + f.payload.length } := by
  have hwiden : widen st.curLen = st.curLen := widen_of_lt (by omega)
  have htotal : f.total st = st.curLen + f.payload.length := by
    rw [Frame.total, hwiden, Nat.mod_eq_of_lt (by omega)]
  have hresize : resize st.data (st.curLen + f.payload.length) =
      st.data ++ List.replicate f.payload.length 0 := by
    rw [resize, List.take_of_length_le (by omega), hlen, Nat.add_sub_cancel_left]
  have hdata : splice (resize st.data (st.curLen + f.payload.length)) st.curLen f.received =
      st.data ++ f.payload := by
    rw [hresize, Frame.received_eq (by omega), splice_append_right (by omega), splice, hlen,
      Nat.sub_self, List.take_zero, List.nil_append, Nat.zero_add,
      List.drop_of_length_le (by simp), List.append_nil]
  unfold Frame.accept
  rw [htotal, hwiden, if_neg (Nat.lt_irrefl _), if_neg hne, int32_of_lt (by omega),
    if_neg (by omega), hdata, Nat.mod_eq_of_lt (by omega)]

end Luwu.WebSocket
