import Luwu.WebSocket.Frame

/-!
# Messages sent and received

A message that one side sends is received by the other, whole or in fragments with control frames
between them.  Both sides take 0 from the fixed-size helpers for a failure, and the sender returns
its result as an `int32_t`, so a message without data, or of a size that does not fit, does not get
through.
-/

namespace Luwu.WebSocket

open Lib

/-! ## One message -/

section Message

variable {client : Bool} {maxSize : UInt32} {rand : BitVec 32} {opcode : Opcode} {p : Bytes}
  {t r : Stream} {rest : Bytes}

/-- The message `p` sent on the stream `t` arrives on the stream `r`: both calls report success, and
the bytes written are the bytes read. -/
def RoundTrip (client : Bool) (maxSize : UInt32) (rand : BitVec 32) (opcode : Opcode) (p : Bytes)
    (t r : Stream) (rest : Bytes) : Prop :=
  let msg : WSFrameMessage := { opcode := opcode.code.toNat, data := p }
  let sent := wsSendMessage t msg client true rand
  let bytes := sent.2.1.output.drop t.output.length
  0 < sent.1 ∧
    ∃ r', wsRecvMessage (!client) maxSize { r with input := bytes ++ rest } = .message msg r' ∧
      r'.input = rest

theorem takeOpcode_zero {f : Frame} (hop : f.opcode ≠ .continuation) :
    takeOpcode f.head 0 = f.opcode.code.toNat := by
  rw [takeOpcode, if_pos]
  · rfl
  · refine ⟨rfl, ?_⟩
    rw [Frame.head_opcode]
    cases hcode : f.opcode <;> simp_all [Opcode.code] <;> decide

theorem starts {opcode : Opcode} (hop : opcode = .text ∨ opcode = .binary) :
    opcode.isControl = false ∧ opcode ≠ .continuation := by
  rcases hop with rfl | rfl <;> decide

theorem not_refused {f : Frame} {st : Recv} (hkey : f.key = if client then some rand else none)
    (hsmall : st.curLen < 2 ^ 31) (hmax : st.curLen + f.payload.length < maxSize.toNat) :
    ¬ f.Refused (!client) maxSize st := by
  have htotal : f.total st = st.curLen + f.payload.length := by
    have := maxSize.toNat_lt
    rw [Frame.total, widen_of_lt hsmall, Nat.mod_eq_of_lt (by omega)]
  intro hf
  rcases hf with ⟨hc, hk⟩ | hsize
  · cases client <;> simp_all
  · omega

theorem recvFrame_fits (client : Bool) (maxSize : UInt32) {f : Frame} (st : Recv)
    (h : st.stream.input = f.encode ++ rest)
    (hop : f.opcode.isControl = false) (hkey : f.key = if client then some rand else none)
    (hlen : st.data.length = st.curLen) (hne : f.payload ≠ [])
    (hfit : st.curLen + f.payload.length < 2 ^ 31)
    (hmax : st.curLen + f.payload.length < maxSize.toNat) :
    ∃ sizes, recvFrame (!client) maxSize st =
      if f.fin then
        .message { opcode := takeOpcode f.head st.opcode, data := st.data ++ f.payload }
          { st.stream with input := rest, sizes }
      else
        .next { stream := { st.stream with input := rest, sizes }
                opcode := takeOpcode f.head st.opcode
                data := st.data ++ f.payload
                curLen := st.curLen + f.payload.length } := by
  have hpass := recvFrame_data (!client) maxSize st h hop
  rw [if_neg (not_refused hkey (by omega) hmax)] at hpass
  obtain ⟨sizes, hpass⟩ := hpass
  exact ⟨sizes, hpass.trans (Frame.accept_fits hlen hne hfit)⟩

theorem roundTrip_of_fits (hop : opcode = .text ∨ opcode = .binary)
    (hp : p.length < maxSize.toNat) (ht : t.writable = true) (hne : p ≠ [])
    (hfit : p.length + headSize < 2 ^ 31) : RoundTrip client maxSize rand opcode p t r rest := by
  obtain ⟨hdata, hstart⟩ := starts hop
  have hlt : p.length < 2 ^ 31 := Nat.lt_of_le_of_lt (Nat.le_add_right _ _) hfit
  let f := Frame.sent opcode client true rand p hdata (hlt.trans (by decide))
  obtain ⟨room, hsent⟩ := wsSendMessage_ok hdata client true rand (hlt.trans (by decide)) ht hne
  obtain ⟨sizes, hpass⟩ := recvFrame_fits client maxSize (f := f)
    { stream := { r with input := f.encode ++ rest } } rfl hdata rfl rfl hne
    (by rw [Nat.zero_add]; exact hlt) (by rw [Nat.zero_add]; exact hp)
  unfold RoundTrip
  dsimp only
  rw [hsent]
  dsimp only
  rw [List.drop_left, int32_of_lt hfit]
  constructor
  · unfold headSize
    omega
  · rw [if_pos (show f.fin = true from rfl), takeOpcode_zero hstart] at hpass
    exact ⟨_, recvLoop_message hpass, rfl⟩

theorem not_roundTrip_nil : ¬ RoundTrip client maxSize rand opcode [] t r rest := by
  intro ⟨hsent, _⟩
  rw [wsSendMessage_nil _ rfl] at hsent
  exact absurd hsent (by decide)

theorem not_roundTrip_long (hop : opcode = .text ∨ opcode = .binary)
    (hp : p.length < maxSize.toNat) (ht : t.writable = true) (hne : p ≠ [])
    (hlong : 2 ^ 31 ≤ p.length + headSize) :
    ¬ RoundTrip client maxSize rand opcode p t r rest := by
  intro ⟨hsent, _⟩
  have hmax := maxSize.toNat_lt
  obtain ⟨room, hwrite⟩ := wsSendMessage_ok (starts hop).1 client true rand
    (hp.trans (hmax.trans (by decide))) ht hne
  rw [hwrite] at hsent
  -- the size with the header is no `int32_t` any more
  have hneg : int32 (p.length + headSize) ≤ 0 := by
    unfold int32
    unfold headSize at hlong ⊢
    split <;> omega
  exact absurd hsent (by omega)

/-- **A message gets through just when it has data and a size that fits into the result.** -/
theorem roundTrip_iff (hop : opcode = .text ∨ opcode = .binary) (hp : p.length < maxSize.toNat)
    (ht : t.writable = true) :
    RoundTrip client maxSize rand opcode p t r rest ↔
      p ≠ [] ∧ p.length + headSize < 2 ^ 31 := by
  constructor
  · intro h
    have hne : p ≠ [] := by
      rintro rfl
      exact not_roundTrip_nil h
    refine ⟨hne, ?_⟩
    by_contra hlong
    exact not_roundTrip_long hop hp ht hne (Nat.le_of_not_lt hlong) h
  · intro ⟨hne, hfit⟩
    exact roundTrip_of_fits hop hp ht hne hfit

end Message

theorem roundTrip_iff_hello :
    RoundTrip true 1024 0x12345678 .text (ascii "hello") { input := [] } { input := [] } [] :=
  (roundTrip_iff (.inl rfl) (by decide) rfl).mpr ⟨by decide, by decide⟩

/-- An empty message does not get through. -/
theorem roundTrip_empty :
    ¬ RoundTrip false 1024 0 .text [] { input := [] } { input := [] } [] :=
  not_roundTrip_nil

/-! ## Fragments with control frames between them -/

/-- A control frame that a side sends on its own. -/
inductive Control where
  | ping
  | pong
deriving DecidableEq, Repr

def Control.send : Control → Stream → Stream
  | .ping, s => (wsPing s).2
  | .pong, s => (wsPong s).2

def sendControls (cs : List Control) (s : Stream) : Stream := cs.foldl (fun s c => c.send s) s

structure Fragment where
  /-- What is sent right before the fragment. -/
  controls : List Control
  rand : BitVec 32
  data : Bytes
deriving DecidableEq, Repr

/-- The calls that send a message in fragments: `opcode` for the first of them, `CONTINUE` for the
others, and `fin` for the last. -/
def sendFragments (client : Bool) (opcode : Opcode) : List Fragment → Stream → Stream
  | [], s => s
  | f :: fs, s =>
    let s := sendControls f.controls s
    let msg : WSFrameMessage := { opcode := opcode.code.toNat, data := f.data }
    sendFragments client .continuation fs (wsSendMessage s msg client fs.isEmpty f.rand).2.1

def payloadOf (fs : List Fragment) : Bytes := fs.flatMap (·.data)

def pingsOf (fs : List Fragment) : Nat := (fs.flatMap (·.controls)).count .ping

/-- What `WSPong` writes, so many times. -/
def pongs (n : Nat) : Bytes := (List.replicate n [0x8A, 0]).flatten

theorem pongs_add (m n : Nat) : pongs (m + n) = pongs m ++ pongs n := by
  rw [pongs, ← List.replicate_append_replicate, List.flatten_append]
  rfl

/-- A control frame without key and payload. -/
def Frame.bare (opcode : Opcode) : Frame where
  fin := true
  opcode := opcode
  key := none
  payload := []
  length_lt := by decide
  control := fun _ => ⟨rfl, by decide⟩

def Control.opcode : Control → Opcode
  | .ping => .ping
  | .pong => .pong

theorem Control.send_ok (c : Control) {s : Stream} (hw : s.writable = true) :
    ∃ room, c.send s =
      { s with output := s.output ++ (Frame.bare c.opcode).encode, room } := by
  cases c with
  | ping =>
    obtain ⟨room, hsend⟩ := sendHead_ok (Frame.bare .ping).head hw
    exact ⟨room, congrArg Prod.snd hsend⟩
  | pong =>
    obtain ⟨room, hsend⟩ := sendHead_ok (Frame.bare .pong).head hw
    exact ⟨room, congrArg Prod.snd hsend⟩

section Fragments

variable (client : Bool) (maxSize : UInt32)

theorem recvLoop_control (c : Control) {st : Recv} {rest : Bytes}
    (h : st.stream.input = (Frame.bare c.opcode).encode ++ rest) (hw : st.stream.writable = true) :
    ∃ sizes room, recvLoop client maxSize st = recvLoop client maxSize { st with stream :=
      { st.stream with
        input := rest, output := st.stream.output ++ pongs ([c].count .ping), sizes, room } } := by
  obtain ⟨sizes, room, hpass⟩ := recvFrame_control client maxSize st h
    (by cases c <;> rfl) (fun _ => hw)
  refine ⟨sizes, room, (recvLoop_next hpass).trans ?_⟩
  cases c <;> rfl

/-- The control frames that one side sends, as the other side's loop finds them. -/
theorem recvLoop_controls (cs : List Control) {t : Stream} (ht : t.writable = true) :
    ∃ bytes room, sendControls cs t = { t with output := t.output ++ bytes, room } ∧
      ∀ (st : Recv) (rest : Bytes), st.stream.input = bytes ++ rest → st.stream.writable = true →
        ∃ sizes room, recvLoop client maxSize st = recvLoop client maxSize { st with stream :=
          { st.stream with
            input := rest, output := st.stream.output ++ pongs (cs.count .ping), sizes,
            room } } := by
  induction cs generalizing t with
  | nil =>
    refine ⟨[], t.room, by simp [sendControls], ?_⟩
    intro st rest h _
    refine ⟨st.stream.sizes, st.stream.room, ?_⟩
    rw [show rest = st.stream.input from h.symm]
    simp [pongs]
  | cons c cs ih =>
    obtain ⟨room₁, hsend⟩ := c.send_ok ht
    obtain ⟨bytes, room₂, hrest, hrecv⟩ := ih (t := c.send t) (by rw [hsend]; exact ht)
    refine ⟨(Frame.bare c.opcode).encode ++ bytes, room₂, ?_, ?_⟩
    · change sendControls cs (c.send t) = _
      rw [hrest, hsend]
      simp only [List.append_assoc]
    · intro st rest h hw
      rw [List.append_assoc] at h
      -- the first control frame is answered, and the loop goes on behind it
      obtain ⟨sizes, room, hfirst⟩ := recvLoop_control client maxSize c h hw
      obtain ⟨sizes', room', hothers⟩ := hrecv { st with stream :=
        { st.stream with
          input := bytes ++ rest, output := st.stream.output ++ pongs ([c].count .ping),
          sizes, room } } rest rfl hw
      refine ⟨sizes', room', hfirst.trans (hothers.trans ?_)⟩
      -- the pongs for the first frame and for the others are those for all
      simp only [List.append_assoc, ← pongs_add]
      rw [← List.count_append]
      rfl

/-- One fragment with the control frames before it: what the sender writes, and what the receiver
does with it. -/
theorem recvLoop_fragment (f : Fragment) (hne : f.data ≠ []) {opcode : Opcode}
    (hop : opcode.isControl = false) (fin : Bool) {t : Stream} (ht : t.writable = true)
    (hmax : maxSize.toNat ≤ 2 ^ 31) (hsize : f.data.length < maxSize.toNat) :
    ∃ bytes room,
      (wsSendMessage (sendControls f.controls t)
        { opcode := opcode.code.toNat, data := f.data } client fin f.rand).2.1 =
          { t with output := t.output ++ bytes, room } ∧
      ∀ (st : Recv) (rest : Bytes), st.stream.input = bytes ++ rest → st.stream.writable = true →
        st.data.length = st.curLen → st.curLen + f.data.length < maxSize.toNat →
        ∃ s, s.input = rest ∧ s.output = st.stream.output ++ pongs (f.controls.count .ping) ∧
          s.writable = true ∧ recvLoop (!client) maxSize st =
            if fin then
              .message { opcode := takeOpcode { opcode := opcode.code } st.opcode
                         data := st.data ++ f.data } s
            else
              recvLoop (!client) maxSize
                { stream := s
                  opcode := takeOpcode { opcode := opcode.code } st.opcode
                  data := st.data ++ f.data
                  curLen := st.curLen + f.data.length } := by
  have hlt : f.data.length < 2 ^ 63 := by omega
  -- the frame that carries the data of the fragment
  let g := Frame.sent opcode client fin f.rand f.data hop hlt
  obtain ⟨bytes, room₁, hcontrols, hrecv⟩ :=
    recvLoop_controls (!client) maxSize f.controls ht
  obtain ⟨room₂, hsent⟩ := wsSendMessage_ok hop client fin f.rand hlt
    (s := sendControls f.controls t) (by rw [hcontrols]; exact ht) hne
  refine ⟨bytes ++ g.encode, room₂, ?_, ?_⟩
  · rw [hsent, hcontrols]
    simp only [List.append_assoc, g]
  · intro st rest h hw hlen hfit
    rw [List.append_assoc] at h
    -- the control frames come first and leave the message as it is
    obtain ⟨sizes, room, hloop⟩ := hrecv st _ h hw
    obtain ⟨sizes', hpass⟩ := recvFrame_fits client maxSize (f := g)
      { st with stream :=
        { st.stream with
          input := g.encode ++ rest, output := st.stream.output ++ pongs (f.controls.count .ping),
          sizes, room } } rfl hop rfl hlen hne (Nat.lt_of_lt_of_le hfit hmax) hfit
    refine ⟨{ st.stream with
      input := rest, output := st.stream.output ++ pongs (f.controls.count .ping),
      sizes := sizes', room }, rfl, rfl, hw, hloop.trans ?_⟩
    cases fin with
    | true => exact recvLoop_message hpass
    | false => exact recvLoop_next hpass

/-- The loop over the fragments that are left, from the opcode and the data so far. -/
theorem recvLoop_fragments {fs : List Fragment} (hne : fs ≠ []) (hdata : ∀ f ∈ fs, f.data ≠ [])
    {opcode : Opcode} (hop : opcode.isControl = false) {t : Stream} (ht : t.writable = true)
    (hmax : maxSize.toNat ≤ 2 ^ 31) (hsize : (payloadOf fs).length < maxSize.toNat) :
    ∃ bytes, (sendFragments client opcode fs t).output = t.output ++ bytes ∧
      ∀ (st : Recv) (rest : Bytes), st.stream.input = bytes ++ rest → st.stream.writable = true →
        st.data.length = st.curLen → st.curLen + (payloadOf fs).length < maxSize.toNat →
        ∃ s, recvLoop (!client) maxSize st =
            .message { opcode := takeOpcode { opcode := opcode.code } st.opcode
                       data := st.data ++ payloadOf fs } s ∧
          s.input = rest ∧ s.output = st.stream.output ++ pongs (pingsOf fs) := by
  induction fs generalizing opcode t with
  | nil => exact absurd rfl hne
  | cons f fs ih =>
    have hpayload : payloadOf (f :: fs) = f.data ++ payloadOf fs := List.flatMap_cons
    have hpings : pingsOf (f :: fs) = f.controls.count .ping + pingsOf fs := by
      rw [pingsOf, List.flatMap_cons, List.count_append]
      rfl
    rw [hpayload, List.length_append] at hsize
    obtain ⟨bytes, room, hsend, hrecv⟩ := recvLoop_fragment client maxSize f
      (hdata f List.mem_cons_self) hop fs.isEmpty ht hmax (by omega)
    by_cases hlast : fs = []
    · subst hlast
      refine ⟨bytes, ?_, ?_⟩
      · exact congrArg Stream.output hsend
      · intro st rest h hw hlen hfit
        rw [hpayload, List.length_append] at hfit
        obtain ⟨s, hinput, houtput, -, hloop⟩ := hrecv st rest h hw hlen (by omega)
        refine ⟨s, ?_, hinput, ?_⟩
        · rw [hloop, hpayload]
          simp [payloadOf]
        · rw [houtput, hpings]
          rfl
    · obtain ⟨bytes', hsend', hrecv'⟩ := ih hlast (fun g hg => hdata g (List.mem_cons_of_mem f hg))
        (show Opcode.continuation.isControl = false from rfl)
        (t := { t with output := t.output ++ bytes, room }) ht (by omega)
      refine ⟨bytes ++ bytes', ?_, ?_⟩
      · change (sendFragments client .continuation fs
            (wsSendMessage _ _ client _ f.rand).2.1).output
          = _
        rw [hsend, hsend', List.append_assoc]
      · intro st rest h hw hlen hfit
        rw [hpayload, List.length_append] at hfit
        rw [List.append_assoc] at h
        obtain ⟨s, hinput, houtput, hw', hloop⟩ := hrecv st _ h hw hlen (by omega)
        rw [if_neg (by simpa using hlast)] at hloop
        obtain ⟨s', hloop', hinput', houtput'⟩ := hrecv'
          { stream := s
            opcode := takeOpcode { opcode := opcode.code } st.opcode
            data := st.data ++ f.data
            curLen := st.curLen + f.data.length } rest hinput hw'
          (by rw [List.length_append, hlen]) (by dsimp only; omega)
        refine ⟨s', ?_, hinput', ?_⟩
        · -- the fragments after the first leave the opcode as it is
          rw [hloop, hloop', hpayload, List.append_assoc, takeOpcode, if_neg (fun h => h.2 rfl)]
        · rw [houtput', houtput, hpings, pongs_add, List.append_assoc]

/-- **A message sent in fragments is received whole**, however it is cut and wherever control frames
fall, and every ping is answered. -/
theorem recv_fragments {opcode : Opcode} (hop : opcode = .text ∨ opcode = .binary)
    {fs : List Fragment} (hne : fs ≠ []) (hdata : ∀ f ∈ fs, f.data ≠ []) {t r : Stream}
    (ht : t.writable = true) (hr : r.writable = true) (hmax : maxSize.toNat ≤ 2 ^ 31)
    (hsize : (payloadOf fs).length < maxSize.toNat) (rest : Bytes) :
    let bytes := (sendFragments client opcode fs t).output.drop t.output.length
    ∃ s, wsRecvMessage (!client) maxSize { r with input := bytes ++ rest } =
        .message { opcode := opcode.code.toNat, data := payloadOf fs } s ∧
      s.input = rest ∧ s.output = r.output ++ pongs (pingsOf fs) := by
  obtain ⟨bytes, hsend, hrecv⟩ := recvLoop_fragments client maxSize hne
    hdata (starts hop).1 ht hmax hsize
  have hopcode : takeOpcode { opcode := opcode.code } 0 = opcode.code.toNat := by
    rcases hop with rfl | rfl <;> rfl
  rw [hsend, List.drop_left]
  intro bytes
  obtain ⟨s, hloop, hinput, houtput⟩ := hrecv { stream := { r with input := bytes ++ rest } } rest
    rfl hr rfl (by rw [Nat.zero_add]; exact hsize)
  refine ⟨s, ?_, hinput, houtput⟩
  rw [wsRecvMessage, hloop, hopcode]
  rfl

end Fragments

theorem recv_fragments_hello :
    let fs : List Fragment :=
      [⟨[], 7, ascii "he"⟩, ⟨[.ping, .pong], 8, ascii "l"⟩, ⟨[.ping], 9, ascii "lo"⟩]
    let bytes := (sendFragments true .text fs { input := [] }).output.drop 0
    ∃ s, wsRecvMessage (!true) 1024 { input := bytes ++ [0x89] } =
        .message { opcode := Opcode.text.code.toNat, data := payloadOf fs } s ∧
      s.input = [0x89] ∧ s.output = [] ++ pongs (pingsOf fs) := by
  intro fs
  exact recv_fragments true 1024 (.inl rfl) (show fs ≠ [] by decide) (by decide)
    (t := { input := [] }) (r := { input := [] }) rfl rfl (by decide) (by decide) [0x89]

end Luwu.WebSocket
