import Luwu.WebSocket.Frame

/-!
# Frame boundaries

A pass of the loop of `WSRecvMessage` takes the whole of a frame of a message, but only the header
of a control frame.  What a control frame carries behind its header is read as the header of the
next frame.
-/

namespace Luwu.WebSocket

open Lib

/-- The loop of a call that finds the frames `fs` on the stream `s`, before its first pass. -/
def start (s : Stream) (fs : List Frame) : Recv := { stream := { s with input := encodeAll fs } }

/-- Every header that the loop reads is the header of one of the frames. -/
def Aligned (client : Bool) (maxSize : UInt32) (s : Stream) (fs : List Frame) : Prop :=
  ∀ st, Reaches client maxSize (start s fs) st → headSize ≤ st.stream.input.length →
    ∃ f gs, f :: gs <:+ fs ∧ st.stream.input = encodeAll (f :: gs)

/-- What a call returns; `none` when it has written outside its buffer. -/
def Received.value : Received → Option (Option WSFrameMessage)
  | .message m _ => some (some m)
  | .null _ => some none
  | .overrun => none

/-- The frames other than `PING` and `PONG`. -/
def strip (fs : List Frame) : List Frame :=
  fs.filter fun f => f.opcode ≠ .ping ∧ f.opcode ≠ .pong

/-- The `PING` and `PONG` frames do not change what is returned. -/
def Unaffected (client : Bool) (maxSize : UInt32) (s : Stream) (fs : List Frame) : Prop :=
  (recvLoop client maxSize (start s fs)).value =
    (recvLoop client maxSize (start s (strip fs))).value

/-- The pass from `st` does not find a control frame with a key or a payload, or finds it at the
end of the stream with too few bytes behind its header for another header. -/
def Plain (fs : List Frame) (st : Recv) : Prop :=
  ∀ f gs, f :: gs <:+ fs → st.stream.input = encodeAll (f :: gs) → f.opcode.isControl = true →
    (f.opcode = .ping → st.stream.writable = true) →
    f.body = [] ∨ (f.body ++ encodeAll gs).length < headSize

section

variable {client : Bool} {maxSize : UInt32} {s : Stream} {f : Frame} {fs gs : List Frame}
  {st : Recv}

/-! ## Lengths of encodings -/

theorem encodeAll_cons (f : Frame) (fs : List Frame) :
    encodeAll (f :: fs) = f.encode ++ encodeAll fs :=
  List.flatMap_cons

theorem length_encode (f : Frame) : f.encode.length = headSize + f.body.length := by
  rw [Frame.encode, List.length_append, WSFrameHead.length_toBytes]

theorem length_encodeAll_le (h : gs <:+ fs) : (encodeAll gs).length ≤ (encodeAll fs).length := by
  obtain ⟨hs, rfl⟩ := h
  rw [encodeAll, encodeAll, List.flatMap_append, List.length_append]
  exact Nat.le_add_left _ _

/-- Behind the header of a frame that carries more, no other frame starts. -/
theorem body_not_aligned (hf : f :: gs <:+ fs) (hbody : f.body ≠ []) {g : Frame} {hs : List Frame}
    (hg : g :: hs <:+ fs) : f.body ++ encodeAll gs ≠ encodeAll (g :: hs) := by
  intro heq
  have hpos := List.length_pos_iff.mpr hbody
  have hlen := congrArg List.length heq
  rw [List.length_append] at hlen
  rcases List.suffix_or_suffix_of_suffix hf hg with hfg | hgf
  · have hle := length_encodeAll_le hfg
    rw [encodeAll_cons f, List.length_append, length_encode] at hle
    unfold headSize at hle
    omega
  · rcases List.suffix_cons_iff.mp hgf with hsame | hlater
    · rw [hsame, encodeAll_cons, List.length_append, length_encode] at hlen
      unfold headSize at hlen
      omega
    · have hle := length_encodeAll_le hlater
      omega

/-! ## Passes that end the loop -/

theorem recvFrame_short (client : Bool) (maxSize : UInt32) (h : st.stream.input.length < headSize) :
    ∃ s', recvFrame client maxSize st = .broke s' := by
  obtain ⟨sizes, hread⟩ := Stream.readFixSize_short h
  rw [recvFrame, hread]
  exact ⟨_, rfl⟩

theorem recvFrame_ping_unwritable (client : Bool) (maxSize : UInt32) {rest : Bytes}
    (h : st.stream.input = f.encode ++ rest)
    (hop : f.opcode = .ping) (hw : st.stream.writable = false) :
    ∃ s', recvFrame client maxSize st = .broke s' := by
  rw [Frame.encode, List.append_assoc] at h
  obtain ⟨sizes, hpass⟩ := recvFrame_head client maxSize h
  have hpong : (wsPong { st.stream with input := f.body ++ rest, sizes }).1 ≤ 0 := by
    rw [wsPong, sendHead, Stream.writeFixSize_unwritable (by exact hw),
      if_pos (show int32 0 ≤ 0 by decide)]
    exact Int.le_refl 0
  rw [hpass, recvOpcode, Frame.head_opcode, hop, if_pos (by rfl)]
  dsimp only
  rw [if_pos hpong]
  exact ⟨_, rfl⟩

/-! ## The loop over the frames -/

/-- What the loop keeps as long as it finds plain frames. -/
def AtFrame (fs : List Frame) (st : Recv) : Prop :=
  (∃ gs, gs <:+ fs ∧ st.stream.input = encodeAll gs) ∨ st.stream.input.length < headSize

/-- What a pass over a frame of a message does depends on the stream only through the stream. -/
theorem Frame.accept_cases (f : Frame) (st : Recv) :
    (∀ t, f.accept st t = .overrun) ∨ (∀ t, f.accept st t = .broke t) ∨
      (∃ m, ∀ t, f.accept st t = .message m t) ∨
      ∃ opcode data curLen, ∀ t,
        f.accept st t = .next { stream := t, opcode, data, curLen } := by
  unfold Frame.accept
  split
  · exact .inl fun _ => rfl
  · split
    · exact .inr (.inl fun _ => rfl)
    · split
      · exact .inl fun _ => rfl
      · dsimp only
        split
        · exact .inr (.inr (.inl ⟨_, fun _ => rfl⟩))
        · exact .inr (.inr (.inr ⟨_, _, _, fun _ => rfl⟩))

theorem Frame.accept_next {st' : Recv} (h : f.accept st s = .next st') : st'.stream = s := by
  rcases f.accept_cases st with hpass | hpass | ⟨m, hpass⟩ | ⟨opcode, data, curLen, hpass⟩
  · rw [hpass] at h
    cases h
  · rw [hpass] at h
    cases h
  · rw [hpass] at h
    cases h
  · rw [hpass] at h
    cases h
    rfl

theorem AtFrame.step {st' : Recv} (hat : AtFrame fs st) (hplain : Plain fs st)
    (h : recvFrame client maxSize st = .next st') : AtFrame fs st' := by
  by_cases hshort : st.stream.input.length < headSize
  · -- too few bytes for a head: the pass breaks off
    obtain ⟨s', hbroke⟩ := recvFrame_short client maxSize hshort
    rw [hbroke] at h
    cases h
  · obtain ⟨gs, hgs, hinput⟩ := hat.resolve_right hshort
    cases gs with
    | nil =>
      rw [hinput] at hshort
      exact absurd (by decide) hshort
    | cons f gs =>
      have hlater : gs <:+ fs := (List.suffix_cons f gs).trans hgs
      have hencode := hinput.trans (encodeAll_cons f gs)
      by_cases hop : f.opcode.isControl = true
      · by_cases hw : f.opcode = .ping → st.stream.writable = true
        · obtain ⟨sizes, room, hpass⟩ := recvFrame_control client maxSize st hencode hop hw
          rw [hpass] at h
          cases h
          -- the payload of a control frame is not read; a plain frame has none, or it is the last
          rcases hplain f gs hgs hinput hop hw with hbare | hend
          · left
            exact ⟨gs, hlater, by rw [hbare, List.nil_append]⟩
          · right
            exact hend
        · rw [Classical.not_imp, Bool.not_eq_true] at hw
          obtain ⟨s', hbroke⟩ := recvFrame_ping_unwritable client maxSize hencode hw.1 hw.2
          rw [hbroke] at h
          cases h
      · rw [Bool.not_eq_true] at hop
        -- a data frame is read to its end, or refused
        have hpass := recvFrame_data client maxSize st hencode hop
        split at hpass
        · obtain ⟨s', hbroke⟩ := hpass
          rw [hbroke] at h
          cases h
        · obtain ⟨sizes, hpass⟩ := hpass
          rw [hpass] at h
          left
          exact ⟨gs, hlater, by rw [Frame.accept_next h]⟩

/-- Along a loop that finds plain frames, every pass starts at a frame. -/
theorem atFrame_of_plain (hplain : ∀ st, Reaches client maxSize (start s fs) st → Plain fs st)
    (h : Reaches client maxSize (start s fs) st) : AtFrame fs st := by
  induction h with
  | refl => exact .inl ⟨fs, List.suffix_refl fs, rfl⟩
  | tail hreach hstep ih => exact ih.step (hplain _ hreach) hstep

theorem aligned_of_plain (hplain : ∀ st, Reaches client maxSize (start s fs) st → Plain fs st) :
    Aligned client maxSize s fs := by
  intro st h hlong
  obtain ⟨gs, hgs, hinput⟩ :=
    (atFrame_of_plain hplain h).resolve_right (Nat.not_lt_of_le hlong)
  cases gs with
  | nil =>
    rw [hinput] at hlong
    exact absurd hlong (by decide)
  | cons f gs => exact ⟨f, gs, hgs, hinput⟩

/-- What a control frame carries is read as a header. -/
theorem not_aligned_of_control (h : Reaches client maxSize (start s fs) st) (hf : f :: gs <:+ fs)
    (hinput : st.stream.input = encodeAll (f :: gs)) (hop : f.opcode.isControl = true)
    (hw : f.opcode = .ping → st.stream.writable = true) (hbody : f.body ≠ [])
    (hlong : headSize ≤ (f.body ++ encodeAll gs).length) : ¬ Aligned client maxSize s fs := by
  intro haligned
  obtain ⟨sizes, room, hpass⟩ := recvFrame_control client maxSize st
    (hinput.trans (encodeAll_cons f gs)) hop hw
  obtain ⟨g, hs, hg, heq⟩ := haligned _ (h.tail hpass) hlong
  exact body_not_aligned hf hbody hg heq

/-! ## The message without the control frames -/

theorem value_short (client : Bool) (maxSize : UInt32) (h : st.stream.input.length < headSize) :
    (recvLoop client maxSize st).value = some none := by
  obtain ⟨s', hbroke⟩ := recvFrame_short client maxSize h
  rw [recvLoop_broke hbroke]
  rfl

/-- Too few bytes for another header are behind the header of the last frame only. -/
theorem eq_nil_of_short (h : (f.body ++ encodeAll gs).length < headSize) : gs = [] := by
  cases gs with
  | nil => rfl
  | cons g gs =>
    rw [List.length_append, encodeAll_cons, List.length_append, length_encode] at h
    omega

theorem strip_cons_skip (h : f.opcode = .ping ∨ f.opcode = .pong) : strip (f :: gs) = strip gs := by
  rw [strip, List.filter_cons_of_neg]
  · rfl
  · rcases h with h | h <;> simp [h]

theorem strip_cons_keep (h : ¬ (f.opcode = .ping ∨ f.opcode = .pong)) :
    strip (f :: gs) = f :: strip gs := by
  rw [strip, List.filter_cons_of_pos]
  · rfl
  · simpa using h

/-- The loop returns the same on the frames that are left as on those of them that are stripped of
`PING` and `PONG`. -/
theorem value_strip (hplain : ∀ st, Reaches client maxSize (start s fs) st → Plain fs st)
    (hgs : gs <:+ fs) (hreach : Reaches client maxSize (start s fs) st)
    (hinput : st.stream.input = encodeAll gs) (hw : st.stream.writable = true) {t : Stream}
    (ht : t.input = encodeAll (strip gs)) (htw : t.writable = true) :
    (recvLoop client maxSize st).value =
      (recvLoop client maxSize { st with stream := t }).value := by
  induction gs generalizing st t with
  | nil =>
    rw [value_short client maxSize (by rw [hinput]; decide),
      value_short client maxSize (by change t.input.length < _; rw [ht]; decide)]
  | cons f gs ih =>
    have hlater : gs <:+ fs := (List.suffix_cons f gs).trans hgs
    have hencode := hinput.trans (encodeAll_cons f gs)
    by_cases hskip : f.opcode = .ping ∨ f.opcode = .pong
    · -- the frame is on one side only
      have hop : f.opcode.isControl = true := by
        rcases hskip with h | h <;> rw [h] <;> rfl
      obtain ⟨sizes, room, hpass⟩ := recvFrame_control client maxSize st hencode hop fun _ => hw
      have hreach' := hreach.tail hpass
      rw [strip_cons_skip hskip] at ht
      rw [recvLoop_next hpass]
      rcases hplain st hreach f gs hgs hinput hop fun _ => hw with hbare | hend
      · exact ih hlater hreach' (by rw [hbare, List.nil_append]) hw ht htw
      · rw [eq_nil_of_short hend] at ht
        rw [value_short client maxSize hend,
          value_short client maxSize (by change t.input.length < _; rw [ht]; decide)]
    · rw [strip_cons_keep hskip] at ht
      have hencode' := ht.trans (encodeAll_cons f (strip gs))
      by_cases hop : f.opcode.isControl = true
      · -- the pass over a `CLOSE` frame on both sides
        obtain ⟨sizes, room, hpass⟩ := recvFrame_control client maxSize st hencode hop fun _ => hw
        obtain ⟨sizes', room', hpass'⟩ := recvFrame_control client maxSize
          { st with stream := t } hencode' hop fun _ => htw
        have hreach' := hreach.tail hpass
        rw [recvLoop_next hpass, recvLoop_next hpass']
        rcases hplain st hreach f gs hgs hinput hop fun _ => hw with hbare | hend
        · exact ih hlater hreach' (by rw [hbare, List.nil_append]) hw
            (by rw [hbare, List.nil_append]) htw
        · have hnil := eq_nil_of_short hend
          rw [value_short client maxSize hend, value_short client maxSize]
          rw [hnil] at hend ⊢
          exact hend
      · -- the pass over a frame of the message on both sides
        rw [Bool.not_eq_true] at hop
        have hpass := recvFrame_data client maxSize st hencode hop
        have hpass' := recvFrame_data client maxSize { st with stream := t } hencode' hop
        change if f.Refused client maxSize st then _ else _ at hpass'
        by_cases hf : f.Refused client maxSize st
        · rw [if_pos hf] at hpass hpass'
          obtain ⟨s₁, hpass⟩ := hpass
          obtain ⟨s₂, hpass'⟩ := hpass'
          rw [recvLoop_broke hpass, recvLoop_broke hpass']
          rfl
        · rw [if_neg hf] at hpass hpass'
          obtain ⟨sizes, hpass⟩ := hpass
          obtain ⟨sizes', hpass'⟩ := hpass'
          change _ = f.accept st _ at hpass'
          rcases f.accept_cases st with hacc | hacc | ⟨m, hacc⟩ | ⟨opcode, data, curLen, hacc⟩
          · rw [hacc] at hpass hpass'
            rw [recvLoop_overrun hpass, recvLoop_overrun hpass']
          · rw [hacc] at hpass hpass'
            rw [recvLoop_broke hpass, recvLoop_broke hpass']
            rfl
          · rw [hacc] at hpass hpass'
            rw [recvLoop_message hpass, recvLoop_message hpass']
            rfl
          · rw [hacc] at hpass hpass'
            rw [recvLoop_next hpass, recvLoop_next hpass']
            exact ih hlater (hreach.tail hpass) rfl hw rfl htw

/-- **The loop stays at frame boundaries, and control frames leave the message as it is, just when
every control frame it finds is bare.** -/
theorem aligned_iff :
    Aligned client maxSize s fs ∧ (s.writable = true → Unaffected client maxSize s fs) ↔
      ∀ st, Reaches client maxSize (start s fs) st → Plain fs st := by
  constructor
  · intro ⟨haligned, _⟩ st hreach f gs hf hinput hop hw
    by_contra h
    rw [not_or] at h
    exact not_aligned_of_control hreach hf hinput hop hw h.1 (Nat.le_of_not_lt h.2) haligned
  · intro hplain
    refine ⟨aligned_of_plain hplain, ?_⟩
    intro hw
    exact value_strip hplain (List.suffix_refl fs) .refl rfl hw
      (t := { s with input := encodeAll (strip fs) }) rfl hw

end

def clientPing : Frame :=
  { fin := true, opcode := .ping, key := some 0x04030201, payload := ascii "hi"
    length_lt := by decide, control := by decide }

def clientText : Frame :=
  { fin := true, opcode := .text, key := some 0x04030201, payload := ascii "hello"
    length_lt := by decide, control := by decide }

/-- The key of the ping is taken for a header, and the message behind it is lost. -/
theorem client_ping_not_aligned :
    ¬ Aligned false 1024 { input := [] } [clientPing, clientText] ∧
      ¬ Unaffected false 1024 { input := [] } [clientPing, clientText] := by
  constructor
  · exact not_aligned_of_control .refl (List.suffix_refl _) rfl rfl (fun _ => rfl) (by decide)
      (by decide)
  · unfold Unaffected
    decide +kernel

end Luwu.WebSocket
