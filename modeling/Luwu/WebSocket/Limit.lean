import Luwu.WebSocket.Frame

/-!
# The size limit

`WSRecvMessage` compares `cur_len + length` with `websocket.message.max_size`.  `cur_len` is an
`int` and `length` any number of 64 bits from the wire, and their sum is taken modulo 2^64.
-/

namespace Luwu.WebSocket

open Lib

/-- What the pass from `st` resizes the buffer for: the header, the length and the mask of a frame
that has passed the check, and the stream at its payload. -/
def resizes (client : Bool) (maxSize : UInt32) (st : Recv) :
    Option (WSFrameHead × Nat × Bytes × Stream) :=
  let r := st.stream.readFixSize headSize
  let head := WSFrameHead.ofBytes r.2.1
  if r.1 ≤ 0 ∨ ¬ (head.opcode = WSFrameHead.CONTINUE ∨ head.opcode = WSFrameHead.TEXT_FRAME ∨
      head.opcode = WSFrameHead.BIN_FRAME) ∨ !client ∧ !head.mask then none
  else match readLength head r.2.2 with
    | (none, _) => none
    | (some length, s) =>
      if (widen st.curLen + length) % 2 ^ 64 ≥ maxSize.toNat then none
      else match readMask head s with
        | (none, _) => none
        | (some mask, s) => some (head, length, mask, s)

/-- The bytes that the pass from `st` adds to the message. -/
def added (client : Bool) (maxSize : UInt32) (st : Recv) : Nat :=
  match resizes client maxSize st with
  | some (_, length, _, _) => length
  | none => 0

/-- `st` is a state of the loop of a call on the stream `s`, with `n` bytes accumulated. -/
inductive Run (client : Bool) (maxSize : UInt32) (s : Stream) : Recv → Nat → Prop
  | start : Run client maxSize s { stream := s } 0
  | next {st st' : Recv} {n : Nat} (h : Run client maxSize s st n)
      (hstep : recvFrame client maxSize st = .next st') :
      Run client maxSize s st' (n + added client maxSize st)

/-- The message stays below the limit with what the pass adds, and the pass writes inside the buffer
it has resized. -/
def InLimit (client : Bool) (maxSize : UInt32) (st : Recv) (n : Nat) : Prop :=
  ∀ head length mask s, resizes client maxSize st = some (head, length, mask, s) →
    let data := resize st.data ((widen st.curLen + length) % 2 ^ 64)
    n + length < maxSize.toNat ∧ widen st.curLen + length ≤ data.length ∧
      (head.mask = true → st.curLen + int32 length ≤ 2 ^ 31)

/-- The length so far is an `int`, and the sum with the next one does not wrap around; nor does the
index of a byte that is unmasked. -/
def NoWrap (client : Bool) (maxSize : UInt32) (st : Recv) (n : Nat) : Prop :=
  ∀ head length mask s, resizes client maxSize st = some (head, length, mask, s) →
    n < 2 ^ 31 ∧ n + length < 2 ^ 64 ∧ (head.mask = true → n + int32 length ≤ 2 ^ 31)

/-- What the loop keeps as long as nothing wraps around. -/
structure Exact (st : Recv) (n : Nat) : Prop where
  curLen : st.curLen = n
  lt : n < 2 ^ 32
  data : st.data.length = n

section

variable {client : Bool} {maxSize : UInt32} {s : Stream} {st st' : Recv} {n : Nat}

/-! ## Passes -/

theorem recvFrame_resizes {head : WSFrameHead} {length : Nat} {mask : Bytes}
    (h : resizes client maxSize st = some (head, length, mask, s)) :
    recvFrame client maxSize st =
      recvPayload head length ((widen st.curLen + length) % 2 ^ 64) mask s st ∧
    (widen st.curLen + length) % 2 ^ 64 < maxSize.toNat := by
  unfold resizes at h
  dsimp only at h
  split at h
  · cases h
  · next hhead =>
    rw [not_or, not_or, not_not] at hhead
    obtain ⟨hpos, hdata, hrole⟩ := hhead
    split at h
    · cases h
    · next length' s₁ hlength =>
      split at h
      · cases h
      · next hsize =>
        split at h
        · cases h
        · next mask' s₂ hmask =>
          cases h
          refine ⟨?_, Nat.lt_of_not_le hsize⟩
          -- a data frame is no ping and no pong, so the pass comes to its payload
          have hping : (WSFrameHead.ofBytes (st.stream.readFixSize headSize).2.1).opcode ≠
              WSFrameHead.PING := by
            intro hcode
            rw [hcode] at hdata
            exact absurd hdata (by decide)
          have hpong : (WSFrameHead.ofBytes (st.stream.readFixSize headSize).2.1).opcode ≠
              WSFrameHead.PONG := by
            intro hcode
            rw [hcode] at hdata
            exact absurd hdata (by decide)
          unfold recvFrame recvOpcode recvData
          dsimp only
          rw [if_neg hpos, if_neg hping, if_neg hpong, if_pos hdata, if_neg hrole, hlength]
          dsimp only
          rw [if_neg hsize, hmask]

/-- The other passes leave the buffer as it is, and the stream no longer than it was. -/
theorem recvFrame_not_resizes (h : resizes client maxSize st = none) :
    (∃ s, recvFrame client maxSize st = .broke s) ∨
      ∃ s, recvFrame client maxSize st = .next { st with stream := s } ∧
        s.input.length + headSize ≤ st.stream.input.length := by
  have hread := st.stream.readFixSize_input_length headSize
  unfold recvFrame
  dsimp only
  split
  · exact .inl ⟨_, rfl⟩
  · next hpos =>
    have hlen := st.stream.length_of_readFixSize_pos (Nat.lt_of_not_le hpos)
    unfold recvOpcode
    dsimp only
    split
    · split
      · exact .inl ⟨_, rfl⟩
      · refine .inr ⟨_, rfl, ?_⟩
        rw [wsPong_input]
        omega
    · split
      · exact .inr ⟨_, rfl, by omega⟩
      · split
        · next hdata =>
          -- a frame of a message, whose pass ends before the payload
          left
          unfold recvData
          unfold resizes at h
          dsimp only at h
          split
          · exact ⟨_, rfl⟩
          · next hrole =>
            rw [if_neg (by rw [not_or, not_or, not_not]; exact ⟨hpos, hdata, hrole⟩)] at h
            split
            · exact ⟨_, rfl⟩
            · next length s₁ hlength =>
              rw [hlength] at h
              dsimp only at h ⊢
              split
              · exact ⟨_, rfl⟩
              · next hsize =>
                rw [if_neg hsize] at h
                split
                · exact ⟨_, rfl⟩
                · next mask s₂ hmask =>
                  rw [hmask] at h
                  cases h
        · exact .inr ⟨_, rfl, by omega⟩

@[simp] theorem length_unmask (head : WSFrameHead) (mask d : Bytes) :
    (unmask head mask d).length = d.length := by
  unfold unmask
  split
  · rw [List.length_mapIdx]
  · rfl

/-- How a pass ends that has resized the buffer to `total` bytes. -/
theorem recvPayload_cases (head : WSFrameHead) (length total : Nat) (mask : Bytes) (s : Stream)
    (st : Recv) :
    recvPayload head length total mask s st = .overrun ∨
    (∃ s', recvPayload head length total mask s st = .broke s') ∨
    ∃ data s' opcode, widen st.curLen + length ≤ total ∧ data.length = total ∧ 0 < length ∧
      s'.input.length + length = s.input.length ∧
      recvPayload head length total mask s st =
        if head.fin then .message { opcode, data } s'
        else .next { stream := s', opcode, data, curLen := total % 2 ^ 32 } := by
  have hread := s.readFixSize_length_le length
  have hinput := s.readFixSize_input_length length
  unfold recvPayload
  dsimp only
  split
  · exact .inl rfl
  · next hin =>
    rw [length_resize] at hin
    split
    · exact .inr (.inl ⟨_, rfl⟩)
    · next hpos =>
      have hlen := s.length_of_readFixSize_pos (Nat.lt_of_not_le hpos)
      split
      · exact .inl rfl
      · -- the payload is in the buffer
        refine .inr (.inr ⟨_, (s.readFixSize length).2.2, _, Nat.le_of_not_lt hin, ?_, hlen.1, ?_,
          rfl⟩)
        · rw [length_splice, length_resize]
          rw [length_resize, length_unmask]
          omega
        · omega

theorem recvPayload_next {head : WSFrameHead} {length total : Nat} {mask : Bytes}
    (h : recvPayload head length total mask s st = .next st') :
    st'.curLen = total % 2 ^ 32 ∧ st'.data.length = total := by
  rcases recvPayload_cases head length total mask s st with
    hover | ⟨s', hbroke⟩ | ⟨data, s', opcode, -, hdata, -, -, hpass⟩
  · rw [hover] at h
    cases h
  · rw [hbroke] at h
    cases h
  · rw [hpass] at h
    split at h
    · cases h
    · cases h
      exact ⟨rfl, hdata⟩

/-! ## Runs -/

theorem NoWrap.inLimit (hex : Exact st n) (h : NoWrap client maxSize st n) :
    InLimit client maxSize st n := by
  intro head length mask s hr
  obtain ⟨hn, hsum, hmask⟩ := h head length mask s hr
  obtain ⟨-, hsize⟩ := recvFrame_resizes hr
  rw [hex.curLen, widen_of_lt hn, Nat.mod_eq_of_lt hsum] at hsize ⊢
  dsimp only
  rw [length_resize]
  exact ⟨hsize, Nat.le_refl _, hmask⟩

theorem InLimit.noWrap (hex : Exact st n) (h : InLimit client maxSize st n) :
    NoWrap client maxSize st n := by
  intro head length mask s hr
  obtain ⟨-, hin, hmask⟩ := h head length mask s hr
  obtain ⟨-, hsize⟩ := recvFrame_resizes hr
  have hmax := maxSize.toNat_lt
  have hlt := hex.lt
  rw [length_resize] at hin
  rw [hex.curLen] at hin hsize hmask
  have hn : n < 2 ^ 31 := by
    by_contra hge
    rw [widen, if_neg hge] at hin hsize
    omega
  rw [widen_of_lt hn] at hin
  exact ⟨hn, by omega, hmask⟩

theorem Exact.step (hex : Exact st n) (h : NoWrap client maxSize st n)
    (hstep : recvFrame client maxSize st = .next st') :
    Exact st' (n + added client maxSize st) := by
  unfold added
  cases hr : resizes client maxSize st with
  | none =>
    rcases recvFrame_not_resizes hr with ⟨s', hbroke⟩ | ⟨s', hnext, -⟩
    · rw [hbroke] at hstep
      cases hstep
    · rw [hnext] at hstep
      cases hstep
      exact ⟨hex.curLen, hex.lt, hex.data⟩
  | some r =>
    obtain ⟨head, length, mask, s⟩ := r
    obtain ⟨hn, hsum, -⟩ := h head length mask s hr
    obtain ⟨hpass, hsize⟩ := recvFrame_resizes hr
    have hmax := maxSize.toNat_lt
    rw [hstep] at hpass
    have hwiden : widen st.curLen = n := by rw [hex.curLen, widen_of_lt hn]
    rw [hwiden, Nat.mod_eq_of_lt hsum] at hpass hsize
    obtain ⟨hcur, hdata⟩ := recvPayload_next hpass.symm
    have hlt : n + length < 2 ^ 32 := hsize.trans hmax
    exact ⟨by rw [hcur, Nat.mod_eq_of_lt hlt], hlt, hdata⟩

theorem exact_of_run (hwrap : ∀ st n, Run client maxSize s st n → Exact st n →
    NoWrap client maxSize st n) (h : Run client maxSize s st n) : Exact st n := by
  induction h with
  | start => exact ⟨rfl, by decide, rfl⟩
  | next hrun hstep ih => exact ih.step (hwrap _ _ hrun ih) hstep

/-- **The buffer stays below the limit, and is written inside its bounds, just in the runs where no
length wraps around.** -/
theorem inLimit_iff :
    (∀ st n, Run client maxSize s st n → InLimit client maxSize st n) ↔
      ∀ st n, Run client maxSize s st n → NoWrap client maxSize st n := by
  constructor
  · intro h st n hrun
    have hex := exact_of_run (fun st n hrun hex => (h st n hrun).noWrap hex) hrun
    exact (h st n hrun).noWrap hex
  · intro h st n hrun
    have hex := exact_of_run (fun st n hrun _ => h st n hrun) hrun
    exact (h st n hrun).inLimit hex

end

/-- A fragment of one byte, and the header of another with the length 2^64 - 1. -/
def wrapping : Bytes :=
  [0x01, 0x81, 0, 0, 0, 0, 0x41, 0x80, 0xFF, 0xFF, 0xFF, 0xFF, 0xFF, 0xFF, 0xFF, 0xFF, 0xFF, 0, 0,
    0, 0, 0x42]

/-- The lengths sum up to 0, which is below any limit. -/
theorem wrapping_not_inLimit :
    ¬ ∀ st n, Run false (1024 * 1024 * 32) { input := wrapping } st n →
      InLimit false (1024 * 1024 * 32) st n := by
  intro h
  have hstep : recvFrame false (1024 * 1024 * 32) { stream := { input := wrapping } } =
      .next
        { stream := { input := wrapping.drop 7 }, opcode := 1, data := [0x41], curLen := 1 } := by
    decide +kernel
  have hin := h _ _ (.next .start hstep)
  obtain ⟨hlimit, -, -⟩ := hin { opcode := 0, fin := true, payload := 127, mask := true }
    (2 ^ 64 - 1) [0, 0, 0, 0] { input := [0x42] } (by decide +kernel)
  revert hlimit
  decide +kernel

end Luwu.WebSocket
