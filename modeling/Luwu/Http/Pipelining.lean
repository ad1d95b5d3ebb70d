import Luwu.Http.Pieces

/-!
# Requests that follow one another on a connection

Each call of `recvRequest` has a parser and a buffer of its own.  A read may bring the end of one
request together with the beginning of the next; the parser then goes on with the next request in
the same call, and both the callbacks it makes for it and the bytes themselves end with this call.
So two requests are received one by one when the first read stops at the end of the first of them.
-/

namespace Luwu.Http

open Lib HttpParser InterM Inter

variable {μ : Type} {c : Callbacks μ} {check : Bool} {type : ParserType}

/-! ## What the reads of a call return -/

/-- The bytes that the reads of a stream return, one read after the other. -/
def portions (bufferSize : Nat) (s : Stream) : List Bytes :=
  if hr : (s.read bufferSize).1 = [] then []
  else
    have := read_input_lt hr
    (s.read bufferSize).1 :: portions bufferSize (s.read bufferSize).2
termination_by s.input.length

theorem portions_of_end {bufferSize : Nat} {s : Stream} (hr : (s.read bufferSize).1 = []) :
    portions bufferSize s = [] := by
  rw [portions, dif_pos hr]

theorem portions_of_read {bufferSize : Nat} {s : Stream} (hr : (s.read bufferSize).1 ≠ []) :
    portions bufferSize s = (s.read bufferSize).1 :: portions bufferSize (s.read bufferSize).2 := by
  rw [portions, dif_neg hr]

theorem read_append (s : Stream) (n : Nat) : (s.read n).1 ++ (s.read n).2.input = s.input :=
  List.take_append_drop _ _

theorem pos_of_read {s : Stream} {n : Nat} (h : (s.read n).1 ≠ []) : 0 < n := by
  have hpos := List.length_pos_iff.mpr h
  have htake : (s.read n).1.length ≤ Stream.portion s.sizes n := List.length_take_le _ _
  have := Stream.portion_le s.sizes n
  omega

/-- With a buffer, the reads return the bytes of the stream. -/
theorem portions_flatten {bufferSize : Nat} (hb : 0 < bufferSize) (s : Stream) :
    (portions bufferSize s).flatten = s.input := by
  fun_induction portions bufferSize s with
  | case1 s hr =>
    have hin : s.input.take (Stream.portion s.sizes bufferSize) = [] := hr
    rcases List.take_eq_nil_iff.mp hin with hz | hnil
    · have := Stream.portion_pos s.sizes hb
      omega
    · rw [hnil]
      rfl
  | case2 s hr _ ih => rw [List.flatten_cons, ih, read_append]

theorem ne_nil_of_mem_portions {bufferSize : Nat} {s : Stream} {x : Bytes}
    (hx : x ∈ portions bufferSize s) : x ≠ [] := by
  fun_induction portions bufferSize s with
  | case1 s hr => cases hx
  | case2 s hr _ ih =>
    rcases List.mem_cons.mp hx with rfl | hx
    · exact hr
    · exact ih hx

/-! ## The calls for the pieces of a message -/

/-- Only the callback at the end of a message sets the finished flag. -/
theorem handled_finished {es : List HttpParser.Event} (hes : ∀ p, (.messageComplete, p) ∉ es)
    (o : Owner μ) :
    (handled c.handle es o).finished = o.finished := by
  induction es generalizing o with
  | nil => rfl
  | cons e es ih =>
    have hrest : ∀ p, (.messageComplete, p) ∉ es := fun p hp => hes p (List.mem_cons_of_mem e hp)
    rw [handled_cons, ih hrest]
    obtain ⟨cb, p⟩ := e
    cases cb with
    | messageComplete => exact absurd List.mem_cons_self (hes p)
    | data span buf =>
      cases span with
      | url =>
        cases hurl : c.url buf o.data <;> simp [Callbacks.handle, hurl]
      | _ => rfl
    | _ => rfl

theorem handle_keeps_finished (e : HttpParser.Event) (o : Owner μ) (ho : o.finished = true) :
    (c.handle e o).2.finished = true := by
  obtain ⟨cb, p⟩ := e
  cases cb with
  | messageComplete => rfl
  | data span buf =>
    cases span with
    | url => cases hurl : c.url buf o.data <;> simpa [Callbacks.handle, hurl] using ho
    | _ => exact ho
  | _ => exact ho

/-- What is left to do at the end of a call is not the end of a message. -/
theorem finish_finished (s : Scan) (o : Owner μ) :
    ((finish s).run c.handle o).2.finished = o.finished := by
  rcases finish_cases s with ⟨p, -, heq⟩ | ⟨n, heq⟩
  · rw [heq]
    rfl
  · rw [heq]
    unfold leftover
    cases hm : s.mark with
    | none => rfl
    | some m =>
      obtain ⟨span, bs⟩ := m
      cases span with
      | url =>
        cases hurl : c.url bs o.data <;>
          simp [callbackData, callback, hurl, Callbacks.handle, Inter.run, Inter.mapExit, setParser]
      | _ =>
        simp [callbackData, callback, Callbacks.handle, Inter.run, Inter.mapExit]

/-- A message that is complete at the end of a call is complete in a call with more bytes. -/
theorem execute_append_finished {p : Parser} {d : Bytes} {o : Owner μ} (he : p.errno = .ok)
    (hd : d ≠ []) (h : (HttpParser.execute c.handle p d o).2.2.finished = true) (x : Bytes) :
    (HttpParser.execute c.handle p (d ++ x) o).2.2.finished = true := by
  rw [execute_eq he hd, executeBody_eq] at h
  rw [execute_eq he (List.append_ne_nil_of_left_ne_nil hd x), executeBody_append]
  dsimp only at h ⊢
  generalize hrun : (scan d (Scan.enter p)).run c.handle o = out at h
  obtain ⟨⟨stop, s⟩ | ⟨⟨⟩, s⟩, o₁⟩ := out
  · -- the loop stops at the same byte
    rw [run_bind_of_error hrun] at h
    rw [run_bind_of_error (by rw [run_mapExit, hrun]; rfl)]
    exact h
  · rw [run_bind_of_ok hrun, finish_finished] at h
    rw [run_bind_of_ok (by rw [run_mapExit, hrun]; rfl)]
    exact run_invariant handle_keeps_finished _ h

theorem sim_finished {s s' : Scan} {o o' : Owner μ} (hsim : Sim c.handle s o s' o') :
    o'.finished = o.finished := by
  cases hsim with
  | same => rfl
  | body _ _ _ _ hdata =>
    have := congrArg Owner.finished (hdata s.parser s.parser [])
    exact this.symm
  | status _ _ _ hdata =>
    have := congrArg Owner.finished (hdata s.parser [] [] rfl)
    exact this.symm

section

variable (hg : Gathers c.handle) {xs : List Bytes} {d : Bytes}
  (hmsg : IsMessage type (xs ++ [d]).flatten) (hne : ∀ x ∈ xs ++ [d], x ≠ [])
  (hcut : CutBetween type (xs ++ [d])) (o : Owner μ)

include hg hmsg hne hcut in
/-- Each call parses its piece, or ends with an error. -/
theorem call_length {zs ys : List Bytes} {x : Bytes} (hsplit : zs ++ x :: ys = xs ++ [d]) :
    (HttpParser.feed c.handle (zs ++ [x]) (.init type) o).1.errno ≠ .ok ∨
      (HttpParser.execute c.handle (HttpParser.feed c.handle zs (.init type) o).1 x
        (HttpParser.feed c.handle zs (.init type) o).2).1 = x.length := by
  have hmem : ∀ y ∈ zs ++ [x], y ≠ [] := by
    intro y hy
    apply hne
    rw [← hsplit, List.append_cons]
    exact List.mem_append_left _ hy
  have hzs : ∀ y ∈ zs, y ≠ [] := fun y hy => hmem y (List.mem_append_left _ hy)
  have hx : x ≠ [] := hmem x (by simp)
  rcases List.eq_nil_or_concat' ys with rfl | ⟨ys', y, rfl⟩
  · -- the last piece
    obtain ⟨rfl, hlast⟩ := List.append_inj' hsplit rfl
    cases hlast
    have hflat : (zs ++ [d]).flatten = zs.flatten ++ d := by simp
    exact execute_length_last hg hzs hx (Scan.enter_ok _) rfl rfl (.same _ o)
      (r := (course type (zs ++ [d]).flatten).2) (by rw [← hflat]; rfl) hmsg.parsed
      (hcut.clean (List.append_nil zs))
  · rw [← List.cons_append, ← List.append_assoc] at hsplit
    obtain ⟨hxs, hlast⟩ := List.append_inj' hsplit rfl
    have hxs' : (zs ++ [x]) ++ ys' = xs := by
      rw [← hxs]
      simp
    obtain ⟨es₁, s₁, es₂, hscan, -⟩ := course_split hmsg hne hxs'
    have hflat : (zs ++ [x]).flatten = zs.flatten ++ x := by simp
    have hend := hcut.reopens (by simp) hxs' hscan
    rw [hflat] at hscan
    exact execute_length_cut hg hzs hx (Scan.enter_ok _) rfl rfl (.same _ o) hscan
      (hcut.clean hxs) hend

include hg hne hcut in
/-- As long as the end of the message has not come, the finished flag is not set. -/
theorem feed_not_finished {zs ys : List Bytes} (hsplit : zs ++ ys = xs)
    {es : List HttpParser.Event} {s : Scan}
    (hscan : (scan zs.flatten (Scan.enter (.init type))).follow 0 = (es, .ok ((), s)))
    (hes : ∀ p, (.messageComplete, p) ∉ es)
    (herr : (HttpParser.feed c.handle zs (.init type) o).1.errno = .ok) :
    (HttpParser.feed c.handle zs (.init type) o).2.finished = o.finished := by
  obtain ⟨o₁, o₁', hrun, hfeed, hsim⟩ :=
    (feed_together hg hne hcut o hsplit hscan).resolve_left (not_not.mpr herr)
  have ho₁ : o₁ = handled c.handle es o := by
    rcases scan_answers hg (Scan.enter_ok _) hscan trivial o with ha | ⟨n, s₂, t₂, hfail⟩
    · have hcourse := run_of_answers (m := scan zs.flatten (Scan.enter (.init type))) (a := 0)
        (by rw [hscan]; exact ha)
      rw [hrun, hscan] at hcourse
      exact (Prod.mk.inj hcourse).2
    · rw [hfail] at hrun
      cases hrun
  rw [hfeed]
  show o₁'.finished = _
  rw [sim_finished hsim, ho₁, handled_finished hes]

include hg hmsg hne hcut in
/-- Behind some of the pieces of a message that is accepted, the parser is not bad. -/
theorem not_bad_of_accepted
    (haccepted : ((MessageParser.fresh type o).feed c check (xs ++ [d])).error = .ok)
    {zs ys : List Bytes} (hsplit : zs ++ ys = xs ++ [d]) :
    ¬ Bad check (HttpParser.feed c.handle zs (.init type) o).1 := by
  intro hbad
  have hall : Bad check (HttpParser.feed c.handle (xs ++ [d]) (.init type) o).1 := by
    rcases List.eq_nil_or_concat' ys with rfl | ⟨ys', y, rfl⟩
    · rw [← hsplit, List.append_nil]
      exact hbad
    · rw [← List.append_assoc] at hsplit
      obtain ⟨hxs, -⟩ := List.append_inj' hsplit rfl
      exact bad_persists hg hmsg hne hcut o hxs hbad
  rw [MessageParser.feed_snoc_error, (MessageParser.feed_eq _ _).1] at haccepted
  exact errorAfter_ne_ok hall _ haccepted

include hg hmsg hne hcut in
theorem feed_accepted
    (haccepted : ((MessageParser.fresh type o).feed c check (xs ++ [d])).error = .ok)
    {zs ys : List Bytes} (hsplit : zs ++ ys = xs ++ [d]) :
    ((MessageParser.fresh type o).feed c check zs).error = .ok := by
  by_contra hset
  obtain ⟨zs', ys', -, rfl, hbad⟩ := MessageParser.feed_error hset
  rw [(MessageParser.feed_eq _ _).1] at hbad
  rw [List.append_assoc] at hsplit
  exact not_bad_of_accepted hg hmsg hne hcut o haccepted hsplit hbad

variable {bufferSize : Nat}

include hg hmsg hne hcut in
theorem receive_piece
    (haccepted : ((MessageParser.fresh type o).feed c check (xs ++ [d])).error = .ok)
    {zs ys : List Bytes} {x : Bytes} (hsplit : zs ++ x :: ys = xs ++ [d]) {s : Stream}
    (hread : (s.read bufferSize).1 = x) :
    receive (MessageParser.execute c check) bufferSize
        ((MessageParser.fresh type o).feed c check zs) [] s =
      if ((MessageParser.fresh type o).feed c check (zs ++ [x])).owner.finished then
        (some ((MessageParser.fresh type o).feed c check (zs ++ [x])), (s.read bufferSize).2)
      else receive (MessageParser.execute c check) bufferSize
        ((MessageParser.fresh type o).feed c check (zs ++ [x])) [] (s.read bufferSize).2 := by
  have hx : x ≠ [] := by
    apply hne
    rw [← hsplit]
    simp
  have hsplit' : (zs ++ [x]) ++ ys = xs ++ [d] := by
    rw [← hsplit]
    simp
  -- nothing is kept in the buffer
  have hlength :
      (((MessageParser.fresh type o).feed c check zs).execute c check x).1 = x.length := by
    have herr : (HttpParser.feed c.handle (zs ++ [x]) (.init type) o).1.errno = .ok := by
      by_contra he
      exact not_bad_of_accepted hg hmsg hne hcut o haccepted hsplit' (.inr he)
    show (HttpParser.execute c.handle ((MessageParser.fresh type o).feed c check zs).parser x
      ((MessageParser.fresh type o).feed c check zs).owner).1 = _
    rw [(MessageParser.feed_eq _ _).1, (MessageParser.feed_eq _ _).2]
    exact (call_length hg hmsg hne hcut o hsplit).resolve_left (not_not.mpr herr)
  have hbuffer : 0 < bufferSize := pos_of_read (by rw [hread]; exact hx)
  rw [receive_first hread hx, hlength, List.drop_length, ← MessageParser.feed_snoc,
    feed_accepted hg hmsg hne hcut o haccepted hsplit', if_neg (not_not.mpr rfl),
    List.length_nil, if_neg (Nat.ne_of_lt hbuffer)]

include hg hmsg hne hcut in
/-- **A message whose bytes the reads return is received**, in however many portions it comes. -/
theorem receive_pieces
    (haccepted : ((MessageParser.fresh type o).feed c check (xs ++ [d])).error = .ok)
    (hfinished : ((MessageParser.fresh type o).feed c check (xs ++ [d])).owner.finished = true)
    (hlater : ∀ zs ys, zs ++ ys = xs →
      ((MessageParser.fresh type o).feed c check zs).owner.finished = false)
    {zs ys : List Bytes} (hsplit : zs ++ ys = xs ++ [d]) (hys : ys ≠ []) {s : Stream}
    (hportions : portions bufferSize s = ys) :
    (receive (MessageParser.execute c check) bufferSize
      ((MessageParser.fresh type o).feed c check zs) [] s).1 =
        some ((MessageParser.fresh type o).feed c check (xs ++ [d])) := by
  induction ys generalizing zs s with
  | nil => exact absurd rfl hys
  | cons x ys ih =>
    have hne' : (s.read bufferSize).1 ≠ [] := by
      intro hnil
      rw [portions_of_end hnil] at hportions
      cases hportions
    rw [portions_of_read hne'] at hportions
    obtain ⟨hread, hrest⟩ := List.cons.inj hportions
    rw [receive_piece hg hmsg hne hcut o haccepted hsplit hread]
    have hsplit' : (zs ++ [x]) ++ ys = xs ++ [d] := by
      rw [← hsplit]
      simp
    -- this was the last portion, or the loop reads on
    rcases List.eq_nil_or_concat' ys with rfl | ⟨ys', y, rfl⟩
    · rw [List.append_nil] at hsplit'
      rw [hsplit', if_pos hfinished]
    · have hxs : (zs ++ [x]) ++ ys' = xs := by
        rw [← List.append_assoc] at hsplit'
        exact (List.append_inj' hsplit' rfl).1
      rw [hlater _ _ hxs, if_neg Bool.false_ne_true]
      exact ih hsplit' (by simp) hrest

end

/-! ## Requests -/

/-- The request that the parser makes of the bytes `d` when they come alone. -/
def requestOf (d : Bytes) : HttpRequest := (HttpRequestParser.new.execute d).2.owner.data.init

/-- The bytes are a keep-alive request that the parser accepts: its last byte completes it, and the
parser is ready for another one. -/
structure IsRequest (d : Bytes) : Prop where
  message : IsMessage .request d
  accepted : (HttpRequestParser.new.execute d).2.error = .ok
  finished : (HttpRequestParser.new.execute d).2.owner.finished = true
  last : ((scan d.dropLast (Scan.enter (.init .request))).follow 0).1.all
    (fun e => e.1 ≠ .messageComplete) = true
  keepAlive : (course .request d).2.scan.parser.state = .startReq

instance (d : Bytes) : Decidable (IsRequest d) :=
  decidable_of_iff (IsMessage .request d ∧ (HttpRequestParser.new.execute d).2.error = .ok ∧
      (HttpRequestParser.new.execute d).2.owner.finished = true ∧
      ((scan d.dropLast (Scan.enter (.init .request))).follow 0).1.all
        (fun e => e.1 ≠ .messageComplete) = true ∧
      (course .request d).2.scan.parser.state = .startReq)
    ⟨fun h => ⟨h.1, h.2.1, h.2.2.1, h.2.2.2.1, h.2.2.2.2⟩,
      fun h => ⟨h.message, h.accepted, h.finished, h.last, h.keepAlive⟩⟩

theorem IsRequest.ne_nil {d : Bytes} (hreq : IsRequest d) : d ≠ [] := by
  rintro rfl
  exact absurd hreq.message (by decide)

/-- Before its last byte a request is not complete. -/
theorem IsRequest.not_complete {d x y : Bytes} (hreq : IsRequest d) (hsplit : x ++ y = d)
    (hy : y ≠ []) {es : List HttpParser.Event} {s : Scan}
    (hscan : (scan x (Scan.enter (.init .request))).follow 0 = (es, .ok ((), s))) (p : Parser) :
    (.messageComplete, p) ∉ es := by
  intro hmem
  have hlast := hreq.last
  rw [← hsplit, List.dropLast_append_of_ne_nil hy, scan_append,
    follow_bind_of_ok (x := ()) (s := s) (by rw [follow_mapExit, hscan]; rfl)] at hlast
  have := List.all_eq_true.mp hlast (.messageComplete, p) (List.mem_append_left _ hmem)
  simp at this

/-- **A request is received** when the reads return its bytes and no read but the last ends in the
URL, in a header name or in a header value. -/
theorem recvRequest_of_portions {bufferSize : Nat} {s : Stream} {d : Bytes} (hreq : IsRequest d)
    (hin : (portions bufferSize s).flatten = d)
    (hcut : CutBetween .request (portions bufferSize s)) :
    (recvRequest bufferSize s).1 = some (requestOf d) := by
  generalize hp : portions bufferSize s = pieces at hin hcut
  subst hin
  obtain ⟨xs, x, rfl⟩ := exists_snoc hreq.message
  have hne : ∀ y ∈ xs ++ [x], y ≠ [] := by
    intro y hy
    rw [← hp] at hy
    exact ne_nil_of_mem_portions hy
  -- the portions have the effect of one call with all the bytes
  have hwhole : (MessageParser.fresh .request { data := {} }).feed requestCallbacks true
      (xs ++ [x]) = (HttpRequestParser.new.execute (xs ++ [x]).flatten).2 :=
    feed_eq_one_call requestCallbacks_gathers hreq.message hne hcut _
  have haccepted : ((MessageParser.fresh .request { data := {} }).feed requestCallbacks true
      (xs ++ [x])).error = .ok := by
    rw [hwhole]
    exact hreq.accepted
  have hfinished : ((MessageParser.fresh .request { data := {} }).feed requestCallbacks true
      (xs ++ [x])).owner.finished = true := by
    rw [hwhole]
    exact hreq.finished
  -- before the last portion the message is not complete
  have hlater : ∀ zs ys, zs ++ ys = xs → ((MessageParser.fresh .request { data := {} }).feed
      requestCallbacks true zs).owner.finished = false := by
    intro zs ys hsplit
    obtain ⟨es₁, s₁, es₂, hscan, -⟩ := course_split hreq.message hne hsplit
    have hbytes : zs.flatten ++ (ys.flatten ++ x) = (xs ++ [x]).flatten := by
      rw [← hsplit]
      simp
    have hes := hreq.not_complete hbytes (by simp [hne x (by simp)]) hscan
    -- an error in between would be the error of the whole
    have herr : (HttpParser.feed requestCallbacks.handle zs (.init .request)
        { data := {} }).1.errno = .ok := by
      by_contra he
      have hall : zs ++ (ys ++ [x]) = xs ++ [x] := by rw [← List.append_assoc, hsplit]
      exact not_bad_of_accepted requestCallbacks_gathers hreq.message hne hcut _ haccepted hall
        (.inr he)
    rw [(MessageParser.feed_eq _ _).2]
    exact feed_not_finished requestCallbacks_gathers hne hcut _ hsplit hscan hes herr
  have hreceive := receive_pieces requestCallbacks_gathers hreq.message hne hcut _ haccepted
    hfinished hlater (List.nil_append _) (by simp) hp
  show (receive HttpRequestParser.execute bufferSize HttpRequestParser.new [] s).1.map _ = _
  rw [show receive HttpRequestParser.execute bufferSize HttpRequestParser.new [] s =
    receive (MessageParser.execute requestCallbacks true) bufferSize
      ((MessageParser.fresh .request { data := {} }).feed requestCallbacks true []) [] s from rfl,
    hreceive, hwhole]
  rfl

theorem recvRequest_of_read {bufferSize : Nat} {s : Stream} {d : Bytes} (hreq : IsRequest d)
    (hread : (s.read bufferSize).1 = d) :
    recvRequest bufferSize s = (some (requestOf d), (s.read bufferSize).2) := by
  have hflat : ([] ++ [d]).flatten = d := by simp
  have hmsg : IsMessage .request ([] ++ [d]).flatten := by
    rw [hflat]
    exact hreq.message
  have hne : ∀ x ∈ [] ++ [d], x ≠ [] := by
    intro x hx
    rw [List.mem_singleton.mp hx]
    exact hreq.ne_nil
  have hcut : CutBetween .request ([] ++ [d]) := by
    intro k hk hpos
    have : k < 1 := hk
    omega
  have haccepted : ((MessageParser.fresh .request { data := {} }).feed requestCallbacks true
      ([] ++ [d])).error = .ok := hreq.accepted
  have hpiece := receive_piece requestCallbacks_gathers hmsg hne hcut _ haccepted
    (List.nil_append _) hread
  have hreceive : receive HttpRequestParser.execute bufferSize HttpRequestParser.new [] s =
      (some (HttpRequestParser.new.execute d).2, (s.read bufferSize).2) :=
    hpiece.trans (if_pos hreq.finished)
  unfold recvRequest
  rw [hreceive]
  rfl

/-! ## Two requests -/

/-- The session receives the two requests: the first call returns the first of them and leaves the
bytes of the second in the stream, and the second call returns the second. -/
structure ReceivesBoth (bufferSize : Nat) (s : Stream) (r₁ r₂ : Bytes) : Prop where
  first : (recvRequest bufferSize s).1 = some (requestOf r₁)
  kept : (recvRequest bufferSize s).2.input = r₂
  second : (recvRequest bufferSize (recvRequest bufferSize s).2).1 = some (requestOf r₂)

/-- A call whose first read brings a whole request reads no further. -/
theorem recvRequest_input {bufferSize : Nat} {s : Stream} {d x : Bytes} (hreq : IsRequest d)
    (hread : (s.read bufferSize).1 = d ++ x) :
    (recvRequest bufferSize s).2.input = (s.read bufferSize).2.input := by
  have hfinished : (HttpRequestParser.new.execute (d ++ x)).2.owner.finished = true :=
    execute_append_finished rfl hreq.ne_nil hreq.finished x
  show (receive HttpRequestParser.execute bufferSize HttpRequestParser.new [] s).2.input = _
  rw [receive_first hread (List.append_ne_nil_of_left_ne_nil hreq.ne_nil x), if_pos hfinished]
  split
  · rfl
  · split <;> rfl

theorem recvRequest_of_end {bufferSize : Nat} {s : Stream} (hin : s.input = []) :
    (recvRequest bufferSize s).1 = none := by
  have hread : (s.read bufferSize).1 = [] := by
    show s.input.take _ = []
    rw [hin, List.take_nil]
  unfold recvRequest
  rw [receive_end hread]
  rfl

/-- **Two requests on a connection are received** when the first read stops at the end of the first
request and no read of the second but the last ends in the URL, in a header name or in a header
value. Once the first read goes beyond the first request, what it has read of the second is lost:
the second call goes on with the rest, and returns nothing when there is none. -/
theorem receivesBoth_of_stop {bufferSize : Nat} {s : Stream} {r₁ r₂ : Bytes} {k : Nat}
    (h₁ : IsRequest r₁) (h₂ : IsRequest r₂) (hk : k ≤ r₂.length) (hin : s.input = r₁ ++ r₂)
    (hread : (s.read bufferSize).1 = r₁ ++ r₂.take k) :
    (ReceivesBoth bufferSize s r₁ r₂ → k = 0) ∧
      (k = 0 → CutBetween .request (portions bufferSize (s.read bufferSize).2) →
        ReceivesBoth bufferSize s r₁ r₂) ∧
      (recvRequest bufferSize s).2.input = r₂.drop k ∧
      (k = r₂.length → (recvRequest bufferSize (recvRequest bufferSize s).2).1 = none) := by
  have hrest : (s.read bufferSize).2.input = r₂.drop k := by
    have happend := read_append s bufferSize
    rw [hread, hin, List.append_assoc] at happend
    have hsplit := List.append_cancel_left happend
    nth_rewrite 2 [← List.take_append_drop k r₂] at hsplit
    exact List.append_cancel_left hsplit
  -- what the first call has read beyond its request is not put back
  have hlost : (recvRequest bufferSize s).2.input = r₂.drop k :=
    (recvRequest_input h₁ hread).trans hrest
  refine ⟨?_, ?_, hlost, ?_⟩
  · intro hboth
    have hlength := congrArg List.length (hlost.symm.trans hboth.kept)
    rw [List.length_drop] at hlength
    omega
  · rintro rfl hcut
    rw [List.take_zero, List.append_nil] at hread
    rw [List.drop_zero] at hrest
    -- the first read stops at the end of the first request
    have hfirst := recvRequest_of_read h₁ hread
    have hbuffer : 0 < bufferSize := pos_of_read (by rw [hread]; exact h₁.ne_nil)
    refine ⟨by rw [hfirst], by rw [hfirst]; exact hrest, ?_⟩
    rw [hfirst]
    exact recvRequest_of_portions h₂ (by rw [portions_flatten hbuffer, hrest]) hcut
  · rintro rfl
    exact recvRequest_of_end (hlost.trans List.drop_length)

/-- Two requests, the second in two reads. -/
theorem receivesBoth_two_reads :
    ReceivesBoth 4096
      { input := ascii "GET /a HTTP/1.1\r\n\r\nPUT /b HTTP/1.1\r\nContent-Length: 2\r\n\r\ncd"
        sizes := [18, 36] }
      (ascii "GET /a HTTP/1.1\r\n\r\n")
      (ascii "PUT /b HTTP/1.1\r\nContent-Length: 2\r\n\r\ncd") := by
  refine (receivesBoth_of_stop (k := 0) ?_ ?_ ?_ ?_ ?_).2.1 rfl ?_
  all_goals decide +kernel

/-- The first read goes on to the URL of the second request: the first call returns a request for
`/b`, and the second call none. -/
theorem not_receivesBoth_beyond :
    IsRequest (ascii "GET /a HTTP/1.1\r\n\r\n") ∧ IsRequest (ascii "GET /b HTTP/1.1\r\n\r\n") ∧
      ∃ s : Stream, s.input = ascii "GET /a HTTP/1.1\r\n\r\n" ++ ascii "GET /b HTTP/1.1\r\n\r\n" ∧
        (s.read 4096).1 =
          ascii "GET /a HTTP/1.1\r\n\r\n" ++ (ascii "GET /b HTTP/1.1\r\n\r\n").take 7 ∧
        (recvRequest 4096 s).1.map HttpRequest.path = some (ascii "/b") ∧
        (recvRequest 4096 (recvRequest 4096 s).2).1 = none ∧
        ¬ ReceivesBoth 4096 s (ascii "GET /a HTTP/1.1\r\n\r\n")
          (ascii "GET /b HTTP/1.1\r\n\r\n") := by
  refine ⟨by decide +kernel, by decide +kernel,
    { input := ascii "GET /a HTTP/1.1\r\n\r\nGET /b HTTP/1.1\r\n\r\n", sizes := [25] },
    by decide +kernel, by decide +kernel, by decide +kernel, by decide +kernel, ?_⟩
  intro hboth
  exact absurd hboth.kept (by decide +kernel)

end Luwu.Http
