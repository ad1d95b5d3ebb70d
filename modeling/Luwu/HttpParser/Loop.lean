import Luwu.HttpParser.Errors

/-!
# The bundled http_parser: the bytes of a call

How the loop of a call is put together from its turns, and a call from the loop and what follows it.
What every turn preserves, a call preserves (`scan_invariant`).  The bytes of two pieces make the
turns of the first piece and then those of the second (`scan_append`).
-/

namespace Luwu.HttpParser

open Lib InterM Inter

variable {τ : Type} {h : Event → τ → Int × τ} {s s₁ : Scan} {t t₁ : τ} {ch : UInt8}
  {es : List Event}

/-- How the loop of a call ends, or the call itself. -/
abbrev Ending := Except (Stop × Scan) (Unit × Scan)

/-- The locals and the parser when a call returns. -/
def Ending.scan : Ending → Scan
  | .ok (_, s) => s
  | .error (_, s) => s

/-- The bytes a call has not parsed. -/
def Ending.left : Ending → Nat
  | .ok _ => 0
  | .error (stop, _) => stop.left

/-- The call has parsed all of its bytes, without an error. -/
def Ending.Parsed : Ending → Prop
  | .ok _ => True
  | .error (.returned n, _) => n = 0
  | .error (.failed _, _) => False

/-- The call has run into no error. -/
def Ending.Sound : Ending → Prop
  | .error (.failed _, _) => False
  | _ => True

theorem Ending.Parsed.sound {r : Ending} (hr : r.Parsed) : r.Sound := by
  rcases r with ⟨⟨n⟩ | ⟨n⟩, s⟩ | ⟨⟨⟩, s⟩ <;> first | exact hr.elim | exact trivial

/-! ## The loop -/

/-- The loop after the byte that `rest` follows. -/
def goOn (rest : Bytes) (s : Scan) : Inter Event Int Stop Scan Unit :=
  if s.returned then .exit (.returned rest.length) s else scan rest s

theorem scan_cons (ch : UInt8) (rest : Bytes) (s : Scan) :
    scan (ch :: rest) s =
      ((turn ch s).mapExit (Exit.stop rest)).bind fun _ s₁ => goOn rest (s₁.advance ch) := by
  show ((turn ch s).mapExit (Exit.stop rest)).bind (fun _ s₁ =>
    (if (s₁.advance ch).returned = true then InterM.exit (.returned rest.length) else scan rest)
      (s₁.advance ch)) = _
  congr 1
  ext _ s₁
  unfold goOn
  split <;> rfl

theorem goOn_of_returned (hr : s.returned = true) (rest : Bytes) :
    goOn rest s = .exit (.returned rest.length) s := by
  unfold goOn
  rw [if_pos hr]

theorem goOn_of_not_returned (hr : s.returned = false) (rest : Bytes) :
    goOn rest s = scan rest s := by
  unfold goOn
  rw [hr]
  rfl

theorem follow_scan_cons (hturn : (turn ch s).follow 0 = (es, .ok ((), s₁))) (rest : Bytes) :
    (scan (ch :: rest) s).follow 0 =
      (es ++ ((goOn rest (s₁.advance ch)).follow 0).1,
        ((goOn rest (s₁.advance ch)).follow 0).2) := by
  rw [scan_cons]
  apply follow_bind_of_ok (x := ())
  rw [follow_mapExit, hturn]
  rfl

theorem follow_scan_cons_error {e : Exit} (hturn : (turn ch s).follow 0 = (es, .error (e, s₁)))
    (rest : Bytes) : (scan (ch :: rest) s).follow 0 = (es, .error (e.stop rest, s₁)) := by
  rw [scan_cons]
  apply follow_bind_of_error
  rw [follow_mapExit, hturn]
  rfl

theorem run_scan_cons (hturn : (turn ch s).run h t = (.ok ((), s₁), t₁)) (rest : Bytes) :
    (scan (ch :: rest) s).run h t = (goOn rest (s₁.advance ch)).run h t₁ := by
  rw [scan_cons]
  apply run_bind_of_ok (x := ())
  rw [run_mapExit, hturn]
  rfl

theorem run_scan_cons_error {e : Exit} (hturn : (turn ch s).run h t = (.error (e, s₁), t₁))
    (rest : Bytes) : (scan (ch :: rest) s).run h t = (.error (e.stop rest, s₁), t₁) := by
  rw [scan_cons]
  apply run_bind_of_error
  rw [run_mapExit, hturn]
  rfl

/-- An error in a turn is an error of the call. -/
theorem not_sound_stop (e : Exit) (rest : Bytes) (s : Scan) :
    ¬ Ending.Sound (.error (e.stop rest, s)) := by
  cases e <;> exact id

/-- A loop that runs into no error gets through its first turn. -/
theorem scan_cons_sound {rest : Bytes} {r : Ending}
    (hscan : (scan (ch :: rest) s).follow 0 = (es, r)) (hr : r.Sound) :
    ∃ es₁ s₁ es₂, (turn ch s).follow 0 = (es₁, .ok ((), s₁)) ∧
      (goOn rest (s₁.advance ch)).follow 0 = (es₂, r) ∧ es = es₁ ++ es₂ := by
  obtain ⟨es₁, r₁, hturn⟩ : ∃ es₁ r₁, (turn ch s).follow 0 = (es₁, r₁) := ⟨_, _, rfl⟩
  rcases r₁ with ⟨e, s₁⟩ | ⟨⟨⟩, s₁⟩
  · rw [follow_scan_cons_error hturn] at hscan
    cases hscan
    exact absurd hr (not_sound_stop e rest s₁)
  · rw [follow_scan_cons hturn] at hscan
    obtain ⟨hes, hend⟩ := Prod.mk.inj hscan
    exact ⟨es₁, s₁, _, hturn, Prod.ext rfl hend, hes.symm⟩

/-- What every turn preserves of the callbacks made and the state reached, the loop preserves. -/
theorem scan_invariant {P : List Event → Scan → Prop}
    (hstep : ∀ es s ch es₁ s₁, P es s → (turn ch s).follow 0 = (es₁, .ok ((), s₁)) →
      P (es ++ es₁) (s₁.advance ch))
    {d : Bytes} {l : List Event} {r : Ending} (hs : P l s)
    (hscan : (scan d s).follow 0 = (es, r)) (hr : r.Sound) : P (l ++ es) r.scan := by
  induction d generalizing s l es with
  | nil =>
    cases hscan
    rw [List.append_nil]
    exact hs
  | cons ch rest ih =>
    obtain ⟨es₁, s₁, es₂, hturn, hend, rfl⟩ := scan_cons_sound hscan hr
    have hs₁ := hstep l s ch es₁ s₁ hs hturn
    rw [← List.append_assoc]
    -- a call that returned early makes no more turns
    cases hret : (s₁.advance ch).returned with
    | true =>
      rw [goOn_of_returned hret] at hend
      cases hend
      rw [List.append_nil]
      exact hs₁
    | false =>
      rw [goOn_of_not_returned hret] at hend
      exact ih hs₁ hend

/-- Between the bytes of a call the mark is the one of the state. -/
theorem scan_ok {d : Bytes} {r : Ending} (hok : s.Ok) (hscan : (scan d s).follow 0 = (es, r))
    (hr : r.Sound) : r.scan.Ok := by
  refine scan_invariant (P := fun _ s => s.Ok) (l := []) ?_ hok hscan hr
  intro _ s ch es₁ s₁ hs hturn
  exact (InterM.post_iff.mp (turn_effect hs) es₁ () s₁ hturn).ok.advance ch

theorem scan_sound {d : Bytes} {r : Ending} (he : s.parser.errno = .ok)
    (hscan : (scan d s).follow 0 = (es, r)) (hr : r.Sound) : r.scan.parser.errno = .ok := by
  refine scan_invariant (P := fun _ s => s.parser.errno = .ok) (l := []) ?_ he hscan hr
  intro _ s ch es₁ s₁ hs hturn
  exact (InterM.post_iff.mp (turn_sound hs rfl) es₁ () s₁ hturn).1

/-- The loop leaves the upgrade flag as it is, unless the headers end in it. -/
theorem scan_upgrade {d : Bytes} {r : Ending} (he : s.parser.errno = .ok)
    (hscan : (scan d s).follow 0 = (es, r)) (hr : r.Sound)
    (hes : ∀ p, (.headersComplete, p) ∉ es) : r.scan.parser.upgrade = s.parser.upgrade := by
  have hinv : r.scan.parser.errno = .ok ∧
      (r.scan.parser.upgrade = s.parser.upgrade ∨ ∃ p, (.headersComplete, p) ∈ [] ++ es) := by
    refine scan_invariant (P := fun es s' => s'.parser.errno = .ok ∧
      (s'.parser.upgrade = s.parser.upgrade ∨ ∃ p, (.headersComplete, p) ∈ es)) ?_
      ⟨he, .inl rfl⟩ hscan hr
    rintro es s' ch es₁ s₁ ⟨he', hs'⟩ hturn
    obtain ⟨he₁, hs₁⟩ := InterM.post_iff.mp (turn_sound he' rfl) es₁ () s₁ hturn
    refine ⟨he₁, ?_⟩
    rcases hs₁ with hsame | ⟨p, hp⟩
    · rcases hs' with hs' | ⟨p, hp⟩
      · exact .inl (hsame.trans hs')
      · exact .inr ⟨p, List.mem_append_left _ hp⟩
    · exact .inr ⟨p, List.mem_append_right _ hp⟩
  rcases hinv.2 with hsame | ⟨p, hp⟩
  · exact hsame
  · exact absurd hp (hes p)

/-- A loop that has come to the end of the bytes has not been told to return. -/
theorem scan_returned {d : Bytes} (hr : s.returned = false)
    (hscan : (scan d s).follow 0 = (es, .ok ((), s₁))) : s₁.returned = false := by
  induction d generalizing s es with
  | nil =>
    cases hscan
    exact hr
  | cons ch rest ih =>
    obtain ⟨es₁, s₂, es₂, hturn, hend, rfl⟩ := scan_cons_sound hscan trivial
    cases hret : (s₂.advance ch).returned with
    | true =>
      rw [goOn_of_returned hret] at hend
      cases hend
    | false =>
      rw [goOn_of_not_returned hret] at hend
      exact ih hret hend

/-! ## Pieces -/

/-- The stop of a loop over a piece, in a call that has `k` bytes more. -/
def Stop.more (k : Nat) : Stop → Stop
  | .failed n => .failed (n + k)
  | .returned n => .returned (n + k)

theorem goOn_append (rest ys : Bytes) (s : Scan)
    (hrest : scan (rest ++ ys) s = ((scan rest s).mapExit (Stop.more ys.length)).bind fun _ s₁ =>
      scan ys s₁) :
    goOn (rest ++ ys) s = ((goOn rest s).mapExit (Stop.more ys.length)).bind fun _ s₁ =>
      scan ys s₁ := by
  cases hret : s.returned with
  | true =>
    rw [goOn_of_returned hret, goOn_of_returned hret, List.length_append]
    rfl
  | false => rw [goOn_of_not_returned hret, goOn_of_not_returned hret, hrest]

theorem scan_append (xs ys : Bytes) (s : Scan) :
    scan (xs ++ ys) s =
      ((scan xs s).mapExit (Stop.more ys.length)).bind fun _ s₁ => scan ys s₁ := by
  induction xs generalizing s with
  | nil => rfl
  | cons ch rest ih =>
    have hleft : Exit.stop (rest ++ ys) = Stop.more ys.length ∘ Exit.stop rest := by
      ext e
      cases e <;> simp [Exit.stop, Stop.more]
      omega
    rw [List.cons_append, scan_cons, scan_cons, mapExit_bind, mapExit_mapExit, bind_assoc, hleft]
    congr 1
    ext _ s₁
    exact goOn_append rest ys (s₁.advance ch) (ih (s₁.advance ch))

theorem executeBody_eq (d : Bytes) (s : Scan) :
    executeBody d s = (scan d s).bind fun _ s₁ => finish s₁ := rfl

theorem executeBody_append (xs ys : Bytes) (s : Scan) :
    executeBody (xs ++ ys) s =
      ((scan xs s).mapExit (Stop.more ys.length)).bind fun _ s₁ => executeBody ys s₁ := by
  rw [executeBody_eq, scan_append, bind_assoc]
  rfl

/-! ## The end of a call -/

/-- What is left to do after the count of an inner loop: the callback of the mark. -/
def leftover (s : Scan) : Inter Event Int Stop Scan Unit :=
  match s.mark with
  | some (span, _) => ((callbackData span .here []).mapExit fun _ => Stop.failed 0) s
  | none => .ret () s

theorem finish_of_none (hp : s.passed = none) : finish s = leftover s := by
  cases hm : s.mark <;> simp [finish, leftover, hp, hm]

theorem finish_of_some {k : Nat} (hp : s.passed = some k)
    (hfit : (s.parser.nread + k) % 2 ^ 32 ≤ maxHeaderSize) :
    finish s = leftover { s with
      parser := { s.parser with nread := (s.parser.nread + k) % 2 ^ 32 } } := by
  have hfit' : ¬ maxHeaderSize < (s.parser.nread + k) % 4294967296 := Nat.not_lt.mpr hfit
  cases hm : s.mark <;>
    simp [finish, leftover, hp, hm, countHeaderSize, setParser, hfit', Inter.mapExit]

theorem finish_overflow {k : Nat} (hp : s.passed = some k)
    (hfit : ¬ (s.parser.nread + k) % 2 ^ 32 ≤ maxHeaderSize) :
    finish s = .exit (.failed 1) { s with
      parser := { s.parser with
        nread := (s.parser.nread + k) % 2 ^ 32
        errno := .headerOverflow } } := by
  have hfit' : maxHeaderSize < (s.parser.nread + k) % 4294967296 := Nat.not_le.mp hfit
  simp [finish, hp, countHeaderSize, setParser, error, hfit', Inter.mapExit]

/-- What follows the loop: the headers are too long, or the callback of the mark is left to do.  The
count of the headers may have changed. -/
theorem finish_cases (s : Scan) :
    (∃ p : Parser, p.errno ≠ .ok ∧ finish s = .exit (.failed 1) { s with parser := p }) ∨
      ∃ n, finish s = leftover { s with parser := { s.parser with nread := n } } := by
  rcases Option.eq_none_or_eq_some s.passed with hp | ⟨k, hp⟩
  · exact .inr ⟨s.parser.nread, finish_of_none hp⟩
  · by_cases hfit : (s.parser.nread + k) % 2 ^ 32 ≤ maxHeaderSize
    · exact .inr ⟨_, finish_of_some hp hfit⟩
    · refine .inl ⟨_, ?_, finish_overflow hp hfit⟩
      exact Errno.noConfusion

theorem leftover_follow (s : Scan) :
    ∃ es s₁, (leftover s).follow 0 = (es, .ok ((), s₁)) ∧ s₁.parser = s.parser := by
  unfold leftover
  cases hm : s.mark with
  | none => exact ⟨[], s, rfl, rfl⟩
  | some m =>
    refine ⟨[(.data m.1 m.2, s.parser)], { s with mark := none }, ?_, rfl⟩
    simp [callbackData, callback, hm, Inter.mapExit]

/-- What follows the loop leaves through an exit only with an error. -/
theorem finish_parsed {r : Ending} (hend : (finish s).follow 0 = (es, r)) (hr : r.Parsed) :
    ∃ s₁ n, r = .ok ((), s₁) ∧ s₁.parser = { s.parser with nread := n } ∧
      finish s = leftover { s with parser := { s.parser with nread := n } } := by
  rcases finish_cases s with ⟨p, -, heq⟩ | ⟨n, heq⟩
  · rw [heq] at hend
    cases hend
    exact hr.elim
  · obtain ⟨es', s₁, hleft, hp⟩ := leftover_follow { s with parser := { s.parser with nread := n } }
    rw [heq, hleft] at hend
    cases hend
    exact ⟨s₁, n, rfl, hp, heq⟩

/-- A call that parses all of its bytes returns because another protocol follows, or comes to the
end of the loop. -/
theorem executeBody_parsed {d : Bytes} {r : Ending}
    (hcourse : (executeBody d s).follow 0 = (es, r)) (hr : r.Parsed) :
    (∃ s₁, (scan d s).follow 0 = (es, .error (.returned 0, s₁)) ∧
        r = .error (.returned 0, s₁)) ∨
      ∃ es₁ s₁ es₂ s₂, (scan d s).follow 0 = (es₁, .ok ((), s₁)) ∧
        (finish s₁).follow 0 = (es₂, .ok ((), s₂)) ∧ es = es₁ ++ es₂ ∧ r = .ok ((), s₂) := by
  obtain ⟨es₁, r₁, hscan⟩ : ∃ es₁ r₁, (scan d s).follow 0 = (es₁, r₁) := ⟨_, _, rfl⟩
  rw [executeBody_eq] at hcourse
  rcases r₁ with ⟨stop, s₁⟩ | ⟨⟨⟩, s₁⟩
  · rw [follow_bind_of_error hscan] at hcourse
    cases hcourse
    cases stop with
    | failed n => exact hr.elim
    | returned n =>
      cases hr
      exact .inl ⟨s₁, hscan, rfl⟩
  · rw [follow_bind_of_ok hscan] at hcourse
    obtain ⟨rfl, hfinish⟩ := Prod.mk.inj hcourse
    have hfinish : (finish s₁).follow 0 = (((finish s₁).follow 0).1, r) := Prod.ext rfl hfinish
    obtain ⟨s₂, -, rfl, -⟩ := finish_parsed hfinish hr
    exact .inr ⟨es₁, s₁, _, s₂, hscan, hfinish, rfl, rfl⟩

theorem execute_eq {p : Parser} {d : Bytes} (he : p.errno = .ok) (hd : d ≠ []) (t : τ) :
    execute h p d t =
      (d.length - Ending.left ((executeBody d (Scan.enter p)).run h t).1,
        (Ending.scan ((executeBody d (Scan.enter p)).run h t).1).parser,
        ((executeBody d (Scan.enter p)).run h t).2) := by
  unfold execute
  rw [if_neg (not_not.mpr he), if_neg hd]
  generalize (executeBody d (Scan.enter p)).run h t = out
  obtain ⟨⟨n, s⟩ | ⟨⟨⟩, s⟩, t⟩ := out <;> rfl

end Luwu.HttpParser
