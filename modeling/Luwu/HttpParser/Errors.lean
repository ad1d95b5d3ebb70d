import Luwu.HttpParser.Spans

/-!
# The bundled http_parser: errors and the upgrade flag

`http_errno` is only set where the code leaves through an exit, so that a turn that goes on to the
next byte has not changed it.  The upgrade flag is only set at the end of the headers, where the
callback for it is made.
-/

namespace Luwu.HttpParser

open Lib InterM

variable {s : Scan} {ch : UInt8} {u : Bool}

/-- The turn has set no error, and the upgrade flag is still `u`. -/
def Steady (u : Bool) : Spec := fun _ _ s' => s'.parser.errno = .ok ∧ s'.parser.upgrade = u

/-- The turn has set no error, and the upgrade flag is still `u` unless the headers have ended. -/
def Sound (u : Bool) : Spec := fun es _ s' =>
  s'.parser.errno = .ok ∧ (s'.parser.upgrade = u ∨ ∃ p, (.headersComplete, p) ∈ es)

theorem Steady.sound {m : M Unit} (h : Post 0 m s (Steady u)) : Post 0 m s (Sound u) :=
  h.mono fun _ _ _ hs => ⟨hs.1, .inl hs.2⟩

theorem matchWord_steady (word : Bytes) (hit miss : HeaderState) (c : UInt8) (p : Parser) :
    (matchWord word hit miss c p).errno = p.errno ∧
      (matchWord word hit miss c p).upgrade = p.upgrade := by
  unfold matchWord
  grind

theorem fieldChar_steady (ch c : UInt8) (p : Parser) :
    (fieldChar ch c p).errno = p.errno ∧ (fieldChar ch c p).upgrade = p.upgrade := by
  unfold fieldChar
  cases p.headerState <;> simp [matchWord_steady] <;> split <;> exact ⟨rfl, rfl⟩

section

variable (he : s.parser.errno = .ok) (hu : s.parser.upgrade = u)
include he hu

theorem callbackData_steady (k : Span) (er : Exit) (more : Bytes) :
    Post 0 (callbackData k er more) s (Steady u) := by
  rw [post_callbackData]
  cases s.mark with
  | none => exact ⟨he, hu⟩
  | some m => by_cases h : m.1 = k <;> simp [h, he, hu, Steady]

theorem countHeaderSize_steady (v : Nat) : Post 0 (countHeaderSize v) s (Steady u) :=
  post_countHeaderSize fun _ => ⟨he, hu⟩

theorem messageDone_steady : Post 0 messageDone s (Steady u) := by
  simp [messageDone, he, hu, Steady]

theorem headersDone_steady : Post 0 (headersDone ch) s (Steady u) := by
  simp [headersDone, he, hu, Steady]

/-- The end of the headers: the flag is the one of this message, and the callback is made. -/
theorem headersAlmostDone_sound : Post 0 (headersAlmostDone ch) s (Sound u) := by
  simp only [headersAlmostDone, post_strictCheck, post_bind, post_gets, post_ite, post_updateState,
    post_callbackNotifyNoadvance, post_setParser, post_ask, post_error, List.nil_append,
    List.singleton_append]
  intro _
  refine ⟨fun _ => ?_, fun _ => ⟨fun _ => trivial, fun _ =>
    ⟨fun _ => ?_, fun h => absurd trivial h⟩⟩⟩
  · refine (messageDone_steady ?_ ?_).mono fun es _ s' hs => ⟨hs.1, .inl hs.2⟩
    · exact he
    · exact hu
  · refine (headersDone_steady ?_ rfl).mono fun es _ s' hs => ⟨hs.1, .inr ⟨_, List.mem_cons_self⟩⟩
    exact he

theorem headerFieldStart_sound : Post 0 (headerFieldStart ch) s (Sound u) := by
  simp only [headerFieldStart, post_ite, post_updateState, post_bind, post_error, post_setMark,
    post_setParser]
  refine ⟨fun _ => ⟨he, .inl hu⟩, fun _ => ⟨fun _ => ?_, fun _ => ⟨fun _ => trivial, fun _ => ?_⟩⟩⟩
  · exact headersAlmostDone_sound he hu
  · exact ⟨he, .inl hu⟩

theorem headerValueStart_steady : Post 0 (headerValueStart ch) s (Steady u) := by
  unfold headerValueStart
  cases h : s.parser.headerState <;> simp [he, hu, h, Steady]

theorem headerField_steady : Post 0 (headerField ch) s (Steady u) := by
  simp only [headerField, post_bind, post_gets, post_ite, post_setParser, post_modify]
  refine ⟨fun _ => ?_, fun _ => ?_⟩
  · obtain ⟨hfe, hfu⟩ := fieldChar_steady ch (token ch) s.parser
    exact ⟨hfe.trans he, hfu.trans hu⟩
  · apply post_countHeaderSize
    intro n
    simp only [post_updateState, post_error, implies_true, and_true]
    intro _
    apply callbackData_steady
    · exact he
    · exact hu

theorem valueChar_steady : Post 0 (valueChar ch) s (Steady u) := by
  unfold valueChar contentLengthNum
  cases h : s.parser.headerState <;> simp [h, he, hu, matchWord_steady, Steady]

theorem headerValue_steady : Post 0 (headerValue ch) s (Steady u) := by
  simp only [headerValue, post_bind, post_gets, id_eq, post_ite, post_modify, post_updateState,
    post_error, implies_true, true_and]
  refine ⟨fun _ => ⟨he, hu⟩, fun _ => ⟨fun _ => ?_, fun _ => ⟨fun _ => ?_, fun _ _ => ?_⟩⟩⟩
  · refine Post.mono (Q := Steady u) ?_ ?_
    · apply callbackData_steady
      · exact he
      · exact hu
    · exact fun es _ s' h => countHeaderSize_steady h.1 h.2 _
  · apply post_countHeaderSize
    intro n
    refine Post.mono (Q := Steady u) ?_ ?_
    · apply callbackData_steady
      · exact he
      · exact hu
    · intro es _ s' h
      simp [headerAlmostDone, h.1, h.2, Steady]
  · exact (valueChar_steady he hu).mono fun es _ s' h => h

theorem headerValueLws_sound : Post 0 (headerValueLws ch) s (Sound u) := by
  simp only [headerValueLws, post_ite, post_updateState, post_bind, post_setParser]
  refine ⟨fun _ => Steady.sound ?_, fun _ => ?_⟩
  · apply headerValueStart_steady
    · exact he
    · exact hu
  · apply headerFieldStart_sound
    · exact he
    · exact hu

theorem headerValueDiscardLws_sound : Post 0 (headerValueDiscardLws ch) s (Sound u) := by
  simp only [headerValueDiscardLws, post_ite, post_updateState, post_bind, post_gets, post_error,
    post_setParser, post_setMark, implies_true, true_and]
  refine ⟨fun _ => ⟨he, .inl hu⟩, fun _ _ => ?_⟩
  refine Post.mono (Q := Steady u) ?_ ?_
  · apply callbackData_steady
    · exact he
    · exact hu
  · intro es _ s' h
    refine (headerFieldStart_sound h.1 h.2).mono ?_
    rintro es' _ s'' ⟨he'', hu'' | ⟨p, hp⟩⟩
    · exact ⟨he'', .inl hu''⟩
    · exact ⟨he'', .inr ⟨p, by simp [hp]⟩⟩

theorem bodyIdentity_steady : Post 0 (bodyIdentity ch) s (Steady u) := by
  simp only [bodyIdentity, post_ite, post_updateState, post_bind, post_gets, post_pure,
    post_setParser, post_setMark]
  refine ⟨fun _ => ?_, fun _ => ⟨he, hu⟩⟩
  refine Post.mono (Q := Steady u) ?_ ?_
  · apply callbackData_steady
    · exact he
    · exact hu
  · exact fun es _ s' h => messageDone_steady h.1 h.2

theorem startReq_steady : Post 0 (startReq ch) s (Steady u) := by
  unfold startReq resetMessage
  cases firstMethod ch <;> simp [he, hu, Steady]

theorem reqMethod_steady : Post 0 (reqMethod ch) s (Steady u) := by
  unfold reqMethod
  cases h : otherMethod s.parser.method s.parser.index ch <;> simp [he, hu, h, Steady]

theorem chunkSizeStart_steady : Post 0 (chunkSizeStart ch) s (Steady u) := by
  unfold chunkSizeStart
  cases unhex ch <;> simp [he, hu, Steady]

theorem chunkSize_steady : Post 0 (chunkSize ch) s (Steady u) := by
  unfold chunkSize
  cases unhex ch <;> simp [he, hu, Steady]

theorem dispatch_sound : Post 0 (dispatch s.parser.state ch) s (Sound u) := by
  cases h : s.parser.state
  case headerFieldStart => exact headerFieldStart_sound he hu
  case headerValueLws => exact headerValueLws_sound he hu
  case headerValueDiscardLws => exact headerValueDiscardLws_sound he hu
  case headersAlmostDone => exact headersAlmostDone_sound he hu
  all_goals
    apply Steady.sound
    simp [dispatch, he, hu, callbackData_steady, messageDone_steady, headersDone_steady,
      headerValueStart_steady, headerField_steady, headerValue_steady, startReq_steady,
      reqMethod_steady, chunkSizeStart_steady, chunkSize_steady, expectChar, httpMajor, httpMinor,
      httpDot, resHttpEnd, resFirstStatusCode, startRes, resetMessage, resOrRespH, reqHttpStart,
      reqHttpEnd, reqLineAlmostDone, chunkParameters, chunkSizeAlmostDone, chunkDataDone,
      startReqOrRes, reqUrl, reqUrlStart, urlChar, reqSpacesBeforeUrl, headerAlmostDone,
      headerValueDiscardWs, bodyIdentity_steady, chunkData, chunkDataAlmostDone,
      resStatus, resStatusStart, resStatusCode, Steady]

/-- **A turn that goes on to the next byte has set no error**, and has changed the upgrade flag
only at the end of the headers. -/
theorem turn_sound : Post 0 (turn ch) s (Sound u) := by
  simp only [turn, post_bind, post_gets, id_eq, post_ite]
  refine ⟨fun _ => ?_, fun _ => dispatch_sound he hu⟩
  apply post_countHeaderSize
  intro n
  exact dispatch_sound (s := { s with parser := { s.parser with nread := n } }) he hu

end

end Luwu.HttpParser
