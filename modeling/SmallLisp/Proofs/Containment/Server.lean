import SmallLisp.Proofs.Containment.Session
import SmallLisp.Server
/-!
Which failures the server contains.

Main statement: a request line is answered, unless it is no JSON within the limits, an integer has
too many digits or the value cannot be shown.
-/

namespace SmallLisp

/-- A computation on JSON whose limits are those on the size of values. -/
def StopsAtLimit {α : Type} (x : Except JsonFault α) : Prop :=
  ∀ e, x = .error (.limit e) → e.IsLimit

namespace JsonMachine

theorem stopsAtLimit_ok {α : Type} (a : α) : StopsAtLimit (.ok a) := by
  rintro e ⟨⟩

theorem stopsAtLimit_malformed {α : Type} :
    StopsAtLimit (.error .malformed : Except JsonFault α) := by
  rintro e ⟨⟩

theorem stopsAtLimit_enter (context : JsonContext) (expectation : JsonExpectation)
    (contexts : List JsonContext) : StopsAtLimit (enter context expectation contexts) := by
  rw [enter]
  split
  · exact stopsAtLimit_ok _
  · rintro e ⟨⟩
    exact Or.inl rfl

theorem stopsAtLimit_startValue (contexts : List JsonContext) (token : JsonToken) :
    StopsAtLimit (startValue contexts token) := by
  cases token with
  | longInteger =>
    rintro e ⟨⟩
    exact Or.inr rfl
  | leftBracket => exact stopsAtLimit_enter _ _ contexts
  | leftBrace => exact stopsAtLimit_enter _ _ contexts
  | scalar v => exact stopsAtLimit_ok _
  | _ => exact stopsAtLimit_malformed

theorem stopsAtLimit_startKey (contexts : List JsonContext) (token : JsonToken) :
    StopsAtLimit (startKey contexts token) := by
  rw [startKey.eq_def]
  split
  · exact stopsAtLimit_ok _
  · exact stopsAtLimit_malformed

theorem stopsAtLimit_step (m : JsonMachine) (token : JsonToken) :
    StopsAtLimit (m.step token) := by
  rw [step.eq_def]
  split
  any_goals exact stopsAtLimit_ok _
  · exact stopsAtLimit_startValue _ _
  · exact stopsAtLimit_startValue _ _
  · exact stopsAtLimit_startKey _ _
  · exact stopsAtLimit_startKey _ _
  · exact stopsAtLimit_malformed

theorem stopsAtLimit_finish (m : JsonMachine) : StopsAtLimit m.finish := by
  rw [finish]
  split
  · exact stopsAtLimit_ok _
  · exact stopsAtLimit_malformed

theorem stopsAtLimit_foldlM (tokens : List JsonToken) (m : JsonMachine) :
    StopsAtLimit (tokens.foldlM step m) := by
  induction tokens generalizing m with
  | nil => exact stopsAtLimit_ok m
  | cons token rest ih =>
    rw [List.foldlM_cons]
    cases hstep : m.step token with
    | error fault =>
      rintro e ⟨⟩
      exact m.stopsAtLimit_step token e hstep
    | ok next => exact ih next

end JsonMachine

/-- A text that is no JSON value for a limit is nested too deep, or it has an integer with too many
digits. -/
theorem JsonValue.stopsAtLimit_parse (text : Text) : StopsAtLimit (JsonValue.parse text) := by
  rw [JsonValue.parse]
  cases hfold : (JsonToken.ofText text).foldlM JsonMachine.step {} with
  | error fault =>
    rintro e ⟨⟩
    exact JsonMachine.stopsAtLimit_foldlM _ _ e hfold
  | ok m => exact m.stopsAtLimit_finish

namespace Server

theorem failsAtLimit_readOrder (line : ByteArray) : FailsAtLimit (readOrder line) := by
  rw [readOrder]
  cases String.fromUTF8? line with
  | none => exact failsAtLimit_ok _
  | some text =>
    simp only
    cases hparse : JsonValue.parse (Text.ofString text) with
    | ok request => exact failsAtLimit_ok _
    | error fault =>
      cases fault with
      | malformed => exact failsAtLimit_ok _
      | limit failure =>
        rintro e ⟨⟩
        exact JsonValue.stopsAtLimit_parse _ _ hparse

/-- The failures of a request that leave the server. -/
inductive Escapes (line : ByteArray) (session : Session) : Failure → Prop
  /-- The line is no JSON within the limits. -/
  | unread {e : Failure} : readOrder line = .error e → Escapes line session e
  /-- An integer in the code, among its values or in a message has too many digits. -/
  | overlong {code : Text} : readOrder line = .ok (.evaluate code) →
      (session.evaluateLast false code).1 = .error .integerTooLong →
      Escapes line session .integerTooLong
  /-- The value has no text. -/
  | unshown {code : Text} {v : Value} {e : Failure} : readOrder line = .ok (.evaluate code) →
      (session.evaluateLast false code).1 = .ok (some v) →
      v.display (session.evaluateLast false code).2.store = .error e → Escapes line session e

/-- A request that is answered unless one of the listed failures leaves the server.  All of these
are at a limit. -/
structure Contains (line : ByteArray) (session : Session) : Prop where
  native : (handle line session).2.Native
  answered : (∀ e, ¬ Escapes line session e) → ∃ response, (handle line session).1 = .ok response
  escaped : ∀ e, (handle line session).1 = .error e ↔ Escapes line session e
  limit : ∀ e, Escapes line session e → e.IsLimit

variable {line : ByteArray} {session : Session}

/-- Clients are told of what programs run into, unless it is an integer with too many digits. -/
theorem errorText?_of_isOrdinary {e : Failure} (h : e.IsOrdinary) :
    e = .integerTooLong ∨ ∃ text, errorText? e = some text := by
  rcases h with ⟨fault, rfl⟩ | rfl | rfl
  · exact Or.inr ⟨_, rfl⟩
  · exact Or.inr ⟨_, rfl⟩
  · exact Or.inl rfl

theorem Escapes.isLimit {e : Failure} (h : Escapes line session e) : e.IsLimit := by
  cases h with
  | unread horder => exact failsAtLimit_readOrder line _ horder
  | overlong _ _ => exact Or.inr rfl
  | @unshown code v _ _ _ hshow =>
    exact Value.failsAtLimit_displayWithin _ nestingLimit v e hshow

/-- A response fails as the evaluation does, if that is not reported, or as the value's display. -/
theorem respond_eq_error_iff {result : Except Failure (Option Value)} {s : Store} {e : Failure} :
    respond result s = .error e ↔
      (result = .error e ∧ errorText? e = none) ∨
        ∃ v, result = .ok (some v) ∧ v.display s = .error e := by
  cases result with
  | error e' =>
    cases htext : errorText? e' with
    | none =>
      simp only [respond, htext, Option.elim_none, Except.error.injEq, reduceCtorEq, false_and,
        exists_false, or_false]
      exact ⟨fun heq => ⟨heq, heq ▸ htext⟩, And.left⟩
    | some text =>
      simp only [respond, htext, Option.elim_some, Except.error.injEq, reduceCtorEq, false_and,
        exists_false, or_false, false_iff, not_and]
      rintro rfl
      simp [htext]
  | ok shown =>
    cases shown with
    | none => simp [respond]
    | some v => cases hshow : v.display s <;> simp [respond, hshow, Except.map]

/-- The failures that leave the server, in a native session. -/
theorem handle_eq_error_iff (h : session.Native) (e : Failure) :
    (handle line session).1 = .error e ↔ Escapes line session e := by
  constructor
  · intro herror
    rw [handle] at herror
    cases horder : readOrder line with
    | error e' =>
      rw [horder] at herror
      cases herror
      exact .unread horder
    | ok order =>
      rw [horder] at herror
      cases order with
      | refuse reason => cases herror
      | evaluate code =>
        rcases respond_eq_error_iff.mp herror with ⟨hresult, htext⟩ | ⟨v, hresult, hshow⟩
        · have hordinary := (h.evaluateLast false code).2 e hresult
          rcases errorText?_of_isOrdinary hordinary with rfl | ⟨text, hsome⟩
          · exact .overlong horder hresult
          · rw [htext] at hsome
            cases hsome
        · exact .unshown horder hresult hshow
  · intro hescapes
    cases hescapes with
    | unread horder => rw [handle, horder]
    | overlong horder hresult =>
      rw [handle, horder]
      exact respond_eq_error_iff.mpr (Or.inl ⟨hresult, rfl⟩)
    | unshown horder hresult hshow =>
      rw [handle, horder]
      exact respond_eq_error_iff.mpr (Or.inr ⟨_, hresult, hshow⟩)

theorem native_handle (h : session.Native) (line : ByteArray) :
    (handle line session).2.Native := by
  rw [handle]
  cases readOrder line with
  | error e => exact h
  | ok order =>
    cases order with
    | refuse reason => exact h
    | evaluate code => exact (h.evaluateLast false code).1

/-- The server contains failures in every native session. -/
theorem contains_handle (h : session.Native) (line : ByteArray) : Contains line session where
  native := native_handle h line
  answered hnone := by
    cases hhandle : (handle line session).1 with
    | error e => exact absurd ((handle_eq_error_iff h e).mp hhandle) (hnone e)
    | ok response => exact ⟨response, rfl⟩
  escaped := handle_eq_error_iff h
  limit _ := Escapes.isLimit

end Server

end SmallLisp
