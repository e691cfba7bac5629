import Mathlib.Logic.Relation
import SmallLisp.Proofs.Limit
import SmallLisp.Proofs.Server.Framing
/-!
Several clients at once.

The code of a request is evaluated while its client alone holds the session.  The value is rendered
later, in the session as it is then, and other clients may have been served in between.  Main
statement: however that happens, the results and the session are those of the requests served one
after the other in the order in which they were evaluated, and so is every response that shows no
closure.  A closure is shown under the name that it has when the response is rendered.
-/

namespace SmallLisp

section Shows

/-- A closure whose name is part of the text of a value. -/
inductive Value.Shows : Value → Value → Prop
  | closure {identity : Nat} {formals : List Text} {body : Value} {frame : FrameId} :
      Shows (.closure identity formals body frame) (.closure identity formals body frame)
  | item {items : List Value} {identity : Option Nat} {v closure : Value} :
      v ∈ items → Shows v closure → Shows (.list items identity) closure

/-- The text of a value depends on the store by the names of closures only. -/
theorem Value.displayWithin_eq_of_names {s t : Store} (depth : Nat) {v : Value}
    (h : ∀ closure, v.Shows closure → closure.functionName s = closure.functionName t) :
    displayWithin s depth v = displayWithin t depth v := by
  induction depth generalizing v with
  | zero => rfl
  | succ depth ih =>
    cases v with
    | list items identity =>
      have hitems : items.mapM (displayWithin s depth) = items.mapM (displayWithin t depth) := by
        refine (UpToLimit.mapM fun item hitem => Or.inl (ih ?_)).eq_of_not id
        exact fun closure hshows => h closure (.item hitem hshows)
      rw [displayWithin, displayWithin, hitems]
    | closure identity formals body frame =>
      rw [displayWithin, displayWithin, h _ .closure]
    | _ => rfl

end Shows

namespace Server

/-- A response depends on the store by the names of the closures that it shows only. -/
theorem respond_eq_of_names {result : Except Failure (Option Value)} {s t : Store}
    (h : ∀ v closure, result = .ok (some v) → v.Shows closure →
      closure.functionName s = closure.functionName t) : respond result s = respond result t := by
  cases result with
  | error e => rfl
  | ok value =>
    cases value with
    | none => rfl
    | some v =>
      have hdisplay : v.display s = v.display t :=
        Value.displayWithin_eq_of_names nestingLimit fun closure => h v closure rfl
      rw [respond, respond, hdisplay]

/-- A request line that asks for an evaluation. -/
structure EvalRequest where
  line : List UInt8
  code : Text
  asks : AsksFor line code

/-- A request that has been evaluated: the result, and the outcome of the rendering once it has been
rendered. -/
structure Turn (Client : Type) where
  client : Client
  request : EvalRequest
  result : Except Failure (Option Value)
  response : Option (Except Failure Response) := none

/-- The turn of a request that is evaluated in a session. -/
def Turn.evaluated {Client : Type} (client : Client) (request : EvalRequest) (session : Session) :
    Turn Client where
  client := client
  request := request
  result := (session.evaluateLast false request.code).1

/-- The turn after its result has been rendered in a store. -/
def Turn.rendered {Client : Type} (turn : Turn Client) (store : Store) : Turn Client :=
  { turn with response := some (respond turn.result store) }

/-- The session that all clients share, and the requests in the order in which they were
evaluated. -/
structure Hall (Client : Type) where
  session : Session
  turns : List (Turn Client) := []

variable {Client : Type}

/-- The lines of the requests that have been evaluated. -/
def Hall.lines (hall : Hall Client) : List (List UInt8) :=
  hall.turns.map (·.request.line)

/-- A client that has been answered, and so may send its next request. -/
def Hall.IsIdle (hall : Hall Client) (client : Client) : Prop :=
  ∀ turn ∈ hall.turns, turn.client = client → ∃ response, turn.response = some (.ok response)

/-- What can happen next. -/
inductive Step : Hall Client → Hall Client → Prop
  /-- The code of an idle client's request is evaluated, in one step. -/
  | evaluate {hall : Hall Client} {client : Client} (request : EvalRequest) :
      hall.IsIdle client →
      Step hall {
        session := (hall.session.evaluateLast false request.code).2
        turns := hall.turns ++ [.evaluated client request hall.session] }
  /-- A result is rendered in the session as it is then. -/
  | render {hall : Hall Client} {before after : List (Turn Client)} {turn : Turn Client} :
      hall.turns = before ++ turn :: after → turn.response = none →
      Step hall { hall with turns := before ++ turn.rendered hall.session.store :: after }

/-- What the turns of a hall have in common with requests that are served one after the other from
a session on. -/
structure Hall.IsSerial (hall : Hall Client) (session : Session) : Prop where
  state : hall.session = sessionAfter session hall.lines
  result : ∀ i turn, hall.turns[i]? = some turn →
    turn.result = ((sessionAfter session (hall.lines.take i)).evaluateLast false
      turn.request.code).1
  /-- A response is rendered after some of the requests, its own among them. -/
  response : ∀ i turn response, hall.turns[i]? = some turn → turn.response = some response →
    ∃ n, i < n ∧ n ≤ hall.turns.length ∧
      response = respond turn.result (sessionAfter session (hall.lines.take n)).store

theorem sessionAfter_append (session : Session) (lines more : List (List UInt8)) :
    sessionAfter session (lines ++ more) = sessionAfter (sessionAfter session lines) more := by
  rw [sessionAfter, List.filterMap_append, evaluateCodes, List.foldl_append]
  rfl

/-- A request for an evaluation is handled by the evaluation of its code. -/
theorem EvalRequest.handle_eq (request : EvalRequest) (session : Session) :
    handle ⟨request.line.toArray⟩ session =
      (respond (session.evaluateLast false request.code).1
          (session.evaluateLast false request.code).2.store,
        (session.evaluateLast false request.code).2) := by
  rw [handle, readOrder_eq_evaluate_iff.mpr request.asks]

theorem EvalRequest.sessionAfter_eq (request : EvalRequest) (session : Session) :
    sessionAfter session [request.line] = (session.evaluateLast false request.code).2 := by
  rw [← handle_session, request.handle_eq]

/-- What stands in a list with one item put in another's place. -/
theorem getElem?_of_replaced {α : Type} {before after : List α} {old new found : α} {i : Nat}
    (h : (before ++ new :: after)[i]? = some found) :
    i = before.length ∧ found = new ∨ (before ++ old :: after)[i]? = some found := by
  rcases Nat.lt_trichotomy i before.length with hlt | rfl | hgt
  · rw [List.getElem?_append_left hlt] at h ⊢
    exact Or.inr h
  · rw [List.getElem?_append_right (Nat.le_refl _), Nat.sub_self] at h
    exact Or.inl ⟨rfl, (Option.some.inj h).symm⟩
  · obtain ⟨k, hk⟩ : ∃ k, i - before.length = k + 1 := ⟨i - before.length - 1, by omega⟩
    rw [List.getElem?_append_right (Nat.le_of_lt hgt), hk] at h ⊢
    exact Or.inr h

/-- What stands in a list with one more item at its end. -/
theorem getElem?_of_concat {α : Type} {items : List α} {last found : α} {i : Nat}
    (h : (items ++ [last])[i]? = some found) :
    i = items.length ∧ found = last ∨ i < items.length ∧ items[i]? = some found := by
  rcases Nat.lt_trichotomy i items.length with hlt | rfl | hgt
  · rw [List.getElem?_append_left hlt] at h
    exact Or.inr ⟨hlt, h⟩
  · rw [List.getElem?_concat_length] at h
    exact Or.inl ⟨rfl, (Option.some.inj h).symm⟩
  · have hlength : (items ++ [last]).length ≤ i := by
      rw [List.length_append]
      exact hgt
    rw [List.getElem?_eq_none hlength] at h
    cases h

namespace Hall.IsSerial

variable {session : Session} {hall : Hall Client}

/-- The evaluation of a further request comes after all the others. -/
theorem evaluate (h : hall.IsSerial session) (client : Client) (request : EvalRequest) :
    Hall.IsSerial {
      session := (hall.session.evaluateLast false request.code).2
      turns := hall.turns ++ [.evaluated client request hall.session] } session := by
  have hlines : Hall.lines {
      session := (hall.session.evaluateLast false request.code).2
      turns := hall.turns ++ [.evaluated client request hall.session] } =
      hall.lines ++ [request.line] := by
    simp [lines, Turn.evaluated]
  have htake : ∀ i ≤ hall.turns.length,
      (hall.lines ++ [request.line]).take i = hall.lines.take i :=
    fun i hi => List.take_append_of_le_length (by simpa [lines] using hi)
  refine ⟨?_, ?_, ?_⟩
  · rw [hlines, sessionAfter_append, request.sessionAfter_eq, ← h.state]
  · intro i turn hturn
    rw [hlines]
    rcases getElem?_of_concat hturn with ⟨rfl, rfl⟩ | ⟨hlt, hold⟩
    · rw [htake _ (Nat.le_refl _), List.take_of_length_le (by simp [lines]), ← h.state]
      rfl
    · rw [htake i (Nat.le_of_lt hlt)]
      exact h.result i turn hold
  · intro i turn response hturn hresponse
    rw [hlines]
    rcases getElem?_of_concat hturn with ⟨rfl, rfl⟩ | ⟨hlt, hold⟩
    · cases hresponse
    · obtain ⟨n, hn, hle, heq⟩ := h.response i turn response hold hresponse
      refine ⟨n, hn, ?_, ?_⟩
      · simp only [List.length_append]
        omega
      · rw [htake n hle]
        exact heq

/-- A rendering sees the session after all the requests that have been evaluated. -/
theorem render (h : hall.IsSerial session) {before after : List (Turn Client)}
    {turn : Turn Client} (hturns : hall.turns = before ++ turn :: after) :
    Hall.IsSerial { hall with turns := before ++ turn.rendered hall.session.store :: after }
      session := by
  have hlines : Hall.lines { hall with
      turns := before ++ turn.rendered hall.session.store :: after } = hall.lines := by
    simp [lines, hturns, Turn.rendered]
  have hself : hall.turns[before.length]? = some turn := by simp [hturns]
  refine ⟨?_, ?_, ?_⟩
  · rw [hlines]
    exact h.state
  · intro i found hfound
    rw [hlines]
    rcases getElem?_of_replaced hfound with ⟨rfl, rfl⟩ | hold
    · exact h.result _ turn hself
    · exact h.result i found (hturns ▸ hold)
  · intro i found response hfound hresponse
    have hlength : (before ++ turn.rendered hall.session.store :: after).length =
        hall.turns.length := by simp [hturns]
    rw [hlines]
    rcases getElem?_of_replaced hfound with ⟨rfl, rfl⟩ | hold
    · obtain rfl := Option.some.inj hresponse
      refine ⟨hall.turns.length, ?_, Nat.le_of_eq hlength.symm, ?_⟩
      · simp [hturns]
      · rw [List.take_of_length_le (by simp [lines]), ← h.state]
        rfl
    · obtain ⟨n, hn, hle, heq⟩ := h.response i found response (hturns ▸ hold) hresponse
      exact ⟨n, hn, hlength ▸ hle, heq⟩

end Hall.IsSerial

theorem isSerial_of_steps {session : Session} {hall : Hall Client}
    (h : Relation.ReflTransGen Step { session } hall) : hall.IsSerial session := by
  induction h with
  | refl => exact ⟨rfl, by simp, by simp⟩
  | tail _ hstep ih =>
    cases hstep with
    | evaluate request _ => exact ih.evaluate _ request
    | render hturns _ => exact ih.render hturns

/-- Any interleaving of clients, beside their requests served one after the other in the order in
which they were evaluated.  The session and every result are the same.  A response is the result
rendered after some of the requests, its own among them, and it is the same response if no closure
that it shows has changed its name in between. -/
theorem interleaving_serial {session : Session} {hall : Hall Client}
    (h : Relation.ReflTransGen Step { session } hall) :
    hall.session = sessionAfter session hall.lines ∧
    ∀ i turn, hall.turns[i]? = some turn →
      turn.result = ((sessionAfter session (hall.lines.take i)).evaluateLast false
        turn.request.code).1 ∧
      ∀ response, turn.response = some response →
        ∃ n, i < n ∧ n ≤ hall.turns.length ∧
          response = respond turn.result (sessionAfter session (hall.lines.take n)).store ∧
          ((∀ v closure, turn.result = .ok (some v) → v.Shows closure →
              closure.functionName (sessionAfter session (hall.lines.take n)).store =
                closure.functionName (sessionAfter session (hall.lines.take (i + 1))).store) →
            response = (handle ⟨turn.request.line.toArray⟩
              (sessionAfter session (hall.lines.take i))).1) := by
  have hserial := isSerial_of_steps h
  refine ⟨hserial.state, fun i turn hturn => ⟨hserial.result i turn hturn, ?_⟩⟩
  intro response hresponse
  obtain ⟨n, hn, hle, rfl⟩ := hserial.response i turn response hturn hresponse
  refine ⟨n, hn, hle, rfl, fun hnames => ?_⟩
  have hline : hall.lines[i]? = some turn.request.line := by
    rw [Hall.lines, List.getElem?_map, hturn]
    rfl
  have hnext : sessionAfter session (hall.lines.take (i + 1)) =
      ((sessionAfter session (hall.lines.take i)).evaluateLast false turn.request.code).2 := by
    rw [List.take_add_one, hline, sessionAfter_append]
    exact turn.request.sessionAfter_eq _
  rw [turn.request.handle_eq, ← hserial.result i turn hturn, ← hnext]
  exact respond_eq_of_names hnames

/-- Two clients, the second of which is served before the first has been answered. -/
def overtaken (session : Session) (first second : EvalRequest) : Hall Bool :=
  let next := (session.evaluateLast false first.code).2
  let last := (next.evaluateLast false second.code).2
  { session := last
    turns := [(Turn.evaluated false first session).rendered last.store,
      .evaluated true second next] }

theorem steps_overtaken (session : Session) (first second : EvalRequest) :
    Relation.ReflTransGen Step { session } (overtaken session first second) := by
  have hfirst : Step { session } {
      session := (session.evaluateLast false first.code).2
      turns := [Turn.evaluated false first session] } :=
    .evaluate first fun turn hturn => absurd hturn List.not_mem_nil
  have hidle : Hall.IsIdle {
      session := (session.evaluateLast false first.code).2
      turns := [Turn.evaluated false first session] } true := by
    intro turn hturn hclient
    obtain rfl := List.mem_singleton.mp hturn
    cases hclient
  have hrender : Step {
      session := ((session.evaluateLast false first.code).2.evaluateLast false second.code).2
      turns := [] ++ Turn.evaluated false first session ::
        [.evaluated true second (session.evaluateLast false first.code).2] }
      (overtaken session first second) :=
    @Step.render _ _ [] [_] _ rfl rfl
  exact ((Relation.ReflTransGen.single hfirst).tail (.evaluate second hidle)).tail hrender

/-- The definition of a function. -/
def functionDefinition : EvalRequest where
  line := "\x7b\"cmd\": \"eval\", \"code\": \"(define f (lambda (x) x))\"\x7d".toUTF8.toList
  code := "(define f (lambda (x) x))"
  asks := codeOf?_eq_some_iff.mp (by decide +kernel)

/-- Another definition of the same name. -/
def redefinition : EvalRequest where
  line := "\x7b\"cmd\": \"eval\", \"code\": \"(define f 1)\"\x7d".toUTF8.toList
  code := "(define f 1)"
  asks := codeOf?_eq_some_iff.mp (by decide +kernel)

theorem interleaving_serial_overtaken :
    Relation.ReflTransGen Step { session := Session.empty }
        (overtaken Session.empty functionDefinition redefinition) ∧
      (overtaken Session.empty functionDefinition redefinition).session =
        sessionAfter Session.empty [functionDefinition.line, redefinition.line] :=
  ⟨steps_overtaken _ _ _, (interleaving_serial (steps_overtaken _ _ _)).1⟩

/-- What the first client is told when the second one has redefined its function.  Served alone it
is told the name. -/
theorem response_overtaken_ne : ∃ (hall : Hall Bool) (turn : Turn Bool)
    (response : Except Failure Response),
    Relation.ReflTransGen Step { session := Session.empty } hall ∧
      hall.turns[0]? = some turn ∧ turn.response = some response ∧
      response ≠ (handle ⟨turn.request.line.toArray⟩
        (sessionAfter Session.empty (hall.lines.take 0))).1 := by
  refine ⟨_, _, _, steps_overtaken Session.empty functionDefinition redefinition, rfl, rfl, ?_⟩
  exact fun heq => absurd (congrArg Except.toOption heq) (by decide +kernel)

end Server

end SmallLisp
