import Mathlib.Tactic.SplitIfs
import SmallLisp.Server
/-!
Requests in a stream of bytes.

A connection keeps nothing but the line that has not ended.  Main statement: what a client is sent
and the session that is left depend only on all the bytes that the client sends, however they are
cut into chunks.  They are the responses to the ended lines that are not blank, up to the first that
fails, and the session in which just their code has been evaluated.
-/

namespace SmallLisp.Server

section Lines

/-- The lines that end in some bytes.  What comes after the last line feed is no line yet. -/
def endedLines (bytes : List UInt8) : List (List UInt8) :=
  (bytes.splitOn 10).dropLast

/-- No line ends where there is no line feed. -/
theorem endedLines_of_not_mem {bytes : List UInt8} (h : 10 ∉ bytes) : endedLines bytes = [] := by
  rw [endedLines, List.splitOn_eq_singleton h, List.dropLast_singleton]

/-- The last of the pieces of some bytes is all that further bytes can extend. -/
theorem exists_splitOn (bytes : List UInt8) : ∃ lines last, 10 ∉ last ∧
    bytes.splitOn 10 = lines ++ [last] ∧
    ∀ more, (bytes ++ more).splitOn 10 = lines ++ (last ++ more).splitOn 10 := by
  by_cases h : 10 ∈ bytes
  · -- The bytes are cut at their last line feed, which is the first from the end.
    obtain ⟨after, before, hreverse, hafter⟩ :=
      List.eq_append_cons_of_mem (List.mem_reverse.mpr h)
    have hbytes : bytes = before.reverse ++ 10 :: after.reverse := by
      rw [← List.reverse_reverse bytes, hreverse, List.reverse_append, List.reverse_cons,
        List.append_assoc]
      rfl
    have hlast : 10 ∉ after.reverse := fun hmem => hafter (List.mem_reverse.mp hmem)
    refine ⟨before.reverse.splitOn 10, after.reverse, hlast, ?_, fun more => ?_⟩
    · rw [hbytes, List.splitOn_append_cons_self, List.splitOn_eq_singleton hlast]
    · rw [hbytes, List.append_assoc, List.cons_append, List.splitOn_append_cons_self]
  · exact ⟨[], bytes, h, List.splitOn_eq_singleton h, fun more => rfl⟩

/-- What a connection makes of a chunk: the lines that end in what it has kept and the chunk, and
an unfinished line with which it is ready for more. -/
theorem receive_spec (connection : Connection) (chunk : List UInt8) :
    10 ∉ (connection.receive chunk).2.pending ∧
      ∀ more, endedLines (connection.pending ++ (chunk ++ more)) =
        (connection.receive chunk).1 ++
          endedLines ((connection.receive chunk).2.pending ++ more) := by
  obtain ⟨lines, last, hlast, hsplit, hmore⟩ := exists_splitOn (connection.pending ++ chunk)
  have hreceive : connection.receive chunk = (lines, { pending := last }) := by
    rw [Connection.receive, hsplit, List.dropLast_concat, List.getLast?_concat]
    rfl
  rw [hreceive]
  refine ⟨hlast, fun more => ?_⟩
  rw [← List.append_assoc, endedLines, hmore,
    List.dropLast_append_of_ne_nil (List.splitOn_ne_nil _ _), endedLines]

end Lines

section Exchanges

/-- An exchange and then another one in the session that it leaves, unless it has failed. -/
def Exchange.andThen (first : Exchange) (next : Session → Exchange) : Exchange :=
  if first.failure.isSome then first
  else { next first.session with sent := first.sent ++ (next first.session).sent }

theorem answerLines_cons (line : List UInt8) (rest : List (List UInt8)) (session : Session) :
    answerLines (line :: rest) session =
      (answerLines [line] session).andThen (answerLines rest) := by
  rw [answerLines, answerLines]
  split
  · rfl
  · cases handle ⟨(Text.stripBy isMargin line).toArray⟩ session with
    | mk result session' => cases result <;> rfl

theorem Exchange.andThen_assoc (first : Exchange) (next last : Session → Exchange) :
    (first.andThen next).andThen last =
      first.andThen fun session => (next session).andThen last := by
  obtain ⟨sent, failure, session⟩ := first
  cases failure with
  | some e => rfl
  | none =>
    simp only [andThen]
    cases hnext : (next session).failure <;> simp [hnext]

theorem answerLines_append (lines more : List (List UInt8)) (session : Session) :
    answerLines (lines ++ more) session =
      (answerLines lines session).andThen (answerLines more) := by
  induction lines generalizing session with
  | nil => rfl
  | cons line rest ih =>
    rw [List.cons_append, answerLines_cons, answerLines_cons line rest, Exchange.andThen_assoc]
    exact congrArg (Exchange.andThen _) (funext ih)

/-- Chunks are answered as the lines that end in them all. -/
theorem converse_eq_answerLines {pending : List UInt8} (h : 10 ∉ pending)
    (chunks : List (List UInt8)) (session : Session) :
    converse { pending } chunks session =
      answerLines (endedLines (pending ++ chunks.flatten)) session := by
  induction chunks generalizing pending session with
  | nil =>
    rw [List.flatten_nil, List.append_nil, endedLines_of_not_mem h]
    rfl
  | cons chunk rest ih =>
    obtain ⟨hpending, hlines⟩ := receive_spec { pending } chunk
    have hrest : converse (Connection.receive { pending } chunk).2 rest =
        answerLines (endedLines ((Connection.receive { pending } chunk).2.pending ++
          rest.flatten)) := funext fun session => ih hpending session
    rw [List.flatten_cons, hlines, answerLines_append, ← hrest]
    rfl

end Exchanges

section Requests

/-- The requests in some lines: what they hold between ASCII blanks, if anything. -/
def requestsIn (lines : List (List UInt8)) : List (List UInt8) :=
  (lines.map (Text.stripBy isMargin)).filter (!·.isEmpty)

/-- A request that is a JSON object with the command `eval` and with this code.  Code that is
missing counts as empty. -/
def AsksFor (request : List UInt8) (code : Text) : Prop :=
  ∃ text fields, String.fromUTF8? ⟨request.toArray⟩ = some text ∧
    JsonValue.parse text = .ok (.object fields) ∧
    (JsonValue.object fields).get? "cmd" = some (.string "eval") ∧
    ((JsonValue.object fields).get? "code" = some (.string code) ∨
      (JsonValue.object fields).get? "code" = none ∧ code = [])

/-- The code that a request asks for. -/
def codeOf? (request : List UInt8) : Option Text :=
  match readOrder ⟨request.toArray⟩ with
  | .ok (.evaluate code) => some code
  | _ => none

theorem isString_eq_true_iff {v : JsonValue} {wanted : Text} :
    v.isString wanted = true ↔ v = .string wanted := by
  cases v <;> simp [JsonValue.isString]

theorem orderOf_eq_evaluate_iff {request : JsonValue} {code : Text} :
    orderOf request = .evaluate code ↔
      request.get? "cmd" = some (.string "eval") ∧
        (request.get? "code" = some (.string code) ∨ request.get? "code" = none ∧ code = []) := by
  have hcommand : ((request.get? "cmd").getD .null).isString "eval" = true ↔
      request.get? "cmd" = some (.string "eval") := by
    rw [isString_eq_true_iff]
    cases request.get? "cmd" <;> simp
  simp only [orderOf]
  by_cases heval : ((request.get? "cmd").getD .null).isString "eval" = true
  · rw [if_pos heval, and_iff_right (hcommand.mp heval)]
    cases request.get? "code" with
    | none => simp [eq_comm]
    | some v => cases v <;> simp
  · rw [if_neg heval]
    constructor
    · rintro ⟨⟩
    · exact fun h => absurd (hcommand.mpr h.1) heval

theorem readOrder_eq_evaluate_iff {request : List UInt8} {code : Text} :
    readOrder ⟨request.toArray⟩ = .ok (.evaluate code) ↔ AsksFor request code := by
  constructor
  · intro h
    rw [readOrder] at h
    cases htext : String.fromUTF8? ⟨request.toArray⟩ with
    | none =>
      rw [htext] at h
      cases h
    | some text =>
      cases hparse : JsonValue.parse text with
      | error fault =>
        simp only [htext, hparse] at h
        cases fault <;> cases h
      | ok v =>
        simp only [htext, hparse, Except.ok.injEq, orderOf_eq_evaluate_iff] at h
        cases v with
        | object fields => exact ⟨text, fields, htext, hparse, h⟩
        | _ => cases h.1
  · rintro ⟨text, fields, htext, hparse, hfields⟩
    rw [readOrder, htext]
    simp only [hparse, orderOf_eq_evaluate_iff.mpr hfields]

theorem codeOf?_eq_some_iff {request : List UInt8} {code : Text} :
    codeOf? request = some code ↔ AsksFor request code := by
  rw [← readOrder_eq_evaluate_iff, codeOf?]
  cases readOrder ⟨request.toArray⟩ with
  | error e => simp
  | ok order => cases order <;> simp

/-- The session after code has been evaluated, one text after the other. -/
def evaluateCodes (session : Session) (codes : List Text) : Session :=
  codes.foldl (fun session code => (session.evaluateLast false code).2) session

/-- The session after some requests. -/
def sessionAfter (session : Session) (requests : List (List UInt8)) : Session :=
  evaluateCodes session (requests.filterMap codeOf?)

/-- A request changes the session by the evaluation of its code and by nothing else. -/
theorem handle_session (request : List UInt8) (session : Session) :
    (handle ⟨request.toArray⟩ session).2 = sessionAfter session [request] := by
  rw [sessionAfter, List.filterMap_cons, codeOf?, handle]
  cases readOrder ⟨request.toArray⟩ with
  | error e => rfl
  | ok order => cases order <;> rfl

theorem sessionAfter_cons (session : Session) (request : List UInt8)
    (rest : List (List UInt8)) :
    sessionAfter session (request :: rest) =
      sessionAfter (handle ⟨request.toArray⟩ session).2 rest := by
  rw [handle_session, sessionAfter, sessionAfter, sessionAfter, evaluateCodes, evaluateCodes,
    evaluateCodes, ← List.foldl_append, ← List.filterMap_append]
  rfl

/-- An exchange that answers requests one after the other, up to the first that fails.  Nothing is
evaluated but the code of the answered requests and of the one that failed. -/
structure Exchange.Answers (exchange : Exchange) (requests : List (List UInt8))
    (session : Session) : Prop where
  sent : ∀ i response, exchange.sent[i]? = some response →
    ∃ request, requests[i]? = some request ∧
      (handle ⟨request.toArray⟩ (sessionAfter session (requests.take i))).1 = .ok response
  complete : exchange.failure = none → exchange.sent.length = requests.length
  failed : ∀ e, exchange.failure = some e →
    ∃ request, requests[exchange.sent.length]? = some request ∧
      (handle ⟨request.toArray⟩
        (sessionAfter session (requests.take exchange.sent.length))).1 = .error e
  session : exchange.session =
    sessionAfter session (requests.take (exchange.sent.length + 1))

theorem Exchange.Answers.of_error {request : List UInt8} {session session' : Session} {e : Failure}
    (h : handle ⟨request.toArray⟩ session = (.error e, session'))
    (rest : List (List UInt8)) :
    Exchange.Answers { failure := some e, session := session' } (request :: rest) session where
  sent i response hi := by simp at hi
  complete hnone := by cases hnone
  failed e' he' := by
    obtain rfl := Option.some.inj he'
    exact ⟨request, rfl, congrArg Prod.fst h⟩
  session := by
    rw [List.length_nil, List.take_succ_cons, List.take_zero, ← handle_session, h]

theorem Exchange.Answers.cons {exchange : Exchange} {request : List UInt8}
    {requests : List (List UInt8)} {session session' : Session} {response : Response}
    (hfirst : handle ⟨request.toArray⟩ session = (.ok response, session'))
    (h : exchange.Answers requests session') :
    Exchange.Answers { exchange with sent := response :: exchange.sent } (request :: requests)
      session := by
  have hafter : ∀ n, sessionAfter session ((request :: requests).take (n + 1)) =
      sessionAfter session' (requests.take n) := by
    intro n
    rw [List.take_succ_cons, sessionAfter_cons, hfirst]
  refine ⟨?_, ?_, ?_, ?_⟩
  · intro i other hi
    cases i with
    | zero =>
      obtain rfl := Option.some.inj hi
      exact ⟨request, rfl, congrArg Prod.fst hfirst⟩
    | succ i =>
      rw [hafter]
      exact h.sent i other hi
  · exact fun hnone => congrArg (· + 1) (h.complete hnone)
  · intro e he
    simp only [List.length_cons]
    rw [hafter]
    exact h.failed e he
  · simp only [List.length_cons]
    rw [hafter]
    exact h.session

theorem answers_answerLines (lines : List (List UInt8)) (session : Session) :
    (answerLines lines session).Answers (requestsIn lines) session := by
  induction lines generalizing session with
  | nil => exact ⟨by simp [answerLines], fun _ => rfl, by simp [answerLines], rfl⟩
  | cons line rest ih =>
    rw [answerLines]
    split
    · rename_i hblank
      have hrequests : requestsIn (line :: rest) = requestsIn rest := by
        simp [requestsIn, hblank]
      rw [hrequests]
      exact ih session
    · rename_i hrequest
      have hrequests : requestsIn (line :: rest) =
          Text.stripBy isMargin line :: requestsIn rest := by
        simp [requestsIn, hrequest]
      rw [hrequests]
      cases hhandle : handle ⟨(Text.stripBy isMargin line).toArray⟩ session with
      | mk result session' =>
        cases result with
        | error e => exact .of_error hhandle _
        | ok response => exact (ih session').cons hhandle

end Requests

theorem lineFeed_not_mem_hexDigits (width n : Nat) :
    CodePoint.scalar '\n' ∉ Text.hexDigits width n := by
  induction width generalizing n with
  | zero => exact List.not_mem_nil
  | succ width ih =>
    have hdigit : ∀ digit < 16, CodePoint.scalar '\n' ≠ Text.hexDigit digit := by decide
    rw [Text.hexDigits, List.mem_append, List.mem_singleton, not_or]
    exact ⟨ih _, hdigit _ (Nat.mod_lt n (by decide))⟩

theorem lineFeed_not_mem_jsonPoint (c : CodePoint) : CodePoint.scalar '\n' ∉ jsonPoint c := by
  have hunit : ∀ unit, CodePoint.scalar '\n' ∉ unitEscape unit := by
    intro unit hmem
    rcases List.mem_append.mp hmem with hmem | hmem
    · revert hmem
      decide
    · exact lineFeed_not_mem_hexDigits _ _ hmem
  by_cases hc : CodePoint.scalar '\n' = c
  · subst hc
    decide
  · have hself : CodePoint.scalar '\n' ∉ [c] := by simpa using hc
    rw [jsonPoint]
    split_ifs
    · rw [List.mem_cons, not_or]
      exact ⟨by decide, hself⟩
    · decide
    · decide
    · decide
    · decide
    · decide
    · exact hself
    · exact hunit _
    · rw [List.mem_append, not_or]
      exact ⟨hunit _, hunit _⟩

theorem lineFeed_not_mem_jsonString (text : Text) : CodePoint.scalar '\n' ∉ jsonString text := by
  have hquote : CodePoint.scalar '\n' ∉ ("\"" : Text) := by decide
  simp only [jsonString, List.mem_append, List.mem_flatMap, not_or, not_exists, not_and]
  exact ⟨⟨hquote, fun c _ => lineFeed_not_mem_jsonPoint c⟩, hquote⟩

theorem exists_line_of_jsonString {before : Text} (h : CodePoint.scalar '\n' ∉ before)
    (text : Text) : ∃ body, before ++ jsonString text ++ ("\x7d\n" : Text) =
      body ++ [.scalar '\n'] ∧ .scalar '\n' ∉ body := by
  have hbrace : CodePoint.scalar '\n' ∉ ("\x7d" : Text) := by decide
  have hend : ("\x7d\n" : Text) = ("\x7d" : Text) ++ [.scalar '\n'] := by decide
  refine ⟨before ++ jsonString text ++ ("\x7d" : Text), ?_, ?_⟩
  · rw [hend, List.append_assoc (before ++ jsonString text)]
  · simp only [List.mem_append, not_or]
    exact ⟨⟨h, lineFeed_not_mem_jsonString text⟩, hbrace⟩

/-- A response is one line: it ends with a line feed and has no other. -/
theorem exists_line (response : Response) :
    ∃ body, response.line = body ++ [.scalar '\n'] ∧ .scalar '\n' ∉ body := by
  cases response with
  | result shown =>
    cases shown with
    | none => exact ⟨"\x7b\"ok\": true, \"result\": null\x7d", by decide, by decide⟩
    | some shown => exact exists_line_of_jsonString (by decide) shown
  | error text => exact exists_line_of_jsonString (by decide) text

/-- The exchange with a client depends on all its bytes alone. -/
theorem converse_framing (chunks : List (List UInt8)) (session : Session) :
    (∀ chunks' : List (List UInt8), chunks'.flatten = chunks.flatten →
      converse {} chunks' session = converse {} chunks session) ∧
    (converse {} chunks session).Answers (requestsIn (endedLines chunks.flatten)) session ∧
    (∀ request code, codeOf? request = some code ↔ AsksFor request code) ∧
    ∀ response ∈ (converse {} chunks session).sent,
      ∃ body, response.line = body ++ [.scalar '\n'] ∧ .scalar '\n' ∉ body := by
  have hconverse : ∀ chunks : List (List UInt8),
      converse {} chunks session = answerLines (endedLines chunks.flatten) session :=
    fun chunks => converse_eq_answerLines List.not_mem_nil chunks session
  refine ⟨fun chunks' hflatten => ?_, ?_, fun _ _ => codeOf?_eq_some_iff, ?_⟩
  · rw [hconverse, hconverse, hflatten]
  · rw [hconverse]
    exact answers_answerLines _ session
  · exact fun response _ => exists_line response

example :
    requestsIn (endedLines [97, 13, 10, 32, 10, 98, 32, 99, 10, 100]) = [[97], [98, 32, 99]] := by
  decide

end SmallLisp.Server
