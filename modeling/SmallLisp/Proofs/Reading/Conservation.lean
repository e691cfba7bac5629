import SmallLisp.Proofs.Reading.Acceptance
/-!
What becomes of the tokens of a stream.

A stream is followed with its history, the tokens that have been consumed so far.  What reading a
datum consumes is told apart token by token, along the contexts of the reader.  Main statement:
whatever is asked of a stream, and whether or not it succeeds, the consumed tokens, the one in
lookahead and the unread ones are those that there were; a datum that is read consumes the tokens
of one expression, and an expression that is next is read; the data of a stream come to an end.
-/

namespace SmallLisp

open SmallLisp.Derivation

namespace TokenStream

/-- The tokens that reading a datum within the given contexts consumes, up to the last one of the
datum or the one on which it fails. -/
def takenWithin : List Pending → List Token → List Token
  | _, [] => []
  | contexts, t :: rest =>
      match consume contexts t with
      | .pending contexts => t :: takenWithin contexts rest
      | .datum _ | .failed _ true => [t]
      | .failed _ false => []

/-- What can be asked of a stream. -/
inductive Request
  | peek | advance | datum
deriving DecidableEq, Repr

/-- The stream after a request. -/
def Request.leave : Request → TokenStream → TokenStream
  | .peek, s => s.peek.2
  | .advance, s => s.advance.2
  | .datum, s => s.readDatum.2

/-- The tokens that a request consumes: none, the one that it answers, or those of a datum. -/
def Request.taken : Request → TokenStream → List Token
  | .peek, _ => []
  | .advance, s => s.advance.1.toOption.join.toList
  | .datum, s => takenWithin [] s.tokens

/-- A stream and the tokens of it that have been consumed. -/
structure History where
  consumed : List Token := []
  stream : TokenStream

namespace History

/-- A stream of tokens of which none has been consumed. -/
def new (tokens : List Token) : History :=
  { stream := { unread := tokens } }

/-- The history after one more request. -/
def step (h : History) (r : Request) : History :=
  { consumed := h.consumed ++ r.taken h.stream, stream := r.leave h.stream }

/-- The history after more requests. -/
def run (h : History) (requests : List Request) : History :=
  requests.foldl step h

end History

section Reading

variable {failure : Option Failure} {contexts : List Pending} {ts taken : List Token} {v : Value}

/-- How the reading of a datum within the given contexts ends: which tokens it takes, what it
answers, and what it leaves of the stream.  Before its end it only opens and fills contexts. -/
inductive Ends (failure : Option Failure) (contexts : List Pending) :
    (ts taken : List Token) → Except Failure (Option Value) → TokenStream → Prop
  | datum {before rest : List Token} {inner : List Pending} {t : Token} {v : Value}
      (hrun : Reader.run ⟨#[], contexts⟩ before = .ok ⟨#[], inner⟩)
      (hlast : consume inner t = .datum v) :
      Ends failure contexts (before ++ t :: rest) (before ++ [t]) (.ok (some v))
        { unread := rest, failure }
  /-- A failure on a token that is consumed. -/
  | failed {before rest : List Token} {inner : List Pending} {t : Token} {e : Failure}
      (hrun : Reader.run ⟨#[], contexts⟩ before = .ok ⟨#[], inner⟩)
      (hlast : consume inner t = .failed e true) :
      Ends failure contexts (before ++ t :: rest) (before ++ [t]) (.error e)
        { unread := rest, failure }
  /-- A failure on a token that stays in the stream. -/
  | stuck {before rest : List Token} {inner : List Pending} {t : Token} {e : Failure}
      (hrun : Reader.run ⟨#[], contexts⟩ before = .ok ⟨#[], inner⟩)
      (hlast : consume inner t = .failed e false) :
      Ends failure contexts (before ++ t :: rest) before (.error e)
        { lookahead := some t, unread := rest, failure }
  | exhausted {ts : List Token} {inner : List Pending}
      (hrun : Reader.run ⟨#[], contexts⟩ ts = .ok ⟨#[], inner⟩) :
      Ends failure contexts ts ts (failure.elim (atEnd inner) .error) { unread := [] }

theorem run_cons_pending {t : Token} {inner inner' : List Pending}
    (ht : consume contexts t = .pending inner)
    (hrun : Reader.run ⟨#[], inner⟩ ts = .ok ⟨#[], inner'⟩) :
    Reader.run ⟨#[], contexts⟩ (t :: ts) = .ok ⟨#[], inner'⟩ := by
  have htake : Reader.take ⟨#[], contexts⟩ t = .ok ⟨#[], inner⟩ := by
    rw [Reader.take, ht, Reader.settle]
  rw [Reader.run_cons, htake]
  exact hrun

/-- One more token before the others. -/
theorem Ends.cons {t : Token} {inner : List Pending} {result : Except Failure (Option Value)}
    {left : TokenStream} (ht : consume contexts t = .pending inner)
    (h : Ends failure inner ts taken result left) :
    Ends failure contexts (t :: ts) (t :: taken) result left := by
  cases h with
  | datum hrun hlast => exact .datum (run_cons_pending ht hrun) hlast
  | failed hrun hlast => exact .failed (run_cons_pending ht hrun) hlast
  | stuck hrun hlast => exact .stuck (run_cons_pending ht hrun) hlast
  | exhausted hrun => exact .exhausted (run_cons_pending ht hrun)

/-- Reading goes token by token: those that leave a context open, and the one that ends it. -/
theorem ends_readWithin (failure : Option Failure) (contexts : List Pending) (ts : List Token) :
    Ends failure contexts ts (takenWithin contexts ts) (readWithin failure contexts ts).1
      (readWithin failure contexts ts).2 := by
  induction ts generalizing contexts with
  | nil => exact .exhausted rfl
  | cons t rest ih =>
    have hnone : Reader.run ⟨#[], contexts⟩ [] = .ok ⟨#[], contexts⟩ := rfl
    rw [takenWithin, readWithin]
    cases hconsume : consume contexts t with
    | pending inner => exact (ih inner).cons hconsume
    | datum v => exact .datum hnone hconsume
    | failed e consumed =>
      cases consumed with
      | true => exact .failed hnone hconsume
      | false => exact .stuck hnone hconsume

/-- Only a closing bracket is stray, and it is not consumed. -/
theorem strayCloser_of_consume {t : Token} {text : Text} {consumed : Bool}
    (h : consume contexts t = .failed (.fault (.strayCloser text)) consumed) :
    t = ⟨.closer, text⟩ ∧ consumed = false := by
  have htake : Reader.take ⟨#[], contexts⟩ t = .error (.fault (.strayCloser text)) := by
    rw [Reader.take, h, Reader.settle]
  cases Reader.refuses_of_take htake with
  | atom hatom =>
    rcases readAtom_eq_error hatom with ⟨-, -, hstray⟩ | ⟨-, hstray⟩ | ⟨-, hstray⟩ <;> cases hstray
  | strayCloser hopen =>
    rcases contexts with _ | ⟨_ | ⟨opener, closer, items⟩, outer⟩
    · cases h
      exact ⟨rfl, rfl⟩
    · cases h
      exact ⟨rfl, rfl⟩
    · exact absurd rfl hopen

namespace Ends

variable {result : Except Failure (Option Value)} {left : TokenStream}

theorem append_tokens (h : Ends failure contexts ts taken result left) :
    taken ++ left.tokens = ts := by
  cases h <;> simp [TokenStream.tokens]

theorem failure_eq_none (h : Ends none contexts ts taken result left) : left.failure = none := by
  cases h <;> rfl

/-- What a datum takes are the tokens of one expression with this value. -/
theorem exists_derivation (h : Ends failure [] ts taken result left)
    (hresult : result = .ok (some v)) : ∃ d : Derivation, d.value = v ∧ taken = d.tokens := by
  cases h with
  | @datum before rest inner t w hrun hlast =>
    cases hresult
    have hall : Reader.run {} (before ++ [t]) = .ok { done := #[v] } := by
      rw [Reader.run_append, hrun]
      change Reader.run ⟨#[], inner⟩ [t] = _
      rw [Reader.run_singleton, Reader.take, hlast]
      rfl
    obtain ⟨program, htokens, hvalues⟩ := exists_program_of_run hall
    obtain ⟨d, others, rfl, hd, hothers⟩ := List.map_eq_cons_iff.mp hvalues
    obtain rfl := List.map_eq_nil_iff.mp hothers
    exact ⟨d, hd, by rw [← htokens, List.flatMap_singleton]⟩
  | failed | stuck => cases hresult
  | @exhausted _ inner =>
    cases failure with
    | some e => cases hresult
    | none => rcases inner with _ | ⟨_ | _, _⟩ <;> cases hresult

/-- There is no datum only where there is no token. -/
theorem eq_nil (h : Ends failure [] ts taken result left) (hresult : result = .ok none) :
    ts = [] := by
  cases h with
  | datum | failed | stuck => cases hresult
  | @exhausted _ inner hrun =>
    cases failure with
    | some e => cases hresult
    | none =>
      rcases inner with _ | ⟨_ | _, _⟩
      · obtain ⟨program, rfl, hvalues⟩ := exists_program_of_run hrun
        obtain rfl := List.map_eq_nil_iff.mp hvalues
        rfl
      · cases hresult
      · cases hresult

/-- A stray closing bracket stays in the stream. -/
theorem exists_left {text : Text} (h : Ends none contexts ts taken result left)
    (hresult : result = .error (.fault (.strayCloser text))) :
    ∃ rest, left = { lookahead := some ⟨.closer, text⟩, unread := rest } := by
  cases h with
  | datum => cases hresult
  | failed _ hlast =>
    cases hresult
    exact absurd (strayCloser_of_consume hlast).2 Bool.noConfusion
  | stuck hrun hlast =>
    cases hresult
    obtain ⟨rfl, -⟩ := strayCloser_of_consume hlast
    exact ⟨_, rfl⟩
  | @exhausted _ inner => rcases inner with _ | ⟨_ | _, _⟩ <;> cases hresult

end Ends

/-- A reader that gets a datum from tokens has got it from the first part of them, whatever comes
after these tokens. -/
theorem exists_read_of_run (failure : Option Failure) {done : Array Value} {r : Reader}
    (hrun : Reader.run ⟨done, contexts⟩ ts = .ok r) (hdone : r.done ≠ done) (rest : List Token) :
    ∃ v before after, ts = before ++ after ∧ takenWithin contexts (ts ++ rest) = before ∧
      (readWithin failure contexts (ts ++ rest)).1 = .ok (some v) := by
  induction ts generalizing contexts with
  | nil =>
    cases hrun
    exact absurd rfl hdone
  | cons t others ih =>
    obtain ⟨mid, ht, hothers⟩ := Reader.run_cons_eq_ok hrun
    rw [List.cons_append, takenWithin, readWithin]
    rw [Reader.take] at ht
    cases hconsume : consume contexts t with
    | pending inner =>
      rw [hconsume] at ht
      cases ht
      obtain ⟨v, before, after, rfl, htaken, hread⟩ := ih hothers
      exact ⟨v, t :: before, after, rfl, congrArg (t :: ·) htaken, hread⟩
    | datum v => exact ⟨v, [t], others, rfl, rfl, rfl⟩
    | failed e consumed =>
      rw [hconsume] at ht
      cases ht

/-- An expression that comes next is read, unless it is nested too deep. -/
theorem readWithin_derivation (failure : Option Failure) (d : Derivation) (rest : List Token)
    (hnesting : nesting d.tokens ≤ readingDepth) :
    (readWithin failure [] (d.tokens ++ rest)).1 = .ok (some d.value) ∧
      takenWithin [] (d.tokens ++ rest) = d.tokens := by
  have hdeep := Reader.run_ne_nestingTooDeep (r := {}) hnesting
  have hrun := run_program [d] #[]
  rw [List.flatMap_singleton] at hrun
  have hread := hrun.eq_of_ne hdeep
  obtain ⟨v, before, after, hsplit, htaken, hread⟩ :=
    exists_read_of_run failure hread (by simp) rest
  obtain ⟨d', rfl, htokens⟩ := (ends_readWithin _ _ _).exists_derivation hread
  -- The expression that has been read begins where this one does, so it is this one.
  have hsame : d'.tokens ++ after = d.tokens ++ [] := by
    rw [← htokens, htaken, List.append_nil, hsplit]
  obtain ⟨rfl, -⟩ := Derivation.eq_of_append_eq d' d hsame
  exact ⟨hread, htokens⟩

/-- The data that were read before come before those of the tokens. -/
theorem readAllWithin_done (failure : Option Failure) (done : Array Value)
    (contexts : List Pending) (ts : List Token) :
    readAllWithin failure done contexts ts =
      (readAllWithin failure #[] contexts ts).map (done.toList ++ ·) := by
  induction ts generalizing done contexts with
  | nil =>
    rw [readAllWithin, readAllWithin]
    cases failure.elim (atEnd contexts) .error with
    | error e => rfl
    | ok datum => simp [Except.map]
  | cons t rest ih =>
    rw [readAllWithin, readAllWithin]
    cases consume contexts t with
    | pending inner => exact ih done inner
    | datum v =>
      simp only [ih (done.push v) [], ih (#[].push v) []]
      cases readAllWithin failure #[] [] rest <;> simp [Except.map]
    | failed e consumed => rfl

/-- The data of tokens are the first datum and those of what comes after it. -/
theorem readAllWithin_eq_read (failure : Option Failure) (contexts : List Pending)
    (ts : List Token) :
    readAllWithin failure #[] contexts ts =
      (readWithin failure contexts ts).1 >>= fun datum =>
        datum.elim (.ok []) fun v => (readWithin failure contexts ts).2.readAll.map (v :: ·) := by
  induction ts generalizing contexts with
  | nil =>
    rw [readAllWithin, readWithin]
    cases failure with
    | some e => rfl
    | none => rcases contexts with _ | ⟨_ | _, _⟩ <;> rfl
  | cons t rest ih =>
    rw [readAllWithin, readWithin]
    cases consume contexts t with
    | pending inner => exact ih inner
    | datum v => exact readAllWithin_done failure #[v] [] rest
    | failed e consumed => cases consumed <;> rfl

theorem readAll_eq_read (s : TokenStream) :
    s.readAll = s.readDatum.1 >>= fun datum =>
      datum.elim (.ok []) fun v => s.readDatum.2.readAll.map (v :: ·) :=
  readAllWithin_eq_read s.failure [] s.tokens

end Reading

section Requests

variable {s : TokenStream}

theorem peek_eq (h : s.failure = none) : s.peek.1 = .ok s.tokens.head? := by
  obtain ⟨lookahead, unread, failure⟩ := s
  obtain rfl : failure = none := h
  cases lookahead <;> cases unread <;> rfl

theorem advance_eq (h : s.failure = none) : s.advance.1 = .ok s.tokens.head? := by
  obtain ⟨lookahead, unread, failure⟩ := s
  obtain rfl : failure = none := h
  cases lookahead <;> cases unread <;> rfl

/-- A request loses no token. -/
theorem Request.taken_append (r : Request) (s : TokenStream) :
    r.taken s ++ (r.leave s).tokens = s.tokens := by
  cases r with
  | datum => exact (ends_readWithin s.failure [] s.tokens).append_tokens
  | peek | advance =>
    obtain ⟨lookahead, unread, failure⟩ := s
    cases lookahead <;> cases unread <;> cases failure <;> rfl

theorem Request.failure_leave (r : Request) (h : s.failure = none) :
    (r.leave s).failure = none := by
  cases r with
  | datum =>
    rw [leave, readDatum, h]
    exact (ends_readWithin _ _ _).failure_eq_none
  | peek | advance =>
    obtain ⟨lookahead, unread, failure⟩ := s
    obtain rfl : failure = none := h
    cases lookahead <;> cases unread <;> rfl

/-- The history of a stream of these tokens. -/
structure History.Keeps (h : History) (tokens : List Token) : Prop where
  conserved : h.consumed ++ h.stream.tokens = tokens
  failure : h.stream.failure = none

variable {h : History} {tokens : List Token}

theorem History.keeps_new (tokens : List Token) : (new tokens).Keeps tokens :=
  ⟨rfl, rfl⟩

theorem History.Keeps.step (hkeeps : h.Keeps tokens) (r : Request) : (h.step r).Keeps tokens where
  conserved := by
    rw [History.step, List.append_assoc, r.taken_append]
    exact hkeeps.conserved
  failure := r.failure_leave hkeeps.failure

theorem History.Keeps.run (hkeeps : h.Keeps tokens) (requests : List Request) :
    (h.run requests).Keeps tokens := by
  induction requests generalizing h with
  | nil => exact hkeeps
  | cons r rest ih => exact ih (hkeeps.step r)

/-- While nothing more is consumed, the same tokens are to come. -/
theorem History.Keeps.tokens_run (hkeeps : h.Keeps tokens) {requests : List Request}
    (hsame : (h.run requests).consumed = h.consumed) :
    (h.run requests).stream.tokens = h.stream.tokens := by
  have hlater := (hkeeps.run requests).conserved
  rw [hsame, ← hkeeps.conserved] at hlater
  exact List.append_cancel_left hlater

/-- All tokens have been consumed if none are left. -/
theorem History.Keeps.consumed_eq_iff (hkeeps : h.Keeps tokens) :
    h.consumed = tokens ↔ h.stream.tokens = [] := by
  rw [← hkeeps.conserved, List.self_eq_append_right]

end Requests

end TokenStream

namespace DatumSequence

/-- The first answers of a sequence, and what is left of it. -/
def answers : Nat → DatumSequence → List (Except Failure (Option Value)) × DatumSequence
  | 0, q => ([], q)
  | n + 1, q => (q.next.1 :: (answers n q.next.2).1, (answers n q.next.2).2)

/-- A sequence answers with these data and then, once, with the end of its stream or with the
failure for which the data cannot be read. -/
structure EndsAfter (q : DatumSequence) (vs : List Value)
    (last : Except Failure (Option Value)) : Prop where
  answers : (q.answers (vs.length + 1)).1 = vs.map (fun v => .ok (some v)) ++ [last]
  ended : (q.answers (vs.length + 1)).2.ended = true
  last_ne : ∀ v, last ≠ .ok (some v)
  readAll : q.stream.readAll = last.map fun _ => vs

section Ends

variable {s : TokenStream} {v : Value} {vs : List Value} {last : Except Failure (Option Value)}

theorem next_of_read (hread : s.readDatum.1 = .ok (some v)) :
    next { stream := s } = (.ok (some v), { stream := s.readDatum.2 }) := by
  rcases hresult : s.readDatum with ⟨result, rest⟩
  rw [hresult] at hread
  obtain rfl : result = .ok (some v) := hread
  simp [next, hresult]

theorem next_of_last (hread : s.readDatum.1 = last) (hlast : ∀ v, last ≠ .ok (some v)) :
    next { stream := s } = (last, { stream := s.readDatum.2, ended := true }) := by
  rcases hresult : s.readDatum with ⟨result, rest⟩
  rw [hresult] at hread
  obtain rfl : result = last := hread
  rcases result with e | _ | v
  · simp [next, hresult]
  · simp [next, hresult]
  · exact absurd rfl (hlast v)

theorem endsAfter_nil (hread : s.readDatum.1 = last) (hlast : ∀ v, last ≠ .ok (some v)) :
    EndsAfter { stream := s } [] last where
  answers := by
    rw [List.length_nil, DatumSequence.answers, next_of_last hread hlast]
    rfl
  ended := by
    rw [List.length_nil, DatumSequence.answers, next_of_last hread hlast]
    rfl
  last_ne := hlast
  readAll := by
    rw [TokenStream.readAll_eq_read, hread]
    rcases last with e | _ | v
    · rfl
    · rfl
    · exact absurd rfl (hlast v)

theorem EndsAfter.cons (hread : s.readDatum.1 = .ok (some v))
    (hrest : EndsAfter { stream := s.readDatum.2 } vs last) :
    EndsAfter { stream := s } (v :: vs) last where
  answers := by
    rw [List.length_cons, DatumSequence.answers, next_of_read hread, hrest.answers]
    rfl
  ended := by
    rw [List.length_cons, DatumSequence.answers, next_of_read hread]
    exact hrest.ended
  last_ne := hrest.last_ne
  readAll := by
    have hlater : s.readDatum.2.readAll = last.map fun _ => vs := hrest.readAll
    rw [TokenStream.readAll_eq_read, hread]
    change Except.map (v :: ·) s.readDatum.2.readAll = _
    rw [hlater]
    cases last <;> rfl

/-- The data of a stream come to an end: each of them consumes a token. -/
theorem exists_endsAfter (s : TokenStream) :
    ∃ vs last, vs.length ≤ s.tokens.length ∧ EndsAfter { stream := s } vs last := by
  induction hcount : s.tokens.length using Nat.strongRecOn generalizing s with
  | ind count ih =>
    by_cases hread : ∃ v, s.readDatum.1 = .ok (some v)
    · obtain ⟨v, hread⟩ := hread
      obtain ⟨d, -, htaken⟩ := (TokenStream.ends_readWithin _ _ _).exists_derivation hread
      have hkept := congrArg List.length
        (TokenStream.ends_readWithin s.failure [] s.tokens).append_tokens
      obtain ⟨t, rest, htokens, -⟩ := d.exists_tokens_eq_cons
      rw [htaken, htokens, List.length_append, List.length_cons] at hkept
      have hfewer : s.readDatum.2.tokens.length < count := by
        rw [TokenStream.readDatum]
        omega
      obtain ⟨vs, last, hlength, hends⟩ := ih _ hfewer s.readDatum.2 rfl
      refine ⟨v :: vs, last, ?_, hends.cons hread⟩
      rw [List.length_cons]
      omega
    · refine ⟨[], s.readDatum.1, Nat.zero_le _, endsAfter_nil rfl fun v hv => ?_⟩
      exact hread ⟨v, hv⟩

end Ends

end DatumSequence

namespace TokenStream

/-- What a history of requests to a stream of tokens keeps, and what the next request does. -/
structure History.Conserves (h : History) (tokens : List Token) : Prop where
  lookahead : h.stream.lookahead.toList.length ≤ 1
  conserved : h.consumed ++ h.stream.lookahead.toList ++ h.stream.unread = tokens
  /-- Looking at the next token consumes nothing and answers the same until something is
  consumed. -/
  peeks : (h.step .peek).consumed = h.consumed ∧ ∃ next : Option Token,
    h.stream.peek.1 = .ok next ∧ ∀ later : List Request,
      (h.run later).consumed = h.consumed → (h.run later).stream.peek.1 = .ok next
  /-- Advancing consumes the token that a look at it shows. -/
  advances : ∃ next : Option Token, h.stream.peek.1 = .ok next ∧
    h.stream.advance.1 = .ok next ∧ (h.step .advance).consumed = h.consumed ++ next.toList
  /-- A datum that is read is that of one expression, the tokens of which are consumed. -/
  reads : ∀ v, h.stream.readDatum.1 = .ok (some v) → ∃ d : Derivation, d.value = v ∧
    d.tokens ≠ [] ∧ (h.step .datum).consumed = h.consumed ++ d.tokens
  /-- An expression that comes next is read. -/
  accepts : ∀ (d : Derivation) (rest : List Token), nesting d.tokens ≤ readingDepth →
    h.stream.lookahead.toList ++ h.stream.unread = d.tokens ++ rest →
    h.stream.readDatum.1 = .ok (some d.value) ∧
      (h.step .datum).consumed = h.consumed ++ d.tokens
  /-- There is no datum only at the end, and nothing is consumed there. -/
  ends : h.stream.readDatum.1 = .ok none ↔ h.consumed = tokens
  endsQuietly : h.consumed = tokens → (h.step .datum).consumed = h.consumed
  /-- A stray closing bracket is left where it is, and the same failure comes again. -/
  strays : ∀ text, h.stream.readDatum.1 = .error (.fault (.strayCloser text)) →
    (∃ rest, (h.step .datum).consumed ++ ⟨.closer, text⟩ :: rest = tokens) ∧
      (h.step .datum).stream.readDatum =
        (.error (.fault (.strayCloser text)), (h.step .datum).stream)
  /-- The data from here on come to an end, after which there are no more. -/
  stops : ∃ vs last, vs.length ≤ tokens.length ∧
    DatumSequence.EndsAfter { stream := h.stream } vs last

/-- The laws of streams, from what every request keeps. -/
theorem History.Keeps.conserves {h : History} {tokens : List Token} (hkeeps : h.Keeps tokens) :
    h.Conserves tokens where
  lookahead := Option.length_toList_le
  conserved := by
    rw [List.append_assoc]
    exact hkeeps.conserved
  peeks := by
    refine ⟨List.append_nil _, h.stream.tokens.head?, peek_eq hkeeps.failure, ?_⟩
    intro later hsame
    rw [peek_eq (hkeeps.run later).failure, hkeeps.tokens_run hsame]
  advances := by
    have hadvance := advance_eq hkeeps.failure
    refine ⟨h.stream.tokens.head?, peek_eq hkeeps.failure, hadvance, ?_⟩
    rw [History.step, Request.taken, hadvance]
    rfl
  reads := by
    intro v hread
    obtain ⟨d, hvalue, htaken⟩ := (ends_readWithin _ _ _).exists_derivation hread
    obtain ⟨t, rest, htokens, -⟩ := d.exists_tokens_eq_cons
    refine ⟨d, hvalue, ?_, congrArg (h.consumed ++ ·) htaken⟩
    rw [htokens]
    exact List.cons_ne_nil t rest
  accepts := by
    intro d rest hnesting htokens
    obtain ⟨hread, htaken⟩ := readWithin_derivation h.stream.failure d rest hnesting
    rw [← htokens] at hread htaken
    exact ⟨hread, congrArg (h.consumed ++ ·) htaken⟩
  ends := by
    rw [hkeeps.consumed_eq_iff]
    constructor
    · intro hread
      exact (ends_readWithin _ _ _).eq_nil hread
    · intro hnil
      rw [readDatum, hnil, hkeeps.failure]
      rfl
  endsQuietly := by
    intro hall
    rw [History.step, Request.taken, hkeeps.consumed_eq_iff.mp hall]
    exact List.append_nil h.consumed
  strays := by
    intro text hread
    rw [readDatum, hkeeps.failure] at hread
    obtain ⟨rest, hstays⟩ := (ends_readWithin _ _ _).exists_left hread
    have hleft : (h.step .datum).stream =
        { lookahead := some ⟨.closer, text⟩, unread := rest } := by
      rw [← hstays, ← hkeeps.failure]
      rfl
    refine ⟨⟨rest, ?_⟩, ?_⟩
    · rw [← (hkeeps.step .datum).conserved, hleft]
      rfl
    · rw [hleft]
      rfl
  stops := by
    obtain ⟨vs, last, hlength, hends⟩ := DatumSequence.exists_endsAfter h.stream
    refine ⟨vs, last, Nat.le_trans hlength ?_, hends⟩
    rw [← hkeeps.conserved, List.length_append]
    exact Nat.le_add_left _ _

/-- Whatever is asked of a stream of tokens, and whether or not it succeeds, no token is lost: those
that have been consumed, the one in lookahead and the unread ones are the tokens that there were.
Each request consumes what its answer shows, and the data of the stream come to an end. -/
theorem requests_conserve (tokens : List Token) (requests : List Request) :
    ((History.new tokens).run requests).Conserves tokens :=
  ((History.keeps_new tokens).run requests).conserves

/-- The tokens of `'a)b`. -/
def closedTooOften : List Token :=
  [⟨.quote, "'"⟩, ⟨.symbol, "a"⟩, ⟨.closer, ")"⟩, ⟨.symbol, "b"⟩]

/-- After the quoted atom the closing bracket is in the way of the rest. -/
theorem requests_conserve_closedTooOften :
    let h := (History.new closedTooOften).run [.peek, .datum, .datum]
    h.consumed = [⟨.quote, "'"⟩, ⟨.symbol, "a"⟩] ∧
      h.stream.readDatum.1 = .error (.fault (.strayCloser ")")) ∧
      (∃ rest, (h.step .datum).consumed ++ ⟨.closer, ")"⟩ :: rest = closedTooOften) ∧
      (h.step .datum).stream.readDatum =
        (.error (.fault (.strayCloser ")")), (h.step .datum).stream) := by
  intro h
  have hstray : h.stream.readDatum.1 = .error (.fault (.strayCloser ")")) := rfl
  have hconserves := requests_conserve closedTooOften [.peek, .datum, .datum]
  exact ⟨rfl, hstray, hconserves.strays ")" hstray⟩

end TokenStream

end SmallLisp
