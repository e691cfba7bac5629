import SmallLisp.Token.Scan
/-!
Data from tokens.

The reader is a pushdown machine: each token either leaves the machine with brackets and quotes
that wait for more, completes a datum, or fails.  `TokenStream.readDatum` takes the tokens of one
datum from a stream and `TokenStream.readAll` those of every datum.
-/

namespace SmallLisp

/-- How deep brackets and quotes may be nested in source. -/
def readingDepth : Nat := 1000

/-- A context that waits for data. -/
inductive Pending
  /-- A quote mark that waits for its datum. -/
  | quoted
  /-- A bracket that waits for more elements or for its closer. -/
  | bracket (opener closer : Text) (items : Array Value)

/-- What a token leads to. -/
inductive Progress
  | pending (contexts : List Pending)
  | datum (v : Value)
  /-- A failure; the token may stay in the stream. -/
  | failed (failure : Failure) (consumed : Bool)

/-- A datum after a quote mark. -/
def quoteDatum (v : Value) : Value :=
  .list [.symbol "quote", v]

/-- A finished datum goes to the innermost context. -/
def deliver (v : Value) : List Pending → Progress
  | [] => .datum v
  | .quoted :: outer => deliver (quoteDatum v) outer
  | .bracket opener closer items :: outer =>
      .pending (.bracket opener closer (items.push v) :: outer)

/-- One more context inside the others. -/
def nest (context : Pending) (contexts : List Pending) : Progress :=
  if contexts.length < readingDepth then .pending (context :: contexts)
  else .failed .nestingTooDeep true

/-- What a token leads to within the given contexts, innermost first. -/
def consume (contexts : List Pending) (t : Token) : Progress :=
  match t.kind with
  | .symbol =>
      match readAtom t.text with
      | .ok v => deliver v contexts
      | .error failure => .failed failure true
  | .quote => nest .quoted contexts
  | .opener =>
      match closerOf? t.text with
      | some closer => nest (.bracket t.text closer #[]) contexts
      | none => .failed .unknownBracket true
  | .closer =>
      match contexts with
      | .bracket opener closer items :: outer =>
          if t.text = closer then deliver (.list items.toList) outer
          else .failed (.fault (.mismatched opener closer t.text)) true
      | _ => .failed (.fault (.strayCloser t.text)) false
  | .other kind => .failed (.fault (.unknownToken kind t.text)) false

/-- The outcome of reading a datum at the end of the tokens: there is none, or the innermost
context is incomplete. -/
def atEnd : List Pending → Except Failure (Option Value)
  | [] => .ok none
  | .quoted :: _ => .error (.fault .nothingQuoted)
  | .bracket opener _ _ :: _ => .error (.fault (.unclosed opener))

/-- Tokens that are taken one at a time, with one token of lookahead.  A failure of the source of
the tokens comes after the last of them, once. -/
structure TokenStream where
  lookahead : Option Token := none
  unread : List Token
  failure : Option Failure := none
deriving DecidableEq, Repr

namespace TokenStream

/-- The stream of the tokens of a source text. -/
def ofSource (source : Text) : TokenStream :=
  let lexed := lex source
  { unread := lexed.tokens, failure := lexed.failure }

/-- The tokens that are still to come. -/
def tokens (s : TokenStream) : List Token :=
  s.lookahead.toList ++ s.unread

/-- The next token, if there is one, left where it is. -/
def peek (s : TokenStream) : Except Failure (Option Token) × TokenStream :=
  match s.lookahead, s.unread, s.failure with
  | some t, _, _ => (.ok (some t), s)
  | none, t :: rest, _ => (.ok (some t), { s with lookahead := some t, unread := rest })
  | none, [], some failure => (.error failure, { s with failure := none })
  | none, [], none => (.ok none, s)

/-- The next token, if there is one, taken from the stream. -/
def advance (s : TokenStream) : Except Failure (Option Token) × TokenStream :=
  match s.lookahead, s.unread, s.failure with
  | some t, _, _ => (.ok (some t), { s with lookahead := none })
  | none, t :: rest, _ => (.ok (some t), { s with unread := rest })
  | none, [], some failure => (.error failure, { s with failure := none })
  | none, [], none => (.ok none, s)

/-- The rest of a datum within the given contexts, and the stream after it. -/
def readWithin (failure : Option Failure) :
    List Pending → List Token → Except Failure (Option Value) × TokenStream
  | contexts, [] => (failure.elim (atEnd contexts) .error, { unread := [] })
  | contexts, t :: rest =>
      match consume contexts t with
      | .pending contexts => readWithin failure contexts rest
      | .datum v => (.ok (some v), { unread := rest, failure })
      | .failed e true => (.error e, { unread := rest, failure })
      | .failed e false => (.error e, { lookahead := some t, unread := rest, failure })

/-- The next datum, or none at the end. -/
def readDatum (s : TokenStream) : Except Failure (Option Value) × TokenStream :=
  readWithin s.failure [] s.tokens

/-- The data from here on, after those read before and within the given contexts. -/
def readAllWithin (failure : Option Failure) :
    Array Value → List Pending → List Token → Except Failure (List Value)
  | done, contexts, [] =>
      match failure.elim (atEnd contexts) .error with
      | .ok _ => .ok done.toList
      | .error e => .error e
  | done, contexts, t :: rest =>
      match consume contexts t with
      | .pending contexts => readAllWithin failure done contexts rest
      | .datum v => readAllWithin failure (done.push v) [] rest
      | .failed e _ => .error e

/-- Every datum of the stream. -/
def readAll (s : TokenStream) : Except Failure (List Value) :=
  readAllWithin s.failure #[] [] s.tokens

end TokenStream

/-- The data of a stream one after the other.  The sequence is over for good after the last datum
or the first failure. -/
structure DatumSequence where
  stream : TokenStream
  ended : Bool := false

/-- The next datum of a sequence, or none when it is over. -/
def DatumSequence.next (q : DatumSequence) : Except Failure (Option Value) × DatumSequence :=
  if q.ended then (.ok none, q)
  else
    match q.stream.readDatum with
    | (.ok (some v), stream) => (.ok (some v), { stream })
    | (result, stream) => (result, { stream, ended := true })

/-- Every datum of a source text.  A failure anywhere in the text leaves none. -/
def parse (source : Text) : Except Failure (List Value) :=
  (TokenStream.ofSource source).readAll

end SmallLisp
