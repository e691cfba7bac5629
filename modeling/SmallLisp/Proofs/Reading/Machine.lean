import SmallLisp.Reading
/-!
The reader as a fold over tokens.

A reader holds the data that are complete and the contexts that are still open.  Reading tokens one
after the other composes, and the open contexts can be told from the tokens alone: how many quotes
and brackets there are, in which order, and whether a quote is the last of them.
-/

namespace SmallLisp

/-- What reading has come to: the complete data and the open contexts, innermost first. -/
structure Reader where
  done : Array Value := #[]
  contexts : List Pending := []

namespace Reader

/-- The reader after what a token has led to. -/
def settle (r : Reader) : Progress → Except Failure Reader
  | .pending contexts => .ok { r with contexts }
  | .datum v => .ok { done := r.done.push v }
  | .failed e _ => .error e

/-- The reader after one more token. -/
def take (r : Reader) (t : Token) : Except Failure Reader :=
  r.settle (consume r.contexts t)

/-- The reader after more tokens. -/
def run (r : Reader) (ts : List Token) : Except Failure Reader :=
  ts.foldlM take r

/-- The data that have been read, at the end of the tokens. -/
def finish (r : Reader) : Except Failure (List Value) :=
  (atEnd r.contexts).map fun _ => r.done.toList

@[simp] theorem run_nil (r : Reader) : r.run [] = .ok r :=
  rfl

theorem run_cons (r : Reader) (t : Token) (ts : List Token) :
    r.run (t :: ts) = r.take t >>= fun r' => r'.run ts :=
  List.foldlM_cons

theorem run_append (r : Reader) (ts us : List Token) :
    r.run (ts ++ us) = r.run ts >>= fun r' => r'.run us :=
  List.foldlM_append

theorem run_singleton (r : Reader) (t : Token) : r.run [t] = r.take t := by
  rw [run_cons]
  cases r.take t <;> rfl

/-- Tokens that were read after others: the others were read before them. -/
theorem run_append_eq_ok {r r' : Reader} {ts us : List Token} (h : r.run (ts ++ us) = .ok r') :
    ∃ mid, r.run ts = .ok mid ∧ mid.run us = .ok r' := by
  rw [run_append] at h
  cases hts : r.run ts with
  | error e =>
    rw [hts] at h
    cases h
  | ok mid =>
    rw [hts] at h
    exact ⟨mid, rfl, h⟩

theorem run_cons_eq_ok {r r' : Reader} {t : Token} {ts : List Token}
    (h : r.run (t :: ts) = .ok r') : ∃ mid, r.take t = .ok mid ∧ mid.run ts = .ok r' := by
  rw [← List.singleton_append] at h
  obtain ⟨mid, ht, hts⟩ := run_append_eq_ok h
  exact ⟨mid, run_singleton r t ▸ ht, hts⟩

/-- The first token on which a reader fails. -/
theorem exists_of_run_eq_error {r : Reader} {ts : List Token} {e : Failure}
    (h : r.run ts = .error e) : ∃ before t after mid,
      ts = before ++ t :: after ∧ r.run before = .ok mid ∧ mid.take t = .error e := by
  induction ts generalizing r with
  | nil => cases h
  | cons t rest ih =>
    rw [run_cons] at h
    cases ht : r.take t with
    | error e' =>
      rw [ht] at h
      cases h
      exact ⟨[], t, rest, r, rfl, rfl, ht⟩
    | ok r' =>
      rw [ht] at h
      obtain ⟨before, u, after, mid, rfl, hbefore, hu⟩ := ih h
      refine ⟨t :: before, u, after, mid, rfl, ?_, hu⟩
      rw [run_cons, ht]
      exact hbefore

theorem run_of_take_eq_error {r mid : Reader} {before : List Token} {t : Token} {e : Failure}
    (hbefore : r.run before = .ok mid) (ht : mid.take t = .error e) (after : List Token) :
    r.run (before ++ t :: after) = .error e := by
  rw [run_append, hbefore]
  change mid.run (t :: after) = .error e
  rw [run_cons, ht]
  rfl

/-- The complete data take no part in reading on. -/
theorem run_done (done : Array Value) (r : Reader) (ts : List Token) :
    run { r with done := done ++ r.done } ts =
      (r.run ts).map fun r' => { r' with done := done ++ r'.done } := by
  induction ts generalizing r with
  | nil => rfl
  | cons t rest ih =>
    simp only [run_cons, take]
    cases consume r.contexts t with
    | pending contexts => exact ih { r with contexts }
    | datum v =>
      have hnext := ih { done := r.done.push v }
      rw [Array.append_push] at hnext
      exact hnext
    | failed e consumed => rfl

end Reader

/-- Reading every datum of a stream is a run of the reader over its tokens, which the failure of
their source ends, if there is one. -/
theorem TokenStream.readAllWithin_eq (failure : Option Failure) (r : Reader) (ts : List Token) :
    readAllWithin failure r.done r.contexts ts =
      r.run ts >>= fun r' => failure.elim r'.finish .error := by
  induction ts generalizing r with
  | nil =>
    change _ = failure.elim r.finish .error
    rw [readAllWithin, Reader.finish]
    cases failure with
    | some e => rfl
    | none =>
      simp only [Option.elim]
      cases atEnd r.contexts <;> rfl
  | cons t rest ih =>
    rw [readAllWithin, Reader.run_cons, Reader.take]
    cases consume r.contexts t with
    | pending contexts => exact ih { r with contexts }
    | datum v => exact ih { done := r.done.push v }
    | failed e consumed => rfl

/-- Reading a source text is a run of the reader over its tokens. -/
theorem parse_eq_run (source : Text) :
    parse source = Reader.run {} (lex source).tokens >>= fun r =>
      (lex source).failure.elim r.finish .error :=
  TokenStream.readAllWithin_eq (lex source).failure {} (lex source).tokens

theorem TokenStream.readAll_eq_run (ts : List Token) :
    TokenStream.readAll { unread := ts } = Reader.run {} ts >>= Reader.finish :=
  readAllWithin_eq none {} ts

/-- Tokens are read to the end if and only if no context is left open. -/
theorem TokenStream.readAll_eq_ok_iff {ts : List Token} {vs : List Value} :
    TokenStream.readAll { unread := ts } = .ok vs ↔
      ∃ done : Array Value, Reader.run {} ts = .ok { done } ∧ done.toList = vs := by
  rw [readAll_eq_run]
  cases Reader.run {} ts with
  | error e => simp [bind, Except.bind]
  | ok r =>
    obtain ⟨done, contexts⟩ := r
    rcases contexts with _ | ⟨_ | _, _⟩ <;>
      simp [bind, Except.bind, Reader.finish, atEnd, Except.map]

/-- A source text is read if it can be scanned and its tokens can be read. -/
theorem parse_eq_ok_iff {source : Text} {vs : List Value} :
    parse source = .ok vs ↔ (lex source).failure = none ∧
      ∃ done : Array Value, Reader.run {} (lex source).tokens = .ok { done } ∧
        done.toList = vs := by
  rw [← TokenStream.readAll_eq_ok_iff, TokenStream.readAll_eq_run, parse_eq_run]
  cases (lex source).failure with
  | none => simp
  | some e => cases Reader.run {} (lex source).tokens <;> simp [bind, Except.bind]

section Steps

/-- The ways in which a reader can go on with a token. -/
inductive Reader.Takes (r : Reader) : Token → Reader → Prop
  | atom {text : Text} {v : Value} {r' : Reader} : readAtom text = .ok v →
      r.settle (deliver v r.contexts) = .ok r' → Takes r ⟨.symbol, text⟩ r'
  | quote {mark : Text} : Takes r ⟨.quote, mark⟩ { r with contexts := .quoted :: r.contexts }
  | opener {text closer : Text} : closerOf? text = some closer →
      Takes r ⟨.opener, text⟩ { r with contexts := .bracket text closer #[] :: r.contexts }
  | closer {opener text : Text} {items : Array Value} {outer : List Pending} {r' : Reader} :
      r.contexts = .bracket opener text items :: outer →
      r.settle (deliver (.list items.toList) outer) = .ok r' → Takes r ⟨.closer, text⟩ r'

theorem Reader.eq_of_settle_nest {r r' : Reader} {context : Pending}
    (h : r.settle (nest context r.contexts) = .ok r') :
    r' = { r with contexts := context :: r.contexts } := by
  rw [nest] at h
  split at h
  · exact (Except.ok.inj h).symm
  · cases h

/-- Whenever a reader goes on, it goes on in one of these ways. -/
theorem Reader.takes_of_take {r r' : Reader} {t : Token} (h : r.take t = .ok r') :
    r.Takes t r' := by
  obtain ⟨kind, text⟩ := t
  cases kind with
  | symbol =>
    simp only [take, consume] at h
    cases hatom : readAtom text with
    | error e =>
      rw [hatom] at h
      cases h
    | ok v =>
      rw [hatom] at h
      exact .atom hatom h
  | quote =>
    obtain rfl := eq_of_settle_nest h
    exact .quote
  | opener =>
    simp only [take, consume] at h
    cases hcloser : closerOf? text with
    | none =>
      rw [hcloser] at h
      cases h
    | some closer =>
      rw [hcloser] at h
      obtain rfl := eq_of_settle_nest h
      exact .opener hcloser
  | closer =>
    obtain ⟨done, contexts⟩ := r
    rcases contexts with _ | ⟨_ | ⟨opener, closer, items⟩, outer⟩
    · cases h
    · cases h
    · simp only [take, consume] at h
      split at h
      · rename_i htext
        subst htext
        exact .closer rfl h
      · cases h
  | other name => cases h

end Steps

section Contexts

/-- Whether a context is a quote mark that waits for its datum. -/
def Pending.isQuote : Pending → Bool
  | .quoted => true
  | .bracket .. => false

/-- The quotes (true) and brackets (false) that are open after one more token, innermost first.  A
complete datum closes the quotes around it. -/
def Token.openAfter (outer : List Bool) (t : Token) : List Bool :=
  match t.kind with
  | .symbol => outer.dropWhile id
  | .quote => true :: outer
  | .opener => false :: outer
  | .closer => outer.tail.dropWhile id
  | .other _ => outer

/-- The largest number of quotes and brackets that are open at once. -/
def nestingWithin : List Bool → List Token → Nat
  | outer, [] => outer.length
  | outer, t :: rest => max outer.length (nestingWithin (t.openAfter outer) rest)

/-- How deep quotes and brackets are nested in tokens. -/
def nesting (ts : List Token) : Nat :=
  nestingWithin [] ts

theorem length_le_nestingWithin (outer : List Bool) (ts : List Token) :
    outer.length ≤ nestingWithin outer ts := by
  cases ts with
  | nil => exact Nat.le_refl _
  | cons t rest => exact Nat.le_max_left _ _

namespace Reader

/-- The quotes and brackets that a reader has open. -/
def openings (r : Reader) : List Bool :=
  r.contexts.map Pending.isQuote

theorem openings_of_settle_deliver {r r' : Reader} {v : Value} {contexts : List Pending}
    (h : r.settle (deliver v contexts) = .ok r') :
    r'.openings = (contexts.map Pending.isQuote).dropWhile id := by
  induction contexts generalizing v with
  | nil =>
    cases h
    rfl
  | cons context outer ih =>
    cases context with
    | quoted => exact ih h
    | bracket opener closer items =>
      cases h
      rfl

/-- What is open after a token. -/
theorem openings_take {r r' : Reader} {t : Token} (h : r.take t = .ok r') :
    r'.openings = t.openAfter r.openings := by
  cases takes_of_take h with
  | atom _ hsettle => exact openings_of_settle_deliver hsettle
  | quote => rfl
  | opener _ => rfl
  | closer hcontexts hsettle =>
    rw [openings_of_settle_deliver hsettle, Token.openAfter, openings, hcontexts]
    rfl

end Reader

/-- A quote is open innermost only right after its mark. -/
theorem Token.kind_of_head?_openAfter {outer : List Bool} {t : Token}
    (h : (t.openAfter outer).head? = some true) (hother : ∀ name, t.kind ≠ .other name) :
    t.kind = .quote := by
  have hdrop : ∀ l : List Bool, (l.dropWhile id).head? ≠ some true := by
    intro l hl
    have hhead := List.head?_dropWhile_not id l
    rw [hl] at hhead
    exact absurd hhead (by simp)
  rw [openAfter] at h
  cases hkind : t.kind with
  | quote => rfl
  | symbol =>
    rw [hkind] at h
    exact absurd h (hdrop _)
  | opener =>
    rw [hkind] at h
    exact absurd h (by simp)
  | closer =>
    rw [hkind] at h
    exact absurd h (hdrop _)
  | other name => exact absurd hkind (hother name)

end Contexts

section Failures

/-- An atom that is not read is an integer with too many digits, starts like a literal, or is
empty. -/
theorem readAtom_eq_error {text : Text} {e : Failure} (h : readAtom text = .error e) :
    (text.isInteger = true ∧ Text.maxDigits < (Text.splitSign text).2.length ∧
      e = .integerTooLong) ∨
    (text.isInteger = false ∧ e = .fault (.unknownLiteral text)) ∨
    (text = [] ∧ e = .emptyName) := by
  rw [readAtom] at h
  cases hinteger : text.isInteger with
  | true =>
    rw [hinteger, if_pos rfl] at h
    by_cases hlength : (Text.splitSign text).2.length ≤ Text.maxDigits
    · simp [Text.integerOf?, hlength] at h
    · simp only [Text.integerOf?, hlength, if_false, Option.elim] at h
      cases h
      exact Or.inl ⟨rfl, Nat.not_le.mp hlength, rfl⟩
  | false =>
    rw [hinteger, if_neg Bool.false_ne_true] at h
    by_cases hhash : text.head? = some (.scalar '#')
    · rw [if_pos hhash] at h
      cases hb : literal? text with
      | some b =>
        rw [hb] at h
        cases h
      | none =>
        rw [hb] at h
        cases h
        exact Or.inr (Or.inl ⟨rfl, rfl⟩)
    · rw [if_neg hhash, Value.symbolOf] at h
      split at h
      · rename_i hempty
        cases h
        exact Or.inr (Or.inr ⟨List.isEmpty_iff.mp hempty, rfl⟩)
      · cases h

/-- The ways in which a reader can fail on a token. -/
inductive Reader.Refuses (r : Reader) : Token → Failure → Prop
  | atom {text : Text} {e : Failure} : readAtom text = .error e → Refuses r ⟨.symbol, text⟩ e
  | depth {t : Token} : readingDepth < (t.openAfter r.openings).length →
      Refuses r t .nestingTooDeep
  | unknownBracket {text : Text} : closerOf? text = none →
      Refuses r ⟨.opener, text⟩ .unknownBracket
  | mismatched {opener closer text : Text} {items : Array Value} {outer : List Pending} :
      r.contexts = .bracket opener closer items :: outer → text ≠ closer →
      Refuses r ⟨.closer, text⟩ (.fault (.mismatched opener closer text))
  | strayCloser {text : Text} : r.openings.head? ≠ some false →
      Refuses r ⟨.closer, text⟩ (.fault (.strayCloser text))
  | unknownToken {name text : Text} :
      Refuses r ⟨.other name, text⟩ (.fault (.unknownToken name text))

namespace Reader

theorem settle_deliver_ne_error (r : Reader) (v : Value) (contexts : List Pending)
    (e : Failure) : r.settle (deliver v contexts) ≠ .error e := by
  induction contexts generalizing v with
  | nil => simp [deliver, settle]
  | cons context outer ih =>
    cases context with
    | quoted => exact ih _
    | bracket opener closer items => simp [deliver, settle]

theorem settle_nest_eq_error {r : Reader} {context : Pending} {e : Failure}
    (h : r.settle (nest context r.contexts) = .error e) :
    readingDepth < (context.isQuote :: r.openings).length ∧ e = .nestingTooDeep := by
  rw [nest] at h
  split at h
  · cases h
  · cases h
    refine ⟨?_, rfl⟩
    simp only [openings, List.length_cons, List.length_map]
    omega

/-- Whatever a reader fails on, it fails in one of these ways. -/
theorem refuses_of_take {r : Reader} {t : Token} {e : Failure} (h : r.take t = .error e) :
    r.Refuses t e := by
  obtain ⟨kind, text⟩ := t
  cases kind with
  | symbol =>
    simp only [take, consume] at h
    cases hatom : readAtom text with
    | error e' =>
      rw [hatom] at h
      cases h
      exact .atom hatom
    | ok v =>
      rw [hatom] at h
      exact absurd h (r.settle_deliver_ne_error _ _ _)
  | quote =>
    obtain ⟨hdepth, rfl⟩ := settle_nest_eq_error h
    exact .depth hdepth
  | opener =>
    simp only [take, consume] at h
    cases hcloser : closerOf? text with
    | none =>
      rw [hcloser] at h
      cases h
      exact .unknownBracket hcloser
    | some closer =>
      rw [hcloser] at h
      obtain ⟨hdepth, rfl⟩ := settle_nest_eq_error h
      exact .depth hdepth
  | closer =>
    obtain ⟨done, contexts⟩ := r
    rcases contexts with _ | ⟨_ | ⟨opener, closer, items⟩, outer⟩
    · cases h
      exact .strayCloser (by simp [openings])
    · cases h
      exact .strayCloser (by simp [openings, Pending.isQuote])
    · simp only [take, consume] at h
      split at h
      · exact absurd h (settle_deliver_ne_error _ _ _ _)
      · rename_i hne
        cases h
        exact .mismatched rfl hne
  | other name =>
    cases h
    exact .unknownToken

/-- Tokens that are not nested too deep are not refused for their depth. -/
theorem run_ne_nestingTooDeep {r : Reader} {ts : List Token}
    (h : nestingWithin r.openings ts ≤ readingDepth) : r.run ts ≠ .error .nestingTooDeep := by
  induction ts generalizing r with
  | nil => simp
  | cons t rest ih =>
    have hrest : nestingWithin (t.openAfter r.openings) rest ≤ readingDepth :=
      Nat.le_trans (Nat.le_max_right _ _) h
    have hroom := Nat.le_trans (length_le_nestingWithin _ rest) hrest
    intro hdeep
    rw [run_cons] at hdeep
    cases ht : r.take t with
    | ok r' =>
      rw [ht] at hdeep
      exact ih (openings_take ht ▸ hrest) hdeep
    | error e =>
      rw [ht] at hdeep
      cases hdeep
      cases refuses_of_take ht with
      | atom hatom => rcases readAtom_eq_error hatom with h | h | h <;> simp at h
      | depth hdepth => omega

end Reader

end Failures

section Brackets

/-- What a token adds to the number of open brackets. -/
def Token.weight (t : Token) : Int :=
  match t.kind with
  | .opener => 1
  | .closer => -1
  | _ => 0

theorem foldl_eq_add {f : Int → Token → Int} (h : ∀ depth t, f depth t = depth + t.weight)
    (depth : Int) (ts : List Token) : ts.foldl f depth = depth + ts.foldl f 0 := by
  induction ts generalizing depth with
  | nil => simp
  | cons t rest ih =>
    rw [List.foldl_cons, List.foldl_cons, ih, ih (f 0 t), h, h]
    omega

@[simp] theorem bracketDepth_nil : bracketDepth [] = 0 :=
  rfl

theorem bracketDepth_append (ts us : List Token) :
    bracketDepth (ts ++ us) = bracketDepth ts + bracketDepth us := by
  rw [bracketDepth, List.foldl_append]
  refine foldl_eq_add (fun depth t => ?_) _ us
  rw [Token.weight]
  cases t.kind <;> simp [Int.sub_eq_add_neg]

theorem bracketDepth_cons (t : Token) (ts : List Token) :
    bracketDepth (t :: ts) = t.weight + bracketDepth ts := by
  have hsingle : bracketDepth [t] = t.weight := by
    simp only [bracketDepth, List.foldl_cons, List.foldl_nil, Token.weight]
    cases t.kind <;> rfl
  rw [← hsingle]
  exact bracketDepth_append [t] ts

namespace Reader

/-- The number of brackets that a reader has open. -/
def openBrackets (r : Reader) : Nat :=
  r.openings.count false

theorem count_false_dropWhile (outer : List Bool) :
    (outer.dropWhile id).count false = outer.count false := by
  induction outer with
  | nil => rfl
  | cons quote rest ih => cases quote <;> simp [ih]

theorem openBrackets_take {r r' : Reader} {t : Token} (h : r.take t = .ok r') :
    (r'.openBrackets : Int) = r.openBrackets + t.weight := by
  have hopen := openings_take h
  simp only [openBrackets, hopen]
  cases takes_of_take h with
  | atom => simp [Token.openAfter, Token.weight, count_false_dropWhile]
  | quote => simp [Token.openAfter, Token.weight]
  | opener => simp [Token.openAfter, Token.weight]
  | closer hcontexts =>
    -- A closer is taken only where a bracket is open innermost.
    simp only [Token.openAfter, Token.weight, openings, hcontexts, List.map_cons,
      Pending.isQuote, List.tail_cons, count_false_dropWhile, List.count_cons_self]
    omega

/-- The brackets that are open are those that the tokens have opened and not closed. -/
theorem openBrackets_run {r r' : Reader} {ts : List Token} (h : r.run ts = .ok r') :
    (r'.openBrackets : Int) = r.openBrackets + bracketDepth ts := by
  induction ts generalizing r with
  | nil =>
    cases h
    simp
  | cons t rest ih =>
    obtain ⟨mid, ht, hrest⟩ := run_cons_eq_ok h
    rw [ih hrest, openBrackets_take ht, bracketDepth_cons, Int.add_assoc]

/-- A reader that has no bracket open and has not just met a quote mark has nothing open. -/
theorem contexts_eq_nil {r r' : Reader} {ts : List Token} {t : Token}
    (h : r.run (ts ++ [t]) = .ok r') (hbrackets : r'.openBrackets = 0) (hquote : t.kind ≠ .quote) :
    r'.contexts = [] := by
  obtain ⟨mid, -, hlast⟩ := run_append_eq_ok h
  rw [run_singleton] at hlast
  have hother : ∀ name, t.kind ≠ .other name := by
    intro name
    cases takes_of_take hlast <;> nofun
  have hnone : false ∉ r'.openings := List.count_eq_zero.mp hbrackets
  have hhead : r'.openings.head? ≠ some true := by
    rw [openings_take hlast]
    exact fun hopen => hquote (Token.kind_of_head?_openAfter hopen hother)
  cases hopenings : r'.openings with
  | nil => exact List.map_eq_nil_iff.mp hopenings
  | cons quote rest =>
    rw [hopenings] at hnone hhead
    cases quote
    · exact absurd List.mem_cons_self hnone
    · exact absurd rfl hhead

end Reader

end Brackets

end SmallLisp
