import SmallLisp.Proofs.Reading.Readable
/-!
What the reader makes.

Main statement: whatever is read from a text is readable, and its lists have no identities.  The
invariant of the machine is that this holds of all data in the contexts.
-/

namespace SmallLisp

open Value
open TokenStream (readAllWithin readAllWithin_cons)

/-- A value as it is read: readable, in lists without identities. -/
structure Value.Datum (v : Value) : Prop where
  readable : v.Readable
  bare : v.bare = v

theorem Value.Datum.list {items : List Value} (h : ∀ v ∈ items, v.Datum) :
    Value.Datum (.list items) where
  readable := .list none fun v hv => (h v hv).readable
  bare := by
    rw [bare_list, List.map_congr_left fun v hv => (h v hv).bare]
    simp

theorem Value.Datum.quoteDatum {v : Value} (h : v.Datum) : (quoteDatum v).Datum := by
  have hname : Text.IsName "quote" := ⟨by decide, by decide, by decide, by decide⟩
  have hsymbol : Value.Datum (.symbol "quote") := ⟨.symbol hname, by simp [Value.bare]⟩
  exact .list (List.forall_mem_cons.mpr ⟨hsymbol, List.forall_mem_singleton.mpr h⟩)

/-- What an atom is read as is a datum. -/
theorem datum_of_readAtom {text : Text} {v : Value} (htext : text.IsAtom)
    (h : readAtom text = .ok v) : v.Datum := by
  rw [readAtom] at h
  cases hinteger : text.isInteger with
  | true =>
    rw [hinteger, if_pos rfl] at h
    cases hn : text.integerOf? with
    | none =>
      rw [hn] at h
      cases h
    | some n =>
      rw [hn] at h
      cases h
      exact ⟨.integer (Text.natAbs_lt_of_integerOf? hn), by simp [Value.bare]⟩
  | false =>
    rw [hinteger, if_neg Bool.false_ne_true] at h
    by_cases hhash : text.head? = some (.scalar '#')
    · rw [if_pos hhash] at h
      cases hb : literal? text with
      | none =>
        rw [hb] at h
        cases h
      | some b =>
        rw [hb] at h
        cases h
        exact ⟨.boolean b, by simp [Value.bare]⟩
    · have hempty : text.isEmpty = false := by simpa using htext.1
      rw [if_neg hhash, symbolOf, hempty] at h
      cases h
      have hname : text.IsName :=
        ⟨htext.1, fun c hc => isAtomChar_iff.mp (htext.2 c hc), hhash, hinteger⟩
      exact ⟨.symbol hname, by simp [Value.bare]⟩

section Soundness

/-- The data in a context are data. -/
def Pending.Sound : Pending → Prop
  | .quoted => True
  | .bracket _ _ items => ∀ v ∈ items, v.Datum

def Progress.Sound : Progress → Prop
  | .pending contexts => ∀ context ∈ contexts, context.Sound
  | .datum v => v.Datum
  | .failed _ _ => True

theorem sound_deliver {v : Value} (hv : v.Datum) {contexts : List Pending}
    (h : ∀ context ∈ contexts, context.Sound) : (deliver v contexts).Sound := by
  induction contexts generalizing v with
  | nil => exact hv
  | cons context outer ih =>
    obtain ⟨hcontext, houter⟩ := List.forall_mem_cons.mp h
    cases context with
    | quoted => exact ih hv.quoteDatum houter
    | bracket opener closer items =>
      refine List.forall_mem_cons.mpr ⟨fun w hw => ?_, houter⟩
      rcases Array.mem_push.mp hw with hold | rfl
      · exact hcontext w hold
      · exact hv

theorem sound_nest {context : Pending} (hcontext : context.Sound) {contexts : List Pending}
    (h : ∀ context ∈ contexts, context.Sound) : (nest context contexts).Sound := by
  rw [nest]
  split
  · exact List.forall_mem_cons.mpr ⟨hcontext, h⟩
  · trivial

theorem sound_consume {contexts : List Pending} (h : ∀ context ∈ contexts, context.Sound)
    {t : Token} (ht : t.kind = .symbol → t.text.IsAtom) : (consume contexts t).Sound := by
  obtain ⟨kind, text⟩ := t
  cases kind with
  | symbol =>
    simp only [consume]
    cases hatom : readAtom text with
    | ok v => exact sound_deliver (datum_of_readAtom (ht rfl) hatom) h
    | error failure => trivial
  | quote =>
    have hquoted : Pending.quoted.Sound := trivial
    exact sound_nest hquoted h
  | opener =>
    simp only [consume]
    cases closerOf? text with
    | some closer =>
      have hbracket : (Pending.bracket text closer #[]).Sound := by simp [Pending.Sound]
      exact sound_nest hbracket h
    | none => trivial
  | closer =>
    rcases contexts with _ | ⟨_ | ⟨opener, closer, items⟩, outer⟩
    · trivial
    · trivial
    · obtain ⟨hitems, houter⟩ := List.forall_mem_cons.mp h
      simp only [consume]
      split
      · exact sound_deliver (.list fun v hv => hitems v (Array.mem_toList_iff.mp hv)) houter
      · trivial
  | other kind => trivial

/-- If all that was read before are data, then all that is read are. -/
theorem datum_of_readAllWithin {failure : Option Failure} {ts : List Token}
    (hts : ∀ t ∈ ts, t.kind = .symbol → t.text.IsAtom) {done : Array Value}
    (hdone : ∀ v ∈ done, v.Datum) {contexts : List Pending}
    (hcontexts : ∀ context ∈ contexts, context.Sound) {vs : List Value}
    (h : readAllWithin failure done contexts ts = .ok vs) : ∀ v ∈ vs, v.Datum := by
  induction ts generalizing done contexts with
  | nil =>
    rw [readAllWithin] at h
    cases hend : failure.elim (atEnd contexts) .error with
    | error e =>
      rw [hend] at h
      cases h
    | ok last =>
      rw [hend] at h
      cases h
      exact fun v hv => hdone v (Array.mem_toList_iff.mp hv)
  | cons t rest ih =>
    obtain ⟨ht, hrest⟩ := List.forall_mem_cons.mp hts
    have hsound := sound_consume hcontexts ht
    rw [readAllWithin_cons] at h
    cases hprogress : consume contexts t with
    | pending contexts =>
      rw [hprogress] at h hsound
      exact ih hrest hdone hsound h
    | datum v =>
      rw [hprogress] at h hsound
      refine ih hrest (fun w hw => ?_) (by simp) h
      rcases Array.mem_push.mp hw with hold | rfl
      · exact hdone w hold
      · exact hsound
    | failed e consumed =>
      rw [hprogress] at h
      cases h

/-- Whatever is read is a datum. -/
theorem datum_of_parse {source : Text} {vs : List Value} (h : parse source = .ok vs) :
    ∀ v ∈ vs, v.Datum := by
  refine datum_of_readAllWithin (fun t ht hkind => ?_) (by simp) (by simp) h
  exact isAtom_of_mem_lex ht hkind

end Soundness

end SmallLisp
