import SmallLisp.Proofs.Evaluation.History
import SmallLisp.Proofs.Reading.Datum
import SmallLisp.Proofs.Session.Texts
/-!
What has been made in a session.

Lists that are read have no identities, so a text can be read in whatever store.  Main statements:
the run of a text, whatever course it takes, leads from a session with a history to one whose
history goes on from there, and its values are made of that; every session that starts with a
prelude has a history.
-/

namespace SmallLisp

open Evaluation

/-- What is read needs no values that have been made. -/
theorem Value.Datum.madeOf {v : Value} (h : v.Datum) (made : List Value) : v.MadeOf made := by
  have hbare : v.bare.MadeOf made := by
    obtain ⟨hreadable, -⟩ := h
    induction hreadable with
    | symbol _ => simpa [Value.bare] using MadeOf.symbol _
    | integer _ => simpa [Value.bare] using MadeOf.integer _
    | boolean b => simpa [Value.bare] using MadeOf.boolean b
    | list identity _ ih =>
      rw [bare_list]
      refine .list fun w hw => ?_
      obtain ⟨v, hv, rfl⟩ := List.mem_map.mp hw
      exact ih v hv
  rwa [h.bare] at hbare

/-- A session whose store is reached with a history. -/
structure Session.Reached (session : Session) (made : List Value) : Prop where
  store : session.store.Reached made
  global : session.global < session.store.frames.size

namespace Session

variable {tracing : Bool} {session final : Session} {made : List Value}

theorem reached_empty : Session.empty.Reached (Store.primitives 0 ++ []) :=
  ⟨Store.Reached.empty.global, by decide⟩

theorem Reached.takeLog (h : session.Reached made) : session.takeLog.2.Reached made :=
  ⟨h.store.logged [], h.global⟩

/-- The evaluation of a form adds to the history. -/
theorem Reached.perform (h : session.Reached made) {form : Value} (hform : form.MadeOf made)
    {result : Except Failure Value}
    (hperform : session.perform (evaluateIn tracing form session.global) = (result, final)) :
    ∃ made', made ⊆ made' ∧ final.Reached made' ∧ ∀ v, result = .ok v → v.MadeOf made' := by
  obtain ⟨houtcome, hglobal⟩ := outcome_of_perform hperform
  obtain ⟨made', hsub, hsize, hstore, hvalue⟩ :=
    h.store.evaluate tracing evaluationDepth hform h.global
  rw [← evaluateIn, houtcome] at hsize hstore hvalue
  exact ⟨made', hsub, ⟨hstore, hglobal ▸ Nat.lt_of_lt_of_le h.global hsize⟩, hvalue⟩

theorem Yields.reached {forms vs : List Value} (hyields : Yields tracing forms session vs final)
    (hforms : ∀ form ∈ forms, form.Datum) (h : session.Reached made) :
    ∃ made', made ⊆ made' ∧ final.Reached made' ∧ ∀ v ∈ vs, v.MadeOf made' := by
  induction hyields generalizing made with
  | nil session => exact ⟨made, List.Subset.refl _, h, by simp⟩
  | cons hform _ ih =>
    obtain ⟨hdatum, hrest⟩ := List.forall_mem_cons.mp hforms
    obtain ⟨made', hsub, hnext, hv⟩ := h.perform (hdatum.madeOf made) hform
    obtain ⟨made'', hsub', hfinal, hvs⟩ := ih hrest hnext
    have hvalues := List.forall_mem_cons.mpr ⟨(hv _ rfl).mono hsub', hvs⟩
    exact ⟨made'', List.Subset.trans hsub hsub', hfinal, hvalues⟩

/-- Whatever course the run of a text takes, it adds to the history. -/
theorem Course.reached {source : Text} {run : Run Value}
    (hcourse : Course tracing source session run final) (h : session.Reached made) :
    ∃ made', made ⊆ made' ∧ final.Reached made' ∧ ∀ v ∈ run.results, v.MadeOf made' := by
  cases hcourse with
  | unread => exact ⟨made, List.Subset.refl _, h, by simp⟩
  | complete hparse hyields => exact hyields.reached (datum_of_parse hparse) h
  | stopped hparse hyields hfails =>
    obtain ⟨hbefore, hafter⟩ := List.forall_mem_append.mp (datum_of_parse hparse)
    obtain ⟨made', hsub, hreached, hvs⟩ := hyields.reached hbefore h
    have hform := (hafter _ List.mem_cons_self).madeOf made'
    obtain ⟨made'', hsub', hfinal, -⟩ := hreached.perform hform hfails
    exact ⟨made'', List.Subset.trans hsub hsub', hfinal, fun v hv => (hvs v hv).mono hsub'⟩

/-- Every session that starts with a prelude has a history. -/
theorem exists_reached_start (tracing : Bool) (prelude : Option Text) :
    ∃ made, (start tracing prelude).2.Reached made := by
  cases prelude with
  | none => exact ⟨_, reached_empty⟩
  | some source =>
    obtain ⟨run, final, hcourse⟩ := exists_course tracing source empty
    obtain ⟨made, -, hfinal, -⟩ := hcourse.reached reached_empty
    rw [start, hcourse.load]
    exact ⟨made, hfinal⟩

end Session

end SmallLisp
