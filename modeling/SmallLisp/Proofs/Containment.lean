import SmallLisp.Proofs.Containment.Command
import SmallLisp.Proofs.Containment.Server
/-!
Which failures the front ends contain.

Main statement: the shell reports what a text fails of and reads on, the command reports the first
file that does not succeed, and the server answers every request line.  The exceptions are listed
in full.  They are an integer with too many digits everywhere; in the command a prelude that is not
loaded, and a name or contents of a file that are no text; and in the server what cannot be shown or
is no JSON within the limits.
-/

namespace SmallLisp

/-- The front ends contain failures, with the exceptions that the parts list, in every session whose
native functions are those of the catalog.  Sessions start as such sessions and stay so. -/
theorem failures_contained {session : Session} (h : session.Native) :
    (∀ tracing buffer lines, Shell.Contains tracing lines { session, buffer }) ∧
      (∀ tracing source, session.KeepsDefinitions tracing source) ∧
      (∀ request env files input, Command.Contains request env files input) ∧
      (∀ line, Server.Contains line session) ∧
      ∀ tracing prelude, (Session.start tracing prelude).2.Native :=
  ⟨fun tracing _ lines => Shell.contains_converse tracing lines h,
    fun tracing source => session.keepsDefinitions tracing source, Command.contains_run,
    Server.contains_handle h, Session.native_start⟩

/-- In a new session a call that fails is reported and the next line is echoed. -/
theorem failures_contained_empty :
    Session.empty.Native ∧
      (Shell.converse false ["(car 1)", "2"] { session := Session.empty }).failure = none ∧
      (Shell.converse false ["(car 1)", "2"] { session := Session.empty }).answers =
        [.report "MinirackTypeError: car expects a non-empty list, got 1", .echo "2"] := by
  have hshell := (failures_contained Session.native_empty).1 false [] ["(car 1)", "2"]
  obtain ⟨hfailure, htells⟩ := hshell.complete (by decide +kernel)
  exact ⟨Session.native_empty, hfailure, htells.answers.trans (by decide +kernel)⟩

end SmallLisp
