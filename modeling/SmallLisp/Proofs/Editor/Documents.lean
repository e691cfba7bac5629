import Mathlib.Data.List.Induction
import SmallLisp.Editor.Workspace
/-!
The documents of an editor after any notifications.

Which text a document has can be told from what was said of it since it was last closed: texts
without an index count for nothing.  Main statement: whatever has been told in whatever order, every
document has that text and its index, and the diagnostics published last are those of the index.
-/

namespace SmallLisp.Editor

namespace Workspace

variable {w : Workspace} {name other text : Text} {notification : Notification}

theorem notify_of_ofText (htext : w.textAfter? name notification = some text) {index : Index}
    (hindex : Index.ofText text = .ok index) : w.notify name notification =
      (.ok index.diagnostics, { documents := w.documents.insert name { text, index } }) := by
  have hput : w.put name text =
      .ok (index.diagnostics, { documents := w.documents.insert name { text, index } }) := by
    rw [put.eq_def, hindex]
    rfl
  simp only [notify, htext, hput]

theorem notify_of_ofText_error (htext : w.textAfter? name notification = some text) {e : Failure}
    (hindex : Index.ofText text = .error e) : w.notify name notification = (.error e, w) := by
  have hput : w.put name text = .error e := by
    rw [put.eq_def, hindex]
    rfl
  simp only [notify, htext, hput]

/-- A notification that fails leaves the workspace as it is. -/
theorem notify_of_error {e : Failure} (h : (w.notify name notification).1 = .error e) :
    (w.notify name notification).2 = w := by
  cases htext : w.textAfter? name notification with
  | none =>
    rw [notify, htext] at h
    cases h
  | some text =>
    cases hindex : Index.ofText text with
    | ok index =>
      rw [notify_of_ofText htext hindex] at h
      cases h
    | error e' => rw [notify_of_ofText_error htext hindex]

/-- A notification says nothing of other documents. -/
theorem get?_notify_of_ne (h : other ≠ name) (notification : Notification) (w : Workspace) :
    (w.notify name notification).2.get? other = w.get? other := by
  cases htext : w.textAfter? name notification with
  | none =>
    rw [notify, htext]
    exact Table.lookup_erase_of_ne h w.documents
  | some text =>
    cases hindex : Index.ofText text with
    | ok index =>
      rw [notify_of_ofText htext hindex]
      exact Table.lookup_insert_of_ne h _ w.documents
    | error e => rw [notify_of_ofText_error htext hindex]

end Workspace

section History

/-- What has been told of documents by name, in order. -/
abbrev History := List (Text × Notification)

/-- What has been told of a document since it was last closed, the latest first. -/
def History.sinceClosed (history : History) (name : Text) : List Notification :=
  ((history.filter fun told => told.1 == name).map Prod.snd).reverse.takeWhile (· ≠ .closed)

/-- The text that a notification brings. -/
def Notification.text? : Notification → Option Text
  | .opened text => some (text.getD [])
  | .changed texts => texts.getLast?
  | .closed => none

/-- Whether a text has an index. -/
def hasIndex (text : Text) : Bool :=
  (Index.ofText text).toBool

/-- The text of a document after some notifications: the last that has an index of those that were
brought since it was last closed.  If there is none, a change without a text makes it empty. -/
def History.textOf? (history : History) (name : Text) : Option Text :=
  let recent := history.sinceClosed name
  (recent.findSome? fun n => n.text?.filter hasIndex).or
    (if .changed [] ∈ recent then some [] else none)

variable {history : History} {name other text : Text} {notification : Notification}

theorem hasIndex_of_ofText {index : Index} (h : Index.ofText text = .ok index) :
    hasIndex text = true := by
  rw [hasIndex, h]
  rfl

theorem hasIndex_of_ofText_error {e : Failure} (h : Index.ofText text = .error e) :
    hasIndex text = false := by
  rw [hasIndex, h]
  rfl

namespace History

theorem sinceClosed_append_of_ne (h : other ≠ name) :
    sinceClosed (history ++ [(name, notification)]) other = history.sinceClosed other := by
  have hne : (name == other) = false := by simpa using h.symm
  simp [sinceClosed, hne]

theorem sinceClosed_append_self (h : notification ≠ .closed) :
    sinceClosed (history ++ [(name, notification)]) name =
      notification :: history.sinceClosed name := by
  simp [sinceClosed, h]

theorem sinceClosed_append_closed :
    sinceClosed (history ++ [(name, .closed)]) name = [] := by
  simp [sinceClosed]

theorem textOf?_append_of_ne (h : other ≠ name) :
    textOf? (history ++ [(name, notification)]) other = history.textOf? other := by
  simp only [textOf?, sinceClosed_append_of_ne h]

theorem textOf?_append_closed : textOf? (history ++ [(name, .closed)]) name = none := by
  simp [textOf?, sinceClosed_append_closed]

theorem textOf?_append_of_hasIndex (htext : notification.text? = some text)
    (hindex : hasIndex text = true) :
    textOf? (history ++ [(name, notification)]) name = some text := by
  have hopen : notification ≠ .closed := by
    rintro rfl
    cases htext
  simp [textOf?, sinceClosed_append_self hopen, htext, hindex]

theorem textOf?_append_of_not_hasIndex (htext : notification.text? = some text)
    (hindex : hasIndex text = false) :
    textOf? (history ++ [(name, notification)]) name = history.textOf? name := by
  have hopen : notification ≠ .closed := by
    rintro rfl
    cases htext
  have hempty : notification ≠ .changed [] := by
    rintro rfl
    cases htext
  simp [textOf?, sinceClosed_append_self hopen, htext, hindex, hempty.symm]

/-- A change without a text keeps the text, or makes an empty one. -/
theorem textOf?_append_changed_nil :
    textOf? (history ++ [(name, .changed [])]) name = some ((history.textOf? name).getD []) := by
  have hopen : Notification.changed [] ≠ .closed := nofun
  have htext : (Notification.changed []).text? = none := rfl
  simp only [textOf?, sinceClosed_append_self hopen]
  cases hfound : (history.sinceClosed name).findSome? fun n => n.text?.filter hasIndex with
  | some text => simp [htext, hfound]
  | none =>
    by_cases hempty : Notification.changed [] ∈ history.sinceClosed name <;>
      simp [htext, hfound, hempty]

end History

end History

/-- The open documents and what has been published about documents, the latest first. -/
structure Desk where
  workspace : Workspace := {}
  published : List (Text × List Diagnostic) := []

namespace Desk

/-- A desk after one more notification about a document.  If it fails, nothing is published. -/
def receive (desk : Desk) (told : Text × Notification) : Desk :=
  match desk.workspace.notify told.1 told.2 with
  | (.ok diagnostics, workspace) =>
      { workspace, published := (told.1, diagnostics) :: desk.published }
  | (.error _, workspace) => { desk with workspace }

/-- A new desk after some notifications. -/
def after (history : History) : Desk :=
  history.foldl receive {}

variable {desk : Desk} {history : History} {name other text : Text} {notification : Notification}

theorem receive_of_ofText (htext : desk.workspace.textAfter? name notification = some text)
    {index : Index} (hindex : Index.ofText text = .ok index) :
    desk.receive (name, notification) =
      { workspace := { documents := desk.workspace.documents.insert name { text, index } }
        published := (name, index.diagnostics) :: desk.published } := by
  simp only [receive, Workspace.notify_of_ofText htext hindex]

theorem receive_closed (desk : Desk) (name : Text) : desk.receive (name, .closed) =
    { workspace := { documents := desk.workspace.documents.erase name }
      published := (name, []) :: desk.published } :=
  rfl

/-- A notification that fails changes nothing and publishes nothing. -/
theorem receive_of_error {e : Failure}
    (h : (desk.workspace.notify name notification).1 = .error e) :
    desk.receive (name, notification) = desk := by
  have hsame := Workspace.notify_of_error h
  rw [receive]
  cases hnotify : desk.workspace.notify name notification with
  | mk result workspace =>
    rw [hnotify] at h hsame
    obtain rfl : result = .error e := h
    obtain rfl : workspace = desk.workspace := hsame
    rfl

theorem receive_of_ofText_error (htext : desk.workspace.textAfter? name notification = some text)
    {e : Failure} (hindex : Index.ofText text = .error e) :
    desk.receive (name, notification) = desk :=
  receive_of_error (by rw [Workspace.notify_of_ofText_error htext hindex])

theorem get?_receive_of_ne (h : other ≠ name) (notification : Notification) (desk : Desk) :
    (desk.receive (name, notification)).workspace.get? other = desk.workspace.get? other := by
  rw [← Workspace.get?_notify_of_ne h notification desk.workspace, receive]
  cases desk.workspace.notify name notification with
  | mk result workspace => cases result <;> rfl

/-- Whatever a notification publishes is about its own document. -/
theorem exists_published_receive (desk : Desk) (name : Text) (notification : Notification) :
    ∃ added, (desk.receive (name, notification)).published = added ++ desk.published ∧
      ∀ publication ∈ added, publication.1 = name := by
  rw [receive]
  cases desk.workspace.notify name notification with
  | mk result workspace =>
    cases result with
    | ok diagnostics => exact ⟨[(name, diagnostics)], rfl, by simp⟩
    | error e => exact ⟨[], rfl, by simp⟩

theorem lookup_published_receive_of_ne (h : other ≠ name) (notification : Notification)
    (desk : Desk) :
    (desk.receive (name, notification)).published.lookup other = desk.published.lookup other := by
  obtain ⟨added, hadded, hown⟩ := desk.exists_published_receive name notification
  have hnone : added.lookup other = none := by
    rw [List.lookup_eq_none_iff]
    intro publication hmem
    simpa [hown publication hmem] using h
  rw [hadded, List.lookup_append, hnone, Option.none_or]

/-- A desk that shows what has been told: every document has the text that was told of it last and
the index of this text, and what was published last about it are the diagnostics of the index, or
none if it is closed. -/
structure Shows (desk : Desk) (history : History) : Prop where
  text : ∀ name, (desk.workspace.get? name).map Document.text = history.textOf? name
  index : ∀ name document, desk.workspace.get? name = some document →
    Index.ofText document.text = .ok document.index
  published : ∀ name, desk.published.lookup name =
    ((desk.workspace.get? name).map fun document => document.index.diagnostics).or
      (if (name, .closed) ∈ history then some [] else none)

namespace Shows

/-- A notification about a document leaves what is shown of others; it remains to look at its
own. -/
theorem receive_of_own (h : desk.Shows history)
    (htext : ((desk.receive (name, notification)).workspace.get? name).map Document.text =
      History.textOf? (history ++ [(name, notification)]) name)
    (hindex : ∀ document, (desk.receive (name, notification)).workspace.get? name = some document →
      Index.ofText document.text = .ok document.index)
    (hpublished : (desk.receive (name, notification)).published.lookup name =
      (((desk.receive (name, notification)).workspace.get? name).map
        fun document => document.index.diagnostics).or
        (if (name, .closed) ∈ history ++ [(name, notification)] then some [] else none)) :
    (desk.receive (name, notification)).Shows (history ++ [(name, notification)]) := by
  refine ⟨?_, ?_, ?_⟩
  · intro other
    by_cases hname : other = name
    · rw [hname, htext]
    · rw [get?_receive_of_ne hname, History.textOf?_append_of_ne hname, h.text]
  · intro other document hdocument
    by_cases hname : other = name
    · exact hindex document (hname ▸ hdocument)
    · exact h.index other document (get?_receive_of_ne hname notification desk ▸ hdocument)
  · intro other
    by_cases hname : other = name
    · rw [hname, hpublished]
    · have hclosed : (other, Notification.closed) ∈ history ++ [(name, notification)] ↔
          (other, Notification.closed) ∈ history := by
        simp [hname]
      rw [lookup_published_receive_of_ne hname, get?_receive_of_ne hname, h.published]
      simp only [hclosed]

/-- A new text with an index. -/
theorem receive_of_ofText (h : desk.Shows history)
    (htext : desk.workspace.textAfter? name notification = some text) {index : Index}
    (hindex : Index.ofText text = .ok index)
    (hlast : History.textOf? (history ++ [(name, notification)]) name = some text) :
    (desk.receive (name, notification)).Shows (history ++ [(name, notification)]) := by
  have hget : (desk.receive (name, notification)).workspace.get? name = some { text, index } := by
    rw [Desk.receive_of_ofText htext hindex]
    exact Table.lookup_insert_self name _ desk.workspace.documents
  refine h.receive_of_own ?_ ?_ ?_
  · rw [hget, hlast]
    rfl
  · intro document hdocument
    obtain rfl := Option.some.inj (hget.symm.trans hdocument)
    exact hindex
  · rw [hget, Desk.receive_of_ofText htext hindex]
    simp

/-- A new text without an index. -/
theorem receive_of_ofText_error (h : desk.Shows history)
    (htext : desk.workspace.textAfter? name notification = some text) {e : Failure}
    (hindex : Index.ofText text = .error e) (hnew : notification.text? = some text) :
    (desk.receive (name, notification)).Shows (history ++ [(name, notification)]) := by
  have hopen : notification ≠ .closed := by
    rintro rfl
    cases hnew
  have hsame := Desk.receive_of_ofText_error htext hindex
  refine h.receive_of_own ?_ ?_ ?_
  · rw [hsame, History.textOf?_append_of_not_hasIndex hnew (hasIndex_of_ofText_error hindex)]
    exact h.text name
  · rw [hsame]
    exact h.index name
  · rw [hsame, h.published]
    simp [hopen.symm]

theorem receive_closed (h : desk.Shows history) (name : Text) :
    (desk.receive (name, .closed)).Shows (history ++ [(name, .closed)]) := by
  have hget : (desk.receive (name, .closed)).workspace.get? name = none :=
    Table.lookup_erase_self name desk.workspace.documents
  refine h.receive_of_own ?_ ?_ ?_
  · rw [hget, History.textOf?_append_closed]
    rfl
  · intro document hdocument
    cases hget.symm.trans hdocument
  · rw [hget, Desk.receive_closed]
    simp

/-- A notification that brings a text. -/
theorem receive_of_text (h : desk.Shows history) (hnew : notification.text? = some text)
    (htext : desk.workspace.textAfter? name notification = some text) :
    (desk.receive (name, notification)).Shows (history ++ [(name, notification)]) := by
  cases hindex : Index.ofText text with
  | ok index =>
    exact h.receive_of_ofText htext hindex
      (History.textOf?_append_of_hasIndex hnew (hasIndex_of_ofText hindex))
  | error e => exact h.receive_of_ofText_error htext hindex hnew

/-- A change without a text indexes the old text again, which had an index before. -/
theorem receive_changed_nil (h : desk.Shows history) (name : Text) :
    (desk.receive (name, .changed [])).Shows (history ++ [(name, .changed [])]) := by
  have hlast : History.textOf? (history ++ [(name, .changed [])]) name =
      some (((desk.workspace.get? name).map Document.text).getD []) := by
    rw [h.text name]
    exact History.textOf?_append_changed_nil
  cases hget : desk.workspace.get? name with
  | none =>
    have htext : desk.workspace.textAfter? name (.changed []) = some [] := by
      simp [Workspace.textAfter?, hget]
    obtain ⟨index, hindex⟩ : ∃ index, Index.ofText [] = .ok index := ⟨_, rfl⟩
    rw [hget] at hlast
    exact h.receive_of_ofText htext hindex hlast
  | some document =>
    have htext : desk.workspace.textAfter? name (.changed []) = some document.text := by
      simp [Workspace.textAfter?, hget]
    rw [hget] at hlast
    exact h.receive_of_ofText htext (h.index name document hget) hlast

theorem receive (h : desk.Shows history) (name : Text) (notification : Notification) :
    (desk.receive (name, notification)).Shows (history ++ [(name, notification)]) := by
  cases notification with
  | opened text => exact h.receive_of_text rfl rfl
  | changed texts =>
    cases htexts : texts.getLast? with
    | none =>
      obtain rfl := List.getLast?_eq_none_iff.mp htexts
      exact h.receive_changed_nil name
    | some text =>
      refine h.receive_of_text htexts ?_
      simp [Workspace.textAfter?, htexts]
  | closed => exact h.receive_closed name

end Shows

theorem after_append (history : History) (told : Text × Notification) :
    after (history ++ [told]) = (after history).receive told := by
  rw [after, List.foldl_append]
  rfl

theorem shows_after (history : History) : (after history).Shows history := by
  induction history using List.reverseRecOn with
  | nil => exact ⟨fun _ => rfl, nofun, fun _ => rfl⟩
  | append_singleton history told ih =>
    rw [after_append]
    exact ih.receive told.1 told.2

/-- After any notifications the desk shows what has been told.  One that fails changes nothing and
publishes nothing, and none has an effect on other documents. -/
theorem after_coherent :
    (∀ history : History, (after history).Shows history) ∧
    (∀ (desk : Desk) (name : Text) (notification : Notification) (e : Failure),
      (desk.workspace.notify name notification).1 = .error e →
        (desk.workspace.notify name notification).2 = desk.workspace ∧
        desk.receive (name, notification) = desk) ∧
    (∀ (desk : Desk) (name : Text) (notification : Notification),
      (∀ other, other ≠ name →
        (desk.receive (name, notification)).workspace.get? other = desk.workspace.get? other) ∧
      ∃ added, (desk.receive (name, notification)).published = added ++ desk.published ∧
        ∀ publication ∈ added, publication.1 = name) := by
  refine ⟨shows_after, ?_, ?_⟩
  · intro desk name notification e hfails
    exact ⟨Workspace.notify_of_error hfails, receive_of_error hfails⟩
  · intro desk name notification
    refine ⟨fun other hother => get?_receive_of_ne hother notification desk, ?_⟩
    exact desk.exists_published_receive name notification

end Desk

end SmallLisp.Editor
