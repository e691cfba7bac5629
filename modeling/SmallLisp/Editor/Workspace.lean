import SmallLisp.Editor.Index
import SmallLisp.Editor.Words
/-!
The open documents of an editor and the answers to its questions about them.

Every document has the index of its current text.  A text without an index leaves the workspace as
it is.
-/

namespace SmallLisp.Editor

open Text (Position)

/-- A document. -/
structure Document where
  text : Text
  index : Index
deriving Repr

/-- The open documents by their names. -/
structure Workspace where
  documents : Table Text Document := []
deriving Repr

/-- What an editor tells of a document. -/
inductive Notification
  /-- The text of a document; a missing text counts as an empty one. -/
  | opened (text : Option Text)
  /-- New texts, one after the other. -/
  | changed (texts : List Text)
  | closed
deriving DecidableEq, Repr

/-- A message about one character of a document. -/
structure Diagnostic where
  position : Position
  message : Text
deriving DecidableEq, Repr

/-- The name under which diagnostics are published. -/
def diagnosticSource : Text := "minirack-ls"

/-- The diagnostics of a document: its brackets without a partner, or else the reader's error at
the start of the text. -/
def Index.diagnostics (index : Index) : List Diagnostic :=
  let brackets := index.unmatched.map fun position =>
    { position, message := "Unmatched bracket" : Diagnostic }
  match index.readingError with
  | some message =>
      if !message.isEmpty && index.unmatched.isEmpty then [{ position := ⟨0, 0⟩, message }]
      else brackets
  | none => brackets

/-- What a completion stands for. -/
inductive CompletionKind
  | specialForm
  | function
  | variable
deriving DecidableEq, Repr

/-- A name that can be completed. -/
structure Completion where
  label : Text
  kind : CompletionKind
  detail : Option Text
deriving DecidableEq, Repr

/-- A defined name in the outline of a document: its place is `width` characters from `position`
on. -/
structure OutlineEntry where
  name : Text
  kind : DefinitionKind
  position : Position
  width : Nat
deriving DecidableEq, Repr

namespace Workspace

/-- The document of a name. -/
def get? (w : Workspace) (name : Text) : Option Document :=
  w.documents.lookup name

/-- The names of the open documents in order. -/
def names (w : Workspace) : List Text :=
  w.documents.keys.mergeSort Text.atMost

/-- A document with a given text, and the diagnostics to publish for it. -/
def put (w : Workspace) (name text : Text) : Except Failure (List Diagnostic × Workspace) := do
  let index ← Index.ofText text
  return (index.diagnostics, { documents := w.documents.insert name { text, index } })

/-- The text of a document after a notification, unless it is closed.  Of several new texts the last
counts; without any the text stays as it is, or is empty if there was no document. -/
def textAfter? (w : Workspace) (name : Text) : Notification → Option Text
  | .opened text => some (text.getD [])
  | .changed texts => some (texts.getLast?.getD ((w.get? name).elim [] Document.text))
  | .closed => none

/-- The diagnostics to publish after a notification, and the workspace after it.  If the text has no
index, nothing is published and the workspace stays as it is. -/
def notify (w : Workspace) (name : Text) (notification : Notification) :
    Except Failure (List Diagnostic) × Workspace :=
  match w.textAfter? name notification with
  | none => (.ok [], { documents := w.documents.erase name })
  | some text =>
      match w.put name text with
      | .ok (diagnostics, next) => (.ok diagnostics, next)
      | .error failure => (.error failure, w)

/-- The description of a word: a special form, else a definition of the document, else a
primitive. -/
def describe? (document : Document) (word : Text) : Option Text :=
  match specialSignatures.lookup word with
  | some signature => some (signature ++ " (special form)")
  | none =>
      match document.index.definitions.lookup word with
      | some d =>
          let place := s!"{d.position.line + 1}:{d.position.column + 1}"
          some (word ++ " - " ++ d.kind.word ++ " (defined at " ++ place ++ ")")
      | none => primitiveSignatures.lookup word

/-- The description of the word at a position. -/
def hover (w : Workspace) (name : Text) (line column : Int) : Except Failure (Option Text) :=
  match w.get? name with
  | none => .ok none
  | some document => do
      let (word, _) ← wordAt document.text line column
      return word.bind (describe? document)

/-- The names that can be completed in a document: special forms, primitives and definitions. -/
def completions (w : Workspace) (name : Text) : List Completion :=
  let specials := specialSignatures.map fun (label, signature) =>
    { label, kind := .specialForm, detail := some signature : Completion }
  let primitives := primitiveSignatures.map fun (label, signature) =>
    { label, kind := .function, detail := some signature : Completion }
  let definitions := (w.get? name).elim [] fun document =>
    document.index.definitions.map fun (label, d) =>
      let kind := match d.kind with
        | .function => CompletionKind.function
        | .variable => CompletionKind.variable
      { label, kind, detail := none : Completion }
  specials ++ primitives ++ definitions

/-- The signature of a special form or a primitive. -/
def signatureOf? (callee : Text) : Option Text :=
  (specialSignatures.lookup callee).or (primitiveSignatures.lookup callee)

/-- The signature of the callee before a position. -/
def signature (w : Workspace) (name : Text) (line column : Int) :
    Except Failure (Option Text) :=
  match w.get? name with
  | none => .ok none
  | some document => do
      let before ← linePrefix document.text line column
      return (calleeName? before).bind signatureOf?

/-- The definitions of a document. -/
def outline? (w : Workspace) (name : Text) : Option (List OutlineEntry) :=
  (w.get? name).map fun document =>
    document.index.definitions.map fun (name, d) =>
      { name, kind := d.kind, position := d.position, width := name.length }

end Workspace

end SmallLisp.Editor
