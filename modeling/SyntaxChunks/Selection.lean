/-
# `Selection` — the first language that reads a document

The languages of a registry are tried one after the other, the one that claims
the document's extension first.  An attempt that fails, or whose tree does not
pass, leads to the next one; a tree that passes ends the run, and so does a
crash.

* `attempts` — all that was tried, in order.
* `select` — what the attempts lead to.
-/
import SyntaxChunks.Document
import SyntaxChunks.Log
import SyntaxChunks.Registry

namespace SyntaxChunks

open Number (Binary64)

/-- How an attempt ended. -/
inductive Verdict where
  | accepted (root : Node)
  | rejected
  | failed (timedOut : Bool) (message : Text)
  | crashed (crash : Crash)
deriving Repr

/-- Does the verdict end the run of attempts? -/
def Verdict.isFinal : Verdict → Bool
  | .accepted _ => true
  | .crashed _ => true
  | _ => false

/-- An attempt: the language, the call that was made, and how it ended. -/
structure Attempt where
  entry : Entry
  call : Option Call
  verdict : Verdict

/-- What is made of an answer. -/
def Entry.judge (e : Entry) : Reply → Verdict
  | .tree (some root) =>
    if isSuccessfulParse (some e.errorPosition) (some root) then .accepted root else .rejected
  | .tree none => .rejected
  | .failed timedOut message => .failed timedOut message
  | .crashed crash => .crashed crash

/-- The attempt with one language. -/
def Entry.attempt (grammars : Grammars) (contents : Contents) (timeout : Option Binary64)
    (e : Entry) : Attempt :=
  let (call, reply) := e.provider.parse grammars contents (effectiveTimeout timeout)
  ⟨e, call, e.judge reply⟩

/-- The attempts with some languages, up to the first final one. -/
def attemptsWith (grammars : Grammars) (contents : Contents) (timeout : Option Binary64) :
    List Entry → List Attempt
  | [] => []
  | e :: rest =>
    let a := e.attempt grammars contents timeout
    if a.verdict.isFinal then [a] else a :: attemptsWith grammars contents timeout rest

/-- The attempts on a document. -/
def attempts (grammars : Grammars) (registry : Registry) (timeout : Option Binary64)
    (d : Document) : List Attempt :=
  attemptsWith grammars d.contents timeout (registry.prioritized d.extension)

/-- What some attempts lead to: a tree and its language, nothing, or a
crash. -/
def outcomeOf (tried : List Attempt) : Except Crash (Option (Node × Text)) :=
  match tried.getLast? with
  | some ⟨entry, _, .accepted root⟩ => .ok (some (root, entry.name))
  | some ⟨_, _, .crashed crash⟩ => .error crash
  | _ => .ok none

/-- The tree of a document and its language. -/
def select (grammars : Grammars) (registry : Registry) (timeout : Option Binary64)
    (d : Document) : Except Crash (Option (Node × Text)) :=
  outcomeOf (attempts grammars registry timeout d)

/-! ## The log -/

/-- The line about an attempt on a document, made with a timeout.  Without a
timeout there is none to tell of, and no line. -/
def Attempt.line (timeout : Option Binary64) (extension : Option Text) (a : Attempt) :
    Option Log.Line :=
  let name := a.entry.name
  match a.verdict with
  | .accepted _ =>
    let hint := (extension.map Text.quoted).getD "None"
    some ⟨.debug, .selection, "Selected " ++ name ++ s!" (hint={hint})"⟩
  | .rejected =>
    let position := a.entry.errorPosition.text
    some ⟨.debug, .selection,
      "Parse with " ++ name ++ s!" rejected by error check ({position})"⟩
  | .failed true _ =>
    timeout.map fun limit =>
      let what := s!" timed out after {limit.fixedTwo}s; trying next language"
      ⟨.warning, .selection, "Parser for " ++ name ++ what⟩
  | .failed false message =>
    some ⟨.debug, .selection, "Parser for " ++ name ++ " failed: " ++ message⟩
  | .crashed _ => none

end SyntaxChunks
