/-
# `Provider` — where syntax trees come from

A provider answers some contents, within a time limit, with a tree or with the
reason why there is none.  It is either any such function, or the name of a
grammar whose parser is loaded anew for every attempt.  A parser takes its
limit in whole microseconds, at least one.

* `Provider.parse` — the answer of a provider, and the call that it made.
-/
import SyntaxChunks.Contents
import SyntaxChunks.Number.Decimal
import SyntaxChunks.Text.Quoted
import SyntaxChunks.Tree

namespace SyntaxChunks

open Number (Binary64)

/-- A fault that is no failure to parse, and stops a selection. -/
inductive Crash where
  | infiniteLimit
  | limitNotANumber
  | raised (kind : String) (message : Text)
deriving DecidableEq, Repr

/-- The text of a crash. -/
def Crash.message : Crash → Text
  | .infiniteLimit => "cannot convert float infinity to integer"
  | .limitNotANumber => "cannot convert float NaN to integer"
  | .raised _ message => message

/-- The answer of a provider. -/
inductive Reply where
  | tree (root : Option Node)
  | failed (timedOut : Bool) (message : Text)
  | crashed (crash : Crash)
deriving Repr

/-! ## Parsers of grammars -/

/-- The answer of a parser.  A fault is marked as `stopped` if it is the one by
which parsers tell that they were stopped. -/
inductive ParserReply where
  | tree (root : Option Node)
  | noTree
  | raised (stopped : Bool) (message : Text)
deriving Repr

/-- What a parser answers to contents under a limit in microseconds. -/
abbrev Parser := Contents → Option Int → ParserReply

/-- The parsers of the grammars, or the reason why one cannot be loaded. -/
abbrev Grammars := Text → Except Text Parser

/-- A timeout in effect: a timeout of zero is none. -/
def effectiveTimeout (timeout : Option Binary64) : Option Binary64 :=
  timeout.filter fun t => !t.isZero

/-- The limit in microseconds for a timeout in seconds. -/
def parseLimit : Binary64 → Except Crash Int
  | .nan => .error .limitNotANumber
  | t =>
    match (t.scale 1000000).truncate? with
    | some micros => .ok (max 1 micros)
    | none => .error .infiniteLimit

/-! ## Providers -/

/-- Where a tree comes from. -/
inductive Provider where
  | direct (parse : Contents → Option Binary64 → Reply)
  | grammar (name : Text)

/-- A call that an attempt made: of a function with its timeout, or of a
grammar's parser with its limit. -/
inductive Call where
  | direct (timeout : Option Binary64)
  | grammar (name : Text) (limit : Option Int)
deriving DecidableEq, Repr

/-- What a grammar makes of its parser's answer. -/
def grammarReply (name : Text) (timeout : Option Binary64) (reply : ParserReply) : Reply :=
  let grammar := "grammar " ++ Text.quoted name
  let exceeded := fun t : Binary64 => Reply.failed true (grammar ++ " exceeded " ++ t.text ++ "s")
  match reply, timeout with
  | .tree (some root), _ => .tree (some root)
  | .tree none, _ => .failed false (grammar ++ " returned no tree")
  | .noTree, some t => exceeded t
  | .noTree, none => .failed false (grammar ++ " returned no tree")
  | .raised true _, some t => exceeded t
  | .raised _ message, _ => .failed false (grammar ++ " failed to parse: " ++ message)

/-- An attempt with a grammar: the call, if its parser was started, and the
answer. -/
def parseWithGrammar (grammars : Grammars) (name : Text) (contents : Contents)
    (timeout : Option Binary64) : Option Call × Reply :=
  match grammars name with
  | .error why => (none, .failed false ("grammar " ++ Text.quoted name ++ " unavailable: " ++ why))
  | .ok parser =>
    match effectiveTimeout timeout with
    | none => (some (.grammar name none), grammarReply name none (parser contents none))
    | some t =>
      match parseLimit t with
      | .error crash => (none, .crashed crash)
      | .ok limit =>
        (some (.grammar name (some limit)),
          grammarReply name (some t) (parser contents (some limit)))

namespace Provider

/-- An attempt with a provider. -/
def parse (grammars : Grammars) (contents : Contents) (timeout : Option Binary64) :
    Provider → Option Call × Reply
  | .direct parse => (some (.direct timeout), parse contents timeout)
  | .grammar name => parseWithGrammar grammars name contents timeout

/-- How a provider is shown. -/
def display : Provider → String
  | .direct _ => "direct"
  | .grammar name => "TreeSitterProvider(" ++ Text.quoted name ++ ")"

end Provider

end SyntaxChunks
