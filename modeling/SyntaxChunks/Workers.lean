/-
# `Workers` — tasks shared out among workers

Tasks are known by their numbers.  They wait in line, and a worker that is free
takes the first one.  Tasks come to their end in any order, and those that did
are collected in any order, while others still wait or run.  Which of these
happens next is not laid down: a list of moves is one of the ways that a run
can go.

* `workerCount` — how many workers some tasks get.
* `Pool.step` — what a move leads to, if it can be made.
* `Pool.run` — what a list of moves leads to.
-/

namespace SyntaxChunks

/-- The number of workers for some tasks: as many as are asked for, but no more
than there are tasks, and at least one. -/
def workerCount (asked : Int) (tasks : Nat) : Nat :=
  (max 1 (min asked tasks)).toNat

/-- Where the tasks of a run are. -/
structure Pool where
  waiting : List Nat
  running : List Nat
  ended : List Nat
  collected : List Nat
deriving DecidableEq, Repr

/-- What can happen next: a worker takes a task, or the task at a place among
those that run comes to its end, or the one at a place among those that did is
collected. -/
inductive Move where
  | take
  | finish (place : Nat)
  | collect (place : Nat)
deriving DecidableEq, Repr

namespace Pool

/-- All tasks wait, in their order. -/
def ofTasks (count : Nat) : Pool :=
  ⟨List.range count, [], [], []⟩

/-- Are all tasks collected? -/
def isDone (p : Pool) : Bool :=
  p.waiting.isEmpty && p.running.isEmpty && p.ended.isEmpty

/-- What a move leads to. -/
def step (workers : Nat) (p : Pool) : Move → Option Pool
  | .take =>
    match p.waiting with
    | [] => none
    | task :: rest =>
      if p.running.length < workers then
        some { p with waiting := rest, running := p.running ++ [task] }
      else none
  | .finish place =>
    p.running[place]?.map fun task =>
      { p with running := p.running.eraseIdx place, ended := p.ended ++ [task] }
  | .collect place =>
    p.ended[place]?.map fun task =>
      { p with ended := p.ended.eraseIdx place, collected := p.collected ++ [task] }

/-- What some moves lead to. -/
def run (workers : Nat) (p : Pool) : List Move → Option Pool
  | [] => some p
  | m :: rest => (p.step workers m).bind fun q => q.run workers rest

end Pool

end SyntaxChunks
