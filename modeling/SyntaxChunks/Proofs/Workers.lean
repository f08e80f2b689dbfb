/-
# `Proofs.Workers` — every run comes to an end, in any order

A move takes one task one place further and touches no other
(`Pool.step_cases`).  So no task is lost or made up on the way
(`Pool.run_tasks_perm`), the moves that are left can be counted
(`Pool.run_effort`), and as long as one is left one can be made
(`Pool.exists_step`).  Nothing more can be said of the order in which tasks are
collected: with any number of workers it can be any order there is
(`Pool.exists_run_collected`).
-/
import Mathlib.Data.List.Perm.Basic
import SyntaxChunks.Workers

namespace SyntaxChunks

theorem workerCount_pos (asked : Int) (tasks : Nat) : 0 < workerCount asked tasks := by
  unfold workerCount
  omega

namespace Pool

/-- The tasks, wherever they are. -/
def tasks (p : Pool) : List Nat :=
  p.waiting ++ p.running ++ p.ended ++ p.collected

/-- The number of moves until all tasks are collected. -/
def effort (p : Pool) : Nat :=
  3 * p.waiting.length + 2 * p.running.length + p.ended.length

section

variable {workers : Nat} {p q : Pool} {m : Move} {moves : List Move}

/-! ## One move -/

/-- All that a move can do. -/
theorem step_cases (h : p.step workers m = some q) :
    (∃ task rest, m = .take ∧ p.waiting = task :: rest ∧ p.running.length < workers ∧
      q = ⟨rest, p.running ++ [task], p.ended, p.collected⟩) ∨
    (∃ place task, m = .finish place ∧ p.running[place]? = some task ∧
      q = ⟨p.waiting, p.running.eraseIdx place, p.ended ++ [task], p.collected⟩) ∨
    ∃ place task, m = .collect place ∧ p.ended[place]? = some task ∧
      q = ⟨p.waiting, p.running, p.ended.eraseIdx place, p.collected ++ [task]⟩ := by
  cases m with
  | take =>
      rw [step] at h
      split at h
      · cases h
      · next task rest hwaiting =>
          split at h
          · next hfree => exact .inl ⟨task, rest, rfl, hwaiting, hfree, (Option.some.inj h).symm⟩
          · cases h
  | finish place =>
      obtain ⟨task, htask, hq⟩ := Option.map_eq_some_iff.mp h
      exact .inr (.inl ⟨place, task, rfl, htask, hq.symm⟩)
  | collect place =>
      obtain ⟨task, htask, hq⟩ := Option.map_eq_some_iff.mp h
      exact .inr (.inr ⟨place, task, rfl, htask, hq.symm⟩)

theorem perm_of_getElem? {l : List Nat} {place task : Nat} (h : l[place]? = some task) :
    l.Perm (task :: l.eraseIdx place) := by
  obtain ⟨hplace, rfl⟩ := List.getElem?_eq_some_iff.mp h
  exact (List.getElem_cons_eraseIdx_perm hplace).symm

theorem step_tasks_perm (h : p.step workers m = some q) : q.tasks.Perm p.tasks := by
  rw [List.perm_iff_count]
  intro a
  rcases step_cases h with
    ⟨task, rest, _, hwaiting, _, rfl⟩ | ⟨place, task, _, htask, rfl⟩ | ⟨place, task, _, htask, rfl⟩
  · simp only [tasks, hwaiting, List.count_append, List.count_cons, List.count_nil]
    omega
  · have hcount := (perm_of_getElem? htask).count_eq a
    simp only [tasks, List.count_append, List.count_cons, List.count_nil] at hcount ⊢
    omega
  · have hcount := (perm_of_getElem? htask).count_eq a
    simp only [tasks, List.count_append, List.count_cons, List.count_nil] at hcount ⊢
    omega

theorem step_effort (h : p.step workers m = some q) : q.effort + 1 = p.effort := by
  rcases step_cases h with
    ⟨task, rest, _, hwaiting, _, rfl⟩ | ⟨place, task, _, htask, rfl⟩ | ⟨place, task, _, htask, rfl⟩
  · simp only [effort, hwaiting, List.length_cons, List.length_append, List.length_nil]
    omega
  · have hlength := (perm_of_getElem? htask).length_eq
    simp only [effort, List.length_cons, List.length_append, List.length_nil] at hlength ⊢
    omega
  · have hlength := (perm_of_getElem? htask).length_eq
    simp only [effort, List.length_cons] at hlength ⊢
    omega

theorem step_running_le (hle : p.running.length ≤ workers) (h : p.step workers m = some q) :
    q.running.length ≤ workers := by
  rcases step_cases h with
    ⟨task, rest, _, _, hfree, rfl⟩ | ⟨place, task, _, _, rfl⟩ | ⟨place, task, _, _, rfl⟩
  · simp only [List.length_append, List.length_cons, List.length_nil]
    omega
  · exact Nat.le_trans (List.length_eraseIdx_le ..) hle
  · exact hle

theorem isDone_iff : p.isDone = true ↔ p.waiting = [] ∧ p.running = [] ∧ p.ended = [] := by
  simp only [isDone, Bool.and_eq_true, List.isEmpty_iff, and_assoc]

/-- While a task is not collected, some task can be moved: one that ended, else one that runs,
else the first that waits, because then all workers are free. -/
theorem exists_step (hworkers : 0 < workers) (h : p.isDone = false) :
    ∃ m q, p.step workers m = some q := by
  obtain ⟨waiting, running, ended, collected⟩ := p
  cases ended with
  | cons task _ => exact ⟨.collect 0, _, rfl⟩
  | nil =>
      cases running with
      | cons task _ => exact ⟨.finish 0, _, rfl⟩
      | nil =>
          cases waiting with
          | cons task rest => exact ⟨.take, _, if_pos hworkers⟩
          | nil => cases h

/-! ## Runs -/

theorem run_cons (h : p.run workers (m :: moves) = some q) :
    ∃ next, p.step workers m = some next ∧ next.run workers moves = some q :=
  Option.bind_eq_some_iff.mp h

theorem run_tasks_perm : ∀ {moves : List Move} {p : Pool}, p.run workers moves = some q →
    q.tasks.Perm p.tasks
  | [], _, h => by cases h; exact .refl _
  | _ :: _, _, h => by
      obtain ⟨next, hstep, hrest⟩ := run_cons h
      exact (run_tasks_perm hrest).trans (step_tasks_perm hstep)

theorem run_effort : ∀ {moves : List Move} {p : Pool}, p.run workers moves = some q →
    moves.length + q.effort = p.effort
  | [], _, h => by cases h; exact Nat.zero_add _
  | _ :: _, _, h => by
      obtain ⟨next, hstep, hrest⟩ := run_cons h
      have heffort := step_effort hstep
      have hrest := run_effort hrest
      rw [List.length_cons]
      omega

theorem run_running_le : ∀ {moves : List Move} {p : Pool}, p.running.length ≤ workers →
    p.run workers moves = some q → q.running.length ≤ workers
  | [], _, hle, h => by cases h; exact hle
  | _ :: _, _, hle, h => by
      obtain ⟨next, hstep, hrest⟩ := run_cons h
      exact run_running_le (step_running_le hle hstep) hrest

theorem run_append {more : List Move} : ∀ {moves : List Move} {p : Pool},
    p.run workers moves = some q → p.run workers (moves ++ more) = q.run workers more
  | [], _, h => by cases h; rfl
  | m :: moves, p, h => by
      obtain ⟨next, hstep, hrest⟩ := run_cons h
      rw [List.cons_append, run, hstep]
      exact run_append hrest

/-- All tasks can come to their end without any being collected, one worker after the other. -/
theorem exists_run_ended (hworkers : 0 < workers) (collected : List Nat) :
    ∀ waiting ended : List Nat, ∃ moves,
      (⟨waiting, [], ended, collected⟩ : Pool).run workers moves
        = some ⟨[], [], ended ++ waiting, collected⟩
  | [], ended => ⟨[], by rw [List.append_nil]; rfl⟩
  | task :: rest, ended => by
      obtain ⟨moves, hmoves⟩ := exists_run_ended hworkers collected rest (ended ++ [task])
      refine ⟨.take :: .finish 0 :: moves, ?_⟩
      rw [List.append_assoc, List.singleton_append] at hmoves
      rw [run, step]
      simp only [List.length_nil, if_pos hworkers]
      exact hmoves

/-- Tasks that ended can be collected in any order. -/
theorem exists_run_collects (workers : Nat) : ∀ order ended collected : List Nat,
    order.Perm ended → ∃ moves,
      (⟨[], [], ended, collected⟩ : Pool).run workers moves = some ⟨[], [], [], collected ++ order⟩
  | [], ended, collected, h => by
      cases h.nil_eq
      exact ⟨[], by rw [List.append_nil]; rfl⟩
  | task :: order, ended, collected, h => by
      obtain ⟨place, hplace⟩ := List.mem_iff_getElem?.mp (h.subset List.mem_cons_self)
      have hrest : order.Perm (ended.eraseIdx place) :=
        (h.trans (perm_of_getElem? hplace)).cons_inv
      obtain ⟨moves, hmoves⟩ := exists_run_collects workers order _ (collected ++ [task]) hrest
      refine ⟨.collect place :: moves, ?_⟩
      rw [List.append_assoc, List.singleton_append] at hmoves
      rw [run, step, hplace]
      exact hmoves

theorem exists_run_collected (hworkers : 0 < workers) {count : Nat} {order : List Nat}
    (h : order.Perm (List.range count)) :
    ∃ moves, (ofTasks count).run workers moves = some ⟨[], [], [], order⟩ := by
  obtain ⟨first, hfirst⟩ := exists_run_ended hworkers [] (List.range count) []
  obtain ⟨second, hsecond⟩ := exists_run_collects workers order _ [] h
  exact ⟨first ++ second, (run_append hfirst).trans hsecond⟩

/-! ## Runs of given tasks -/

variable {count : Nat}

theorem length_le_of_run (h : (ofTasks count).run workers moves = some p) :
    moves.length ≤ 3 * count := by
  have heffort := run_effort h
  simp only [effort, ofTasks, List.length_range, List.length_nil] at heffort
  omega

/-- When all tasks are collected, each is so once. -/
theorem collected_perm (h : (ofTasks count).run workers moves = some p) (hdone : p.isDone = true) :
    p.collected.Perm (List.range count) := by
  have hperm := run_tasks_perm h
  obtain ⟨hwaiting, hrunning, hended⟩ := isDone_iff.mp hdone
  simpa only [tasks, ofTasks, hwaiting, hrunning, hended, List.append_nil, List.nil_append]
    using hperm

end

end Pool

end SyntaxChunks
